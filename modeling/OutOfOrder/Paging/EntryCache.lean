import OutOfOrder.Paging.Address

/-!
# The cache of page table entries

A direct-mapped cache: an entry's address selects its line, and the line keeps
the whole address, so a hit is for exactly that address. Entries of one line
displace each other.
-/

namespace OutOfOrder.Paging

/-- An entry and the address it was read from. -/
structure CacheLine where
  addr : PhysAddr
  raw : UInt64
  deriving DecidableEq

structure EntryCache where
  lines : Array (Option CacheLine)

namespace EntryCache

/-- The number of lines that have room for `size` entries: `size` rounded up to a
power of two, by filling the bits of the number below it. -/
def linesFor (size : Nat) : Nat := if size ≤ 1 then 1 else Nat.pow 2 ((size - 1).log2 + 1)

/-- An empty cache with room for at least `size` entries; the number of lines
is a power of two. -/
def withSize (size : Nat) : EntryCache := ⟨Array.replicate (linesFor size) none⟩

def capacity (c : EntryCache) : Nat := c.lines.size

/-- The line of an address: consecutive entries have consecutive lines. -/
def lineOf (c : EntryCache) (a : PhysAddr) : Nat :=
  (a.val / entryBytes).toNat % c.capacity

/-- The entry read from an address, if the cache has it. -/
def lookup (c : EntryCache) (a : PhysAddr) : Option UInt64 :=
  match c.lines[c.lineOf a]? with
  | some (some line) => if line.addr = a then some line.raw else none
  | _ => none

def insert (c : EntryCache) (a : PhysAddr) (raw : UInt64) : EntryCache :=
  ⟨c.lines.setIfInBounds (c.lineOf a) (some ⟨a, raw⟩)⟩

def flush (c : EntryCache) : EntryCache := ⟨Array.replicate c.capacity none⟩

theorem capacity_withSize (size : Nat) :
    (withSize size).capacity = linesFor size := by
  simp [withSize, capacity]

theorem capacity_withSize_pos (size : Nat) : 0 < (withSize size).capacity := by
  rw [capacity_withSize, linesFor]
  split
  · exact Nat.one_pos
  · exact Nat.two_pow_pos _

@[simp]
theorem capacity_insert (c : EntryCache) (a : PhysAddr) (raw : UInt64) :
    (c.insert a raw).capacity = c.capacity := by
  simp [insert, capacity]

@[simp]
theorem capacity_flush (c : EntryCache) : c.flush.capacity = c.capacity := by
  simp [flush, capacity]

theorem lookup_withSize (size : Nat) (a : PhysAddr) : (withSize size).lookup a = none := by
  simp only [lookup, withSize, Array.getElem?_replicate]
  split
  · next h => split at h <;> simp_all
  · rfl

theorem lookup_flush (c : EntryCache) (a : PhysAddr) : c.flush.lookup a = none := by
  simp only [lookup, flush, Array.getElem?_replicate]
  split
  · next h => split at h <;> simp_all
  · rfl

/-- An insertion decides what its whole line answers, and no other line
changes. -/
theorem lookup_insert {c : EntryCache} (hc : 0 < c.capacity) (a b : PhysAddr) (raw : UInt64) :
    (c.insert a raw).lookup b =
      if c.lineOf b = c.lineOf a then (if b = a then some raw else none) else c.lookup b := by
  have hline : (c.insert a raw).lineOf b = c.lineOf b := by simp [lineOf]
  have hlt : c.lineOf a < c.lines.size := Nat.mod_lt _ hc
  unfold lookup
  rw [hline]
  simp only [insert]
  by_cases heq : c.lineOf b = c.lineOf a
  · rw [heq, Array.getElem?_setIfInBounds_self_of_lt hlt]
    simp [eq_comm]
  · rw [Array.getElem?_setIfInBounds_ne (Ne.symm heq)]
    simp [heq]

end EntryCache

end OutOfOrder.Paging
