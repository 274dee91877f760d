import Mathlib.Algebra.Group.Nat.Defs
import OutOfOrder.Paging.EntryCache
import OutOfOrder.Proofs.Lasts

/-!
# What a direct-mapped cache remembers

A cache of entries forgets in two ways. A flush empties it, and an insertion takes the line
of its address from whoever had it. Nothing else is forgotten, so what a lookup answers can
be read off the commands: the last of them that concerned the line of the address decides,
and if it was an insertion at that very address, its entry is found.

`CacheCommand.Displaces` says which commands concern a line. A command stores the entry
that is looked up, or takes it away, or leaves the answer alone, and the law about whole
runs is that one step, repeated.

How many lines there are is the other half. The number is a power of two, so the line of an
address is found by masking, and it is the least that has room for what was asked for.
-/

namespace OutOfOrder.Paging

/-! ## Commands, and the lines that they concern -/

/-- Everything that can be done to a cache of entries. -/
inductive CacheCommand
  | insert (a : PhysAddr) (raw : UInt64)
  | lookup (a : PhysAddr)
  | flush

/-- The line of an address among `capacity` lines: entries that follow each other in memory
have lines that follow each other, and the last line is followed by the first. -/
def lineAmong (capacity : Nat) (a : PhysAddr) : Nat := a.val.toNat / 8 % capacity

/-- What the line of `a` held before the command, it does not hold after. -/
def CacheCommand.Displaces (capacity : Nat) (a : PhysAddr) : CacheCommand → Prop
  | insert b _ => lineAmong capacity b = lineAmong capacity a
  | lookup _ => False
  | flush => True

/-- Of the insertions in the line of `a`, the last one since the last flush stored `raw`, and
at `a` itself. -/
def LatestInLine (capacity : Nat) (a : PhysAddr) (raw : UInt64) (past : List CacheCommand) :
    Prop :=
  Lasts (· = .insert a raw) (CacheCommand.Displaces capacity a) past

/-- Of the insertions at `a` itself, the last one stored `raw`. -/
def LatestAt (a : PhysAddr) (raw : UInt64) (past : List CacheCommand) : Prop :=
  Lasts (· = .insert a raw) (fun command => ∃ other, command = .insert a other) past

namespace EntryCache

def perform (c : EntryCache) : CacheCommand → EntryCache
  | .insert a raw => c.insert a raw
  | .lookup _ => c
  | .flush => c.flush

/-- Carries out commands one after the other. -/
def run (c : EntryCache) (commands : List CacheCommand) : EntryCache := commands.foldl perform c

theorem run_concat (c : EntryCache) (commands : List CacheCommand) (command : CacheCommand) :
    c.run (commands ++ [command]) = (c.run commands).perform command := by
  simp [run]

theorem capacity_perform (c : EntryCache) (command : CacheCommand) :
    (c.perform command).capacity = c.capacity := by
  cases command <;> simp [perform]

theorem capacity_run (c : EntryCache) (commands : List CacheCommand) :
    (c.run commands).capacity = c.capacity := by
  induction commands using List.reverseRecOn with
  | nil => rfl
  | append_singleton rest command ih => rw [run_concat, capacity_perform, ih]

theorem lineOf_eq (c : EntryCache) (a : PhysAddr) : c.lineOf a = lineAmong c.capacity a := by
  simp [lineOf, lineAmong, entryBytes]

theorem capacity_withSize_spec (size : Nat) :
    (∃ k, (withSize size).capacity = 2 ^ k) ∧ max size 1 ≤ (withSize size).capacity ∧
      ∀ k, max size 1 ≤ 2 ^ k → (withSize size).capacity ≤ 2 ^ k := by
  rw [capacity_withSize, linesFor]
  split
  · exact ⟨⟨0, rfl⟩, by omega, fun k _ => Nat.two_pow_pos k⟩
  · have hroom : size - 1 < Nat.pow 2 ((size - 1).log2 + 1) := Nat.lt_log2_self
    refine ⟨⟨_, rfl⟩, by omega, fun k hk => Nat.pow_le_pow_right Nat.two_pos ?_⟩
    -- Room for `size` entries takes more bits than the number below `size` has.
    exact (Nat.log2_lt (by omega)).2 (by omega)

/-- A command stores the entry, or leaves it if it was there and is not displaced. -/
theorem lookup_perform {c : EntryCache} (hc : 0 < c.capacity) (command : CacheCommand)
    (a : PhysAddr) (raw : UInt64) : (c.perform command).lookup a = some raw ↔
      command = .insert a raw ∨ c.lookup a = some raw ∧ ¬ command.Displaces c.capacity a := by
  cases command with
  | lookup b => simp [perform, CacheCommand.Displaces]
  | flush => simp [perform, CacheCommand.Displaces, lookup_flush]
  | insert b other =>
      rw [perform, lookup_insert hc, lineOf_eq, lineOf_eq, CacheCommand.insert.injEq,
        CacheCommand.Displaces]
      by_cases hline : lineAmong c.capacity b = lineAmong c.capacity a
      · by_cases hab : a = b <;> simp [hline, hab, eq_comm]
      · have hab : b ≠ a := fun hab => hline (congrArg (lineAmong c.capacity) hab)
        simp [hline, Ne.symm hline, hab]

/-- What a lookup finds after a run is what the commands stored last in its line. -/
theorem lookup_run (size : Nat) (commands : List CacheCommand) (a : PhysAddr) (raw : UInt64) :
    ((withSize size).run commands).lookup a = some raw ↔
      LatestInLine (withSize size).capacity a raw commands := by
  induction commands using List.reverseRecOn with
  | nil => simp [run, lookup_withSize, LatestInLine, not_lasts_nil]
  | append_singleton rest command ih =>
      have hcapacity := capacity_run (withSize size) rest
      have hpos : 0 < ((withSize size).run rest).capacity :=
        hcapacity ▸ capacity_withSize_pos size
      rw [run_concat, lookup_perform hpos, hcapacity, ih, LatestInLine, LatestInLine, lasts_append]

/-- The cache is direct-mapped, with room for at least `size` entries, after it has been
through the commands `past`. -/
structure DirectMapped (size : Nat) (past : List CacheCommand) (c : EntryCache) : Prop where
  /-- The number of lines is a power of two, large enough, and the least such. -/
  power : ∃ k, c.capacity = 2 ^ k
  room : max size 1 ≤ c.capacity
  least : ∀ k, max size 1 ≤ 2 ^ k → c.capacity ≤ 2 ^ k
  line : ∀ a, c.lineOf a = lineAmong c.capacity a
  /-- The line is given by the low bits of the number of the entry. -/
  masked : ∀ a, c.lineOf a = (a.val.toNat / 8) &&& (c.capacity - 1)
  lookup_iff : ∀ a raw, c.lookup a = some raw ↔ LatestInLine c.capacity a raw past
  /-- A hit is the last entry that was stored for exactly that address. -/
  hit : ∀ a raw, c.lookup a = some raw → LatestAt a raw past
  /-- An insertion in another line changes nothing. -/
  elsewhere : ∀ a b raw, lineAmong c.capacity b ≠ lineAmong c.capacity a →
    (c.perform (.insert b raw)).lookup a = c.lookup a

/-- **The cache is exactly a direct-mapped one.** Whatever size is asked for, and whatever is
stored, looked up and flushed in whatever order, a lookup answers with the last entry that
was stored in the line of its address since the last flush, if it was stored for that
address. -/
theorem directMapped_run (size : Nat) (commands : List CacheCommand) :
    DirectMapped size commands ((withSize size).run commands) := by
  have hcapacity := capacity_run (withSize size) commands
  have hlookup := lookup_run size commands
  obtain ⟨hpower, hroom, hleast⟩ := capacity_withSize_spec size
  rw [← hcapacity] at hpower hroom hleast hlookup
  refine ⟨hpower, hroom, hleast, lineOf_eq _, fun a => ?_, hlookup, fun a raw hhit => ?_,
    fun a b raw hline => ?_⟩
  · obtain ⟨k, hk⟩ := hpower
    rw [lineOf_eq, lineAmong, hk, Nat.and_two_pow_sub_one_eq_mod]
  · -- An insertion at `a` is one in its line, so nothing was stored there since.
    refine ((hlookup a raw).1 hhit).mono fun command hcommand => ?_
    obtain ⟨other, rfl⟩ := hcommand
    rfl
  · rw [perform, lookup_insert (by omega), lineOf_eq, lineOf_eq, if_neg (Ne.symm hline)]

end EntryCache

end OutOfOrder.Paging
