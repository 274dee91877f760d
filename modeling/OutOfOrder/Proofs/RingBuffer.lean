import OutOfOrder.RingBuffer.Lemmas

/-!
# A ring is a bounded queue

A queue with room for so many entries is a list: an entry is appended if there is room, and
the first one is taken out if there is one. `Fifo` is this queue, and it knows nothing of
indices. Whatever is pushed and popped, a ring gives the answers that the queue gives, and
looked at from any side it shows the entries that are queued.

A ring that is empty and one that is full have the same indices, and both commands divide by
the number of slots. The guards on the count keep the two apart and keep a ring without
slots from being divided by: `InRange` says that whatever is behind a guard is a slot of the
ring.
-/

namespace OutOfOrder

/-- What can be done to a bounded queue, however it is stored. -/
inductive QueueCommand (α : Type)
  | push (a : α)
  | pop

/-- What comes back: whether an entry was taken in, or the entry that was taken out. -/
inductive QueueAnswer (α : Type)
  | pushed (accepted : Bool)
  | popped (entry : Option α)

variable {α : Type}

namespace Fifo

/-- A queue with room for `capacity` entries, as the list of its entries, oldest first. -/
def perform (capacity : Nat) (q : List α) : QueueCommand α → QueueAnswer α × List α
  | .push a =>
    if q.length < capacity then (.pushed true, q ++ [a]) else (.pushed false, q)
  | .pop => (.popped q.head?, q.tail)

/-- Carries out commands one after the other and collects the answers. -/
def run (capacity : Nat) (q : List α) : List (QueueCommand α) → List (QueueAnswer α) × List α
  | [] => ([], q)
  | command :: rest =>
    let (answer, q) := perform capacity q command
    let (others, q) := run capacity q rest
    (answer :: others, q)

end Fifo

namespace RingBuffer

def perform (r : RingBuffer α) : QueueCommand α → QueueAnswer α × RingBuffer α
  | .push a => (.pushed (r.push? a).isSome, r.push a)
  | .pop => (.popped r.top?, r.pop)

def run (r : RingBuffer α) : List (QueueCommand α) → List (QueueAnswer α) × RingBuffer α
  | [] => ([], r)
  | command :: rest =>
    let (answer, r) := r.perform command
    let (others, r) := r.run rest
    (answer :: others, r)

/-- Looked at from any side, the ring is the queue `q` with room for `room` entries. -/
structure Shows (r : RingBuffer α) (room : Nat) (q : List α) : Prop where
  bounded : q.length ≤ room
  capacity : r.capacity = room
  top : r.top? = q.head?
  get : ∀ k, r.get? k = q[k]?
  entries : r.toList = q
  size : r.size = q.length
  isEmpty : r.isEmpty = q.isEmpty
  isFull : r.isFull = decide (q.length = room)
  /-- A push that finds no room leaves the ring as it is, slots and indices included. -/
  refused : q.length = room → ∀ a, r.push a = r
  /-- So does a pop that finds nothing. -/
  exhausted : q = [] → r.pop = r

/-- Wherever a slot is read or written and an index is wrapped, there are slots, and the
index is one of theirs. -/
structure InRange (r : RingBuffer α) : Prop where
  /-- A push goes to the tail if the ring is not full. -/
  push : r.isFull = false → 0 < r.capacity ∧ r.tail < r.slots.size
  /-- A pop and a look at the top go to the head if the ring is not empty. -/
  top : r.isEmpty = false → 0 < r.capacity ∧ r.head < r.slots.size
  /-- A look at an entry goes to a slot that is taken, if there is that entry. -/
  get : ∀ k < r.count, 0 < r.capacity ∧
    ∃ a, r.slots[(r.head + k) % r.capacity]? = some (some a)

variable {r : RingBuffer α}

theorem isSome_push? (hr : r.WellFormed) (a : α) :
    (r.push? a).isSome = decide (r.toList.length < r.capacity) := by
  have hle := hr.count_le
  rw [length_toList hr, push?, isFull]
  by_cases hfull : r.count = r.capacity
  · simp [hfull, size]
  · have hroom : r.count < r.capacity := by omega
    simp [hfull, hroom, size]

theorem push_of_isFull (hfull : r.isFull) (a : α) : r.push a = r := by
  rw [push, push?_eq_none_iff.2 hfull, Option.getD_none]

/-- A well-formed ring shows the queue of its entries. -/
theorem WellFormed.shows (hr : r.WellFormed) : r.Shows r.capacity r.toList where
  bounded := by
    rw [length_toList hr]
    exact hr.count_le
  capacity := rfl
  top := top?_eq_head? hr
  get := fun k => (getElem?_toList hr k).symm
  entries := rfl
  size := (length_toList hr).symm
  isEmpty := by
    rw [Bool.eq_iff_iff, isEmpty_iff hr, List.isEmpty_iff]
  isFull := by
    rw [length_toList hr]
    rfl
  refused := by
    intro hfull a
    rw [length_toList hr] at hfull
    exact push_of_isFull (beq_iff_eq.2 hfull) a
  exhausted := by
    intro hnil
    rw [pop, if_pos ((isEmpty_iff hr).2 hnil)]

theorem WellFormed.inRange (hr : r.WellFormed) : r.InRange where
  push := by
    intro hroom
    have hle := hr.count_le
    have hne : r.count ≠ r.capacity := by simpa [isFull] using hroom
    have hpos : 0 < r.capacity := by omega
    refine ⟨hpos, ?_⟩
    rw [hr.tail_eq hpos]
    exact Nat.mod_lt _ hpos
  top := by
    intro hany
    have hle := hr.count_le
    have hne : r.count ≠ 0 := by simpa [isEmpty] using hany
    exact ⟨by omega, hr.head_lt (by omega)⟩
  get := by
    intro k hk
    have hle := hr.count_le
    obtain ⟨a, ha⟩ := Option.isSome_iff_exists.1 (hr.filled k hk)
    exact ⟨by omega, a, Option.join_eq_some_iff.1 ha⟩

theorem wellFormed_perform (hr : r.WellFormed) (command : QueueCommand α) :
    (r.perform command).2.WellFormed := by
  cases command with
  | push a => exact wellFormed_push hr a
  | pop => exact wellFormed_pop hr

theorem capacity_perform (hr : r.WellFormed) (command : QueueCommand α) :
    (r.perform command).2.capacity = r.capacity := by
  cases command with
  | push a => exact capacity_push r a
  | pop => exact capacity_pop hr

/-- One command does to the entries what it does to the queue, and answers alike. -/
theorem perform_eq_fifo (hr : r.WellFormed) (command : QueueCommand α) :
    ((r.perform command).1, (r.perform command).2.toList) =
      Fifo.perform r.capacity r.toList command := by
  cases command with
  | pop => rw [perform, Fifo.perform, top?_eq_head? hr, toList_pop hr]
  | push a =>
      have hlength := length_toList hr
      rw [perform, Fifo.perform, isSome_push? hr]
      by_cases hroom : r.toList.length < r.capacity
      · rw [if_pos hroom, toList_push hr a (by omega), decide_eq_true hroom]
      · have hfull : r.toList.length = r.capacity := by
          have hle := hr.shows.bounded
          omega
        rw [if_neg hroom, hr.shows.refused hfull, decide_eq_false hroom]

theorem run_eq_fifo (hr : r.WellFormed) (commands : List (QueueCommand α)) :
    (r.run commands).2.WellFormed ∧ (r.run commands).2.capacity = r.capacity ∧
      ((r.run commands).1, (r.run commands).2.toList) =
        Fifo.run r.capacity r.toList commands := by
  induction commands generalizing r with
  | nil => exact ⟨hr, rfl, rfl⟩
  | cons command rest ih =>
      have hcapacity := capacity_perform hr command
      obtain ⟨hwell, hsame, hrest⟩ := ih (wellFormed_perform hr command)
      have hfirst := perform_eq_fifo hr command
      rw [hcapacity] at hsame hrest
      refine ⟨hwell, hsame, ?_⟩
      rw [Fifo.run, ← hfirst]
      dsimp only
      rw [← hrest]
      rfl

/-- **A ring is a bounded queue.** Whatever its capacity, and whatever is pushed and popped,
it answers as the queue does and shows what the queue holds, and it never leaves its slots. -/
theorem run_refines_fifo (capacity : Nat) (commands : List (QueueCommand α)) :
    ((withCapacity capacity).run commands).1 = (Fifo.run capacity [] commands).1 ∧
      ((withCapacity capacity).run commands).2.Shows capacity
        (Fifo.run capacity [] commands).2 ∧
      ((withCapacity capacity).run commands).2.InRange := by
  obtain ⟨hwell, hcapacity, hrun⟩ :=
    run_eq_fifo (wellFormed_withCapacity (α := α) capacity) commands
  rw [capacity_withCapacity] at hcapacity hrun
  have hshows := hwell.shows
  rw [hcapacity] at hshows
  rw [toList_withCapacity] at hrun
  rw [← hrun]
  exact ⟨rfl, hshows, hwell.inRange⟩

/-- A ring of two slots, through more entries than it has slots. -/
example :
    let commands : List (QueueCommand Nat) :=
      [.push 1, .push 2, .push 3, .pop, .push 4, .pop, .pop, .pop, .push 5]
    ((withCapacity 2).run commands).2.toList = [5] := by decide

end RingBuffer

end OutOfOrder
