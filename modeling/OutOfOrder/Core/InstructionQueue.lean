import OutOfOrder.MicroOp

/-!
# The queue between decode and rename

Decoded buckets wait here, oldest first, and are emptied from the front one
operation at a time. A bucket that is used up leaves at once, so no bucket in
the queue is ever empty. How many operations wait is counted along the way.

Looking at the next operation does not remove it: whoever cannot place it
simply keeps the queue that it looked at.
-/

namespace OutOfOrder

structure InstructionQueue where
  buckets : List (List MicroOp) := []
  /-- How many operations the buckets hold together. -/
  held : Nat := 0

namespace InstructionQueue

/-- The operations that wait, oldest first. -/
def toList (q : InstructionQueue) : List MicroOp := q.buckets.flatten

def isEmpty (q : InstructionQueue) : Bool := q.buckets.isEmpty

/-- Adds a bucket behind the others. -/
def push (q : InstructionQueue) (bucket : List MicroOp) : InstructionQueue where
  buckets := q.buckets ++ [bucket]
  held := q.held + bucket.length

/-- The oldest operation, and the queue without it. -/
def next? (q : InstructionQueue) : Option (MicroOp × InstructionQueue) :=
  match q.buckets.dropWhile List.isEmpty with
  | (op :: rest) :: buckets =>
    some (op,
      { buckets := if rest.isEmpty then buckets else rest :: buckets
        held := q.held - 1 })
  | _ => none

@[simp]
theorem toList_push (q : InstructionQueue) (bucket : List MicroOp) :
    (q.push bucket).toList = q.toList ++ bucket := by
  simp [push, toList]

/-- The next operation is the oldest that waits, and the others stay in
order. -/
theorem toList_of_next? {q rest : InstructionQueue} {op : MicroOp}
    (h : q.next? = some (op, rest)) : q.toList = op :: rest.toList := by
  have hdrop : q.toList = (q.buckets.dropWhile List.isEmpty).flatten := by
    rw [toList]
    induction q.buckets with
    | nil => rfl
    | cons bucket buckets ih =>
      cases bucket with
      | nil => simpa using ih
      | cons op ops => simp
  rw [next?] at h
  rw [hdrop]
  split at h
  · next op' ops buckets heq =>
    simp only [Option.some.injEq, Prod.mk.injEq] at h
    obtain ⟨rfl, rfl⟩ := h
    rw [heq]
    cases ops <;> simp [toList]
  · simp at h

/-- The count is right and no bucket is empty. -/
structure WellFormed (q : InstructionQueue) : Prop where
  held_eq : q.held = q.toList.length
  nonempty : ∀ bucket ∈ q.buckets, bucket ≠ []

theorem wellFormed_empty : WellFormed {} where
  held_eq := rfl
  nonempty := nofun

theorem WellFormed.push {q : InstructionQueue} (hq : q.WellFormed) {bucket : List MicroOp}
    (hbucket : bucket ≠ []) : (q.push bucket).WellFormed where
  held_eq := by
    rw [toList_push, List.length_append, ← hq.held_eq]
    rfl
  nonempty := by
    intro b hb
    rcases List.mem_append.1 hb with hb | hb
    · exact hq.nonempty b hb
    · rw [List.mem_singleton.1 hb]
      exact hbucket

/-- Taking an operation out keeps the queue well formed, and the count does not
stop at zero: it was positive. -/
theorem WellFormed.next? {q rest : InstructionQueue} {op : MicroOp} (hq : q.WellFormed)
    (h : q.next? = some (op, rest)) : rest.WellFormed ∧ q.held = rest.held + 1 := by
  have hlength : q.held = rest.toList.length + 1 := by
    rw [hq.held_eq, toList_of_next? h, List.length_cons]
  have hheld : rest.held = q.held - 1 ∧ ∀ bucket ∈ rest.buckets, bucket ≠ [] := by
    rw [InstructionQueue.next?] at h
    split at h
    · next first ops buckets heq =>
        have hsuffix : ∀ bucket ∈ buckets, bucket ≠ [] := fun bucket hbucket =>
          hq.nonempty bucket ((List.dropWhile_sublist _).mem
            (heq ▸ List.mem_cons_of_mem _ hbucket))
        simp only [Option.some.injEq, Prod.mk.injEq] at h
        obtain ⟨-, rfl⟩ := h
        refine ⟨rfl, fun bucket hbucket => ?_⟩
        cases ops with
        | nil => exact hsuffix bucket hbucket
        | cons op ops =>
            rcases List.mem_cons.1 hbucket with rfl | hbucket
            · exact List.cons_ne_nil op ops
            · exact hsuffix bucket hbucket
    · cases h
  exact ⟨⟨by omega, hheld.2⟩, by omega⟩

end InstructionQueue

end OutOfOrder
