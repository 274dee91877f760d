import OutOfOrder.Proofs.Core.Consistency

/-!
# Looking is as good as taking out

There are two ways to offer the next operation of the instruction queue. Dispatch looks at it
and keeps the queue that it looked at if the operation is refused. It could also take the
operation out before it offers it, its bucket going with it if nothing else is in there, and
put it back to the front when it is refused.

The two come to the same as long as there are no empty buckets, since those would be lost on
the way. No core that can be reached has one in its queue.
-/

namespace OutOfOrder

namespace InstructionQueue

/-- Whether nothing is left of its bucket when the next operation leaves. -/
def endsBucket (q : InstructionQueue) : Bool :=
  match q.buckets.dropWhile List.isEmpty with
  | [_] :: _ => true
  | _ => false

/-- Puts an operation to the front, into the oldest bucket or into one of its own. -/
def putBack (q : InstructionQueue) (op : MicroOp) (alone : Bool) : InstructionQueue where
  buckets := if alone then [op] :: q.buckets else q.buckets.modifyHead (op :: ·)
  held := q.held + 1

theorem WellFormed.putBack_next? {q rest : InstructionQueue} {op : MicroOp} (hq : q.WellFormed)
    (h : q.next? = some (op, rest)) : rest.putBack op q.endsBucket = q := by
  have hheld := (hq.next? h).2
  obtain ⟨buckets, held⟩ := q
  cases buckets with
  | nil => cases h
  | cons bucket buckets =>
      cases bucket with
      | nil => exact absurd rfl (hq.nonempty [] List.mem_cons_self)
      | cons first ops =>
          cases ops <;>
          · obtain ⟨rfl, rfl⟩ := Prod.mk.inj (Option.some.inj h)
            exact congrArg (InstructionQueue.mk _) hheld.symm

end InstructionQueue

namespace Core

variable {W : Type} [Surroundings W] {c d : Core W}

/-- Dispatch with operations that are out of the queue while they are offered. -/
def takeUpTo : Nat → Core W → Dispatched × Core W
  | 0, c => ({}, c)
  | width + 1, c =>
    match c.queue.next? with
    | none => ({}, c)
    | some (op, queue) =>
      match { c with queue }.add op with
      | (.error stall, d) =>
        let queue := d.queue.putBack stall.op c.queue.endsBucket
        ({ refused := some stall }, { d with queue })
      | (.ok admission, d) =>
        let (rest, d) := takeUpTo width d
        ({ rest with admitted := admission :: rest.admitted }, d)

/-- An offer neither looks at the queue nor changes it. -/
theorem add_withQueue (c : Core W) (op : MicroOp) (queue : InstructionQueue) :
    { c with queue }.add op = ((c.add op).1, { (c.add op).2 with queue }) := by
  have hrefusal : { c with queue }.refusal? op = c.refusal? op := rfl
  unfold add
  rw [hrefusal]
  cases c.refusal? op with
  | some cause => rfl
  | none =>
      dsimp only
      cases Cluster.hazard? c.world op with
      | mk answer world => cases answer <;> rfl

theorem queue_add_of_error {op : MicroOp} {stall : Stall} (h : c.add op = (.error stall, d)) :
    stall.op = op ∧ d.queue = c.queue := by
  rcases add_cases c op with ⟨_, -, heq⟩ | ⟨_, _, -, -, heq⟩ | ⟨_, -, -, heq⟩ <;>
    rw [heq] at h <;> cases h
  · exact ⟨rfl, rfl⟩
  · exact ⟨rfl, rfl⟩

theorem takeUpTo_eq {width : Nat} (hq : c.queue.WellFormed) :
    takeUpTo width c = dispatchUpTo width c := by
  induction width generalizing c with
  | zero => rfl
  | succ width ih =>
      rw [takeUpTo, dispatchUpTo]
      cases hnext : c.queue.next? with
      | none => rfl
      | some next =>
          obtain ⟨op, queue⟩ := next
          dsimp only
          rw [add_withQueue]
          cases hadd : c.add op with
          | mk result d =>
              cases result with
              | error stall =>
                  obtain ⟨rfl, hqueue⟩ := queue_add_of_error hadd
                  dsimp only
                  rw [hq.putBack_next? hnext, ← hqueue]
              | ok admission =>
                  dsimp only
                  rw [ih (hq.next? hnext).1]

/-! ## No bucket in the queue is empty -/

theorem queue_commit (c : Core W) (h : Handle) (op : MicroOp) :
    (c.commit h op).queue = c.queue := by
  rw [commit, settle]
  split <;> rfl

theorem wellFormed_queue_step {event : Option Event} (h : Step c event d)
    (hq : c.queue.WellFormed) : d.queue.WellFormed := by
  cases h with
  | accept _ _ hqueue =>
      rcases hqueue with rfl | hnext
      · exact hq
      · exact (hq.next? hnext).1
  | decode =>
      unfold decode
      split
      · exact hq
      · split
        · exact hq.push (List.cons_ne_nil _ _)
        · exact hq
  | executing h =>
      rw [executing_eq]
      exact hq
  | executed h =>
      rcases executed_cases c h with ⟨-, heq⟩ | ⟨_, -, heq⟩ <;> rw [heq] <;> exact hq
  | performed h =>
      rcases performed_cases c h with ⟨_, -, -, heq⟩ | ⟨-, heq⟩ <;> rw [heq] <;> exact hq
  | replay h =>
      obtain ⟨_, _, _, heq | heq⟩ := replay_eq c h <;> rw [heq] <;> exact hq
  | fetch =>
      obtain ⟨_, _, _, heq⟩ := fetch_eq c
      rw [heq]
      exact hq
  | tick =>
      obtain ⟨_, _, _, _, heq⟩ := tick_eq c
      rw [heq]
      exact hq
  | commit =>
      rw [queue_commit]
      exact hq
  | _ => exact hq

theorem wellFormed_queue_steps {events : List Event} (h : Steps c events d)
    (hq : c.queue.WellFormed) : d.queue.WellFormed :=
  h.keeps (P := fun _ e => e.queue.WellFormed)
    (fun hpast hstep => wellFormed_queue_step hstep hpast) hq

theorem Reachable.wellFormed_queue (h : c.Reachable) : c.queue.WellFormed := by
  obtain ⟨config, hart, start, commands, world, hstart, rfl⟩ := h
  obtain ⟨-, rfl⟩ := create_eq hstart
  exact wellFormed_queue_steps (steps_run _ commands) InstructionQueue.wellFormed_empty

end Core

end OutOfOrder
