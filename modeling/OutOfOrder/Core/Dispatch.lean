import OutOfOrder.Core.Admission

/-!
# Dispatch from the instruction queue

A cycle admits operations from the front of the queue, up to the issue width,
and stops at the first that is refused. That one stays at the front. The slots
of the cycle that were not used are charged to the cause.
-/

namespace OutOfOrder.Core

variable {W : Type} [Surroundings W]

/-- What a cycle's dispatch did: the admitted operations in order, and the
refusal that ended it early. -/
structure Dispatched where
  admitted : List Admission := []
  refused : Option Stall := none

/-- Admits up to a number of operations from the queue. -/
def dispatchUpTo : Nat → Core W → Dispatched × Core W
  | 0, c => ({}, c)
  | width + 1, c =>
    match c.queue.next? with
    | none => ({}, c)
    | some (op, queue) =>
      match c.add op with
      | (.error stall, c) => ({ refused := some stall }, c)
      | (.ok admission, c) =>
        let (rest, c) := dispatchUpTo width { c with queue }
        ({ rest with admitted := admission :: rest.admitted }, c)

/-- Charges the slots that a dispatch left unused to the refusal that ended
it. -/
def chargeUnused (c : Core W) (d : Dispatched) : Core W :=
  match d.refused with
  | none => c
  | some stall =>
    let unused := c.config.realisticWidth - d.admitted.length
    { c with stats := c.stats.chargeStall stall.cause unused stall.op.sampled }

/-- The dispatch of a cycle. -/
def dispatch (c : Core W) : List Admission × Core W :=
  let (d, c) := c.dispatchUpTo c.config.issueWidth
  (d.admitted, c.chargeUnused d)

end OutOfOrder.Core
