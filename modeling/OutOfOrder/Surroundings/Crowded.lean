import OutOfOrder.Surroundings.Obliging

/-!
# Surroundings with a crowded cluster

As obliging as they come, but for the scheduling window: it has room for so many operations and
none for more. A refusal is all that an operation meets that comes too late; the room is
counted when an operation is accepted.
-/

namespace OutOfOrder

structure Crowded extends Obliging where
  /-- Operations that the scheduling window can still take. -/
  room : Nat

instance : Surroundings Crowded where
  isBlocked w hart := FrontEnd.isBlocked w.toObliging hart
  fetch w hart := ((FrontEnd.fetch w.toObliging hart).1, w)
  nextBucket w :=
    let (bucket, front) := FrontEnd.nextBucket w.toObliging
    (bucket, { w with toObliging := front })
  hasOutstanding w := FrontEnd.hasOutstanding w.toObliging
  inFlight w := FrontEnd.inFlight w.toObliging
  hazard? w _ := (if w.room = 0 then some .smallWindow else none, w)
  accept w _ := { w with room := w.room - 1 }
  mayPromote w op flushing := ((Cluster.mayPromote w.toObliging op flushing).1, w)
  mayCommit w _ _ := (true, w)
  resync w _ := w
  reexecute w _ := w
  release w _ := w

end OutOfOrder
