import OutOfOrder.Surroundings.Basic

/-!
# Surroundings that stand in nobody's way

The front end has a list of buckets to deliver, the cluster takes everything and
lets go whatever has executed, and the emulator keeps no account. They are the
simplest surroundings in which operations pass through a core, and what the
laws about all surroundings are tried on.
-/

namespace OutOfOrder

structure Obliging where
  /-- The buckets that are still to come, oldest first. -/
  buckets : List (List MicroOp) := []

instance : Surroundings Obliging where
  isBlocked _ _ := false
  fetch w _ := ((w.buckets.head?.map List.length).getD 0, w)
  nextBucket w := (w.buckets.head?, { buckets := w.buckets.tail })
  hasOutstanding w := !w.buckets.isEmpty
  inFlight w := w.buckets.flatten.length
  hazard? w _ := (none, w)
  accept w _ := w
  mayPromote w op _ := (op.isExecuted, w)
  mayCommit w _ _ := (true, w)
  resync w _ := w
  reexecute w _ := w
  release w _ := w

end OutOfOrder
