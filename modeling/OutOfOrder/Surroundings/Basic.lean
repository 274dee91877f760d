import OutOfOrder.Stall

/-!
# What surrounds a core

A core renames, orders, recovers and commits. Fetching, executing and emulating
are done by others, and the core only ever talks to them through the questions
of this file. Their state is one value of a type `W`; a question that may
change it returns the changed value next to its answer, and a question that
only looks returns the answer alone. What the front end makes of having been
looked at is `noticed`, and a core looks by the functions that do both.

Nothing is assumed about the answers. What has to be assumed for a particular
law is a hypothesis of that law.
-/

namespace OutOfOrder

/-- The questions to the front end that only look. -/
inductive Look
  | isBlocked (hart : Nat)
  | hasOutstanding
  | inFlight
  deriving DecidableEq

/-- The front end fetches, predicts and delivers decoded buckets in program
order. -/
class FrontEnd (W : Type) where
  /-- Whether fetch for a hart waits, for instance on a branch. -/
  isBlocked : W → Nat → Bool
  fetch : W → Nat → Nat × W
  nextBucket : W → Option (List MicroOp) × W
  hasOutstanding : W → Bool
  inFlight : W → Nat
  /-- Takes note of a look. Most front ends do not. -/
  noticed : W → Look → W := fun w _ => w

namespace FrontEnd

variable {W : Type} [FrontEnd W] (w : W)

/-- Looks whether fetch for a hart waits. -/
def askBlocked (hart : Nat) : Bool × W := (isBlocked w hart, noticed w (.isBlocked hart))

/-- Looks whether there is more to come. -/
def askOutstanding : Bool × W := (hasOutstanding w, noticed w .hasOutstanding)

/-- Looks how many operations are between fetch and decode. -/
def askInFlight : Nat × W := (inFlight w, noticed w .inFlight)

end FrontEnd

/-- The cluster executes, and grants or refuses what needs its resources. -/
class Cluster (W : Type) where
  /-- The structural hazard that keeps an operation out, if there is one. -/
  hazard? : W → MicroOp → Option StallCause × W
  /-- Takes a dispatched operation into the scheduling window. -/
  accept : W → MicroOp → W
  /-- Whether the oldest operation of the reorder buffer may move on; the flag
  says whether the core is flushing. -/
  mayPromote : W → MicroOp → Bool → Bool × W
  /-- Whether an operation may commit; the flag is as for `mayPromote`. -/
  mayCommit : W → MicroOp → Bool → Bool × W

/-- The emulator owns the architectural stream and takes operations back. -/
class Emulator (W : Type) where
  /-- Brings the stream of a hart back in step after a drain. -/
  resync : W → Nat → W
  /-- Re-executes the tail of a hart, asked for when an operation commits
  before its memory effect is complete. -/
  reexecute : W → Nat → W
  release : W → MicroOp → W

/-- Everything around a core. -/
class Surroundings (W : Type) extends FrontEnd W, Cluster W, Emulator W

end OutOfOrder
