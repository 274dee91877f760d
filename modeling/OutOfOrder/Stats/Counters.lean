import OutOfOrder.Stall
import OutOfOrder.Stats.Average

/-!
# The counters of a core

Every update carries the flag of the operation or of the core that causes it,
and an update outside a sampling window changes nothing.
-/

namespace OutOfOrder

structure Counters where
  /-- Cycles in which the core was active. -/
  clockTicks : Nat := 0
  /-- Commits, those made while flushing excepted. -/
  committed : Nat := 0
  /-- Issue slots lost to each cause. -/
  stalls : Vector Nat 8 := Vector.replicate 8 0
  admitted : Vector Nat 10 := Vector.replicate 10 0
  /-- Cycles without room for another bucket in the instruction queue. -/
  queueFull : Nat := 0
  /-- Cycles with room for a bucket but no bucket. -/
  bucketMissing : Nat := 0
  replays : Nat := 0
  /-- Loads admitted behind something unresolved. -/
  specLoads : Nat := 0
  /-- Loads admitted behind nothing unresolved. -/
  safeLoads : Nat := 0
  robUsed : Average := {}
  retiringUsed : Average := {}
  bucketSize : Average := {}
  /-- Instructions in flight when a recovery starts. -/
  replayWaste : Average := {}

namespace Counters

def stall (s : Counters) (cause : StallCause) : Nat := s.stalls[cause.index]

def admittedOf (s : Counters) (opcode : Opcode) : Nat := s.admitted[opcode.index]

/-- Charges lost issue slots to a cause. -/
def chargeStall (s : Counters) (cause : StallCause) (slots : Nat) (enabled : Bool) :
    Counters :=
  if enabled then
    { s with stalls := s.stalls.set cause.index (s.stall cause + slots) }
  else s

def countAdmission (s : Counters) (opcode : Opcode) (enabled : Bool) : Counters :=
  if enabled then
    { s with admitted := s.admitted.set opcode.index (s.admittedOf opcode + 1) }
  else s

def countLoad (s : Counters) (speculative enabled : Bool) : Counters :=
  if !enabled then s
  else if speculative then { s with specLoads := s.specLoads + 1 }
  else { s with safeLoads := s.safeLoads + 1 }

def countTick (s : Counters) (enabled : Bool) : Counters :=
  if enabled then { s with clockTicks := s.clockTicks + 1 } else s

def countCommit (s : Counters) (enabled : Bool) : Counters :=
  if enabled then { s with committed := s.committed + 1 } else s

def countFull (s : Counters) (enabled : Bool) : Counters :=
  if enabled then { s with queueFull := s.queueFull + 1 } else s

def countMissing (s : Counters) (enabled : Bool) : Counters :=
  if enabled then { s with bucketMissing := s.bucketMissing + 1 } else s

/-- Counts a recovery that starts with `wasted` instructions in flight. -/
def countReplay (s : Counters) (wasted : Nat) (enabled : Bool) : Counters :=
  { s with
    replays := if enabled then s.replays + 1 else s.replays
    replayWaste := s.replayWaste.sample (Float.ofNat wasted) enabled }

def sampleFetch (s : Counters) (count : Nat) (enabled : Bool) : Counters :=
  { s with bucketSize := s.bucketSize.sample (Float.ofNat count) enabled }

def sampleBuffers (s : Counters) (rob retiring : Nat) (enabled : Bool) : Counters :=
  { s with
    robUsed := s.robUsed.sample (Float.ofNat rob) enabled
    retiringUsed := s.retiringUsed.sample (Float.ofNat retiring) enabled }

/-- Commits per cycle; 0 before the first cycle. -/
def ipc (s : Counters) : Float :=
  if s.clockTicks = 0 then 0 else Float.ofNat s.committed / Float.ofNat s.clockTicks

end Counters

end OutOfOrder
