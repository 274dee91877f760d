import OutOfOrder.Core.State

/-!
# Replay and recovery

A replay request marks the operation that violated the memory order and makes
the core drain: nothing behind the replay point is admitted until both buffers
are empty. How far apart replays are then decides how strictly memory
operations are serialized: far apart relaxes, close together tightens and arms
the budget, and anything between leaves both alone.

While a budget is armed requests are not heard, so that replays cannot feed on
themselves.
-/

namespace OutOfOrder

/-- Identifiers are at most this, and sums that are compared with one stop
here. -/
def maxId : Nat := UInt64.size - 1

namespace Core

variable {W : Type}

/-- Requests a replay from the operation that `h` names. A request during a
drain only raises the replay point. -/
def replay [FrontEnd W] (c : Core W) (h : Handle) : Core W :=
  if c.serializer.budget != 0 || !c.config.memoryReplay then c
  else
    match c.pool.get? h with
    | none => c
    | some op =>
      let point := max c.recovery.replayPoint h.id
      let c := { c with
        pool := c.pool.modify h fun op => { op with replayed := true }
        recovery.replayPoint := point }
      if c.recovery.recovering then c
      else
        let (inFlight, world) := FrontEnd.askInFlight c.world
        let wasted := c.queue.held + inFlight + c.rob.size
        { c with
          world
          recovery.recovering := true
          stats := c.stats.countReplay wasted op.sampled }

/-- The serializer after a recovery at `point` that follows one at `last`. -/
def adapt (config : CoreConfig) (last point : Nat) (s : Serializer) : Serializer :=
  let s := if min (last + 2 * config.progressThreshold) maxId < point then s.relax else s
  if point < min (last + config.progressThreshold) maxId then
    s.tighten.arm config.serialize
  else s

/-- Ends a recovery that has drained. -/
def finishRecovery [Emulator W] (c : Core W) : Core W :=
  { c with
    world := Emulator.resync c.world c.recovery.flushingHart
    serializer := adapt c.config c.recovery.lastReplay c.recovery.replayPoint c.serializer
    recovery := { c.recovery with
      recovering := false
      flushing := false
      lastReplay := c.recovery.replayPoint } }

end Core

end OutOfOrder
