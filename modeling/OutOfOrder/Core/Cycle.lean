import OutOfOrder.Core.Commit
import OutOfOrder.Core.Dispatch
import OutOfOrder.Core.Recovery

/-!
# A cycle of the core

A cycle of an active core fetches, moves the clock, and then, if there is
anything to do, decodes, dispatches and retires. While the core drains it only
decodes and retires, and the cycle that finds it drained ends the recovery and
goes on as usual.

The report of a cycle says whether work is in flight, whether a recovery ended,
and names what was admitted and what committed.
-/

namespace OutOfOrder.Core

variable {W : Type} [Surroundings W]

/-- What a cycle did. -/
structure CycleReport where
  /-- Whether the core still has work in flight. -/
  running : Bool := false
  /-- Whether the cycle found a recovery drained and ended it. -/
  recovered : Bool := false
  admitted : List Admission := []
  committed : List NamedOp := []

/-- Asks the front end for a bucket. A blocked front end keeps the core busy,
so that what blocks it can move. -/
def fetch (c : Core W) : Core W :=
  let (blocked, world) := FrontEnd.askBlocked c.world c.hart
  if blocked then { c with world, busy := true }
  else
    let (count, world) := FrontEnd.fetch world c.hart
    if count = 0 then { c with world }
    else { c with world, busy := true, stats := c.stats.sampleFetch count c.sampling }

/-- Whether the core samples: as its oldest operation does, or as before if
there is none. -/
def nextSampling (c : Core W) : Bool :=
  match c.rob.top?.bind c.pool.get? with
  | some op => op.sampled
  | none => c.sampling

/-- Moves the clock, and looks for a lock when an interval is over. -/
def tick (c : Core W) : Core W :=
  let sampling := c.nextSampling
  let c := { c with
    sampling
    clock := c.clock + 1
    stats := c.stats.countTick sampling }
  if c.clock % c.config.lockCheckInterval = 0 then c.checkLock else c

/-- Takes a decoded bucket into the instruction queue if a full one fits. -/
def decode (c : Core W) : Core W :=
  if c.queueSpace < c.config.fetchWidth then
    { c with stats := c.stats.countFull c.sampling }
  else
    match FrontEnd.nextBucket c.world with
    | (some (op :: ops), world) => { c with world, queue := c.queue.push (op :: ops) }
    | (_, world) => { c with world, stats := c.stats.countMissing c.sampling }

/-- A cycle that drains: all its slots are lost to the replay, and it only
retires. -/
def drainCycle (c : Core W) : CycleReport × Core W :=
  let c := { c with
    stats := c.stats.chargeStall .replays c.config.realisticWidth c.sampling }
  let (committed, c) := c.retire
  ({ running := true, committed }, c)

/-- A cycle that dispatches and retires. With nothing to dispatch and nothing
to retire the core stays busy only if the front end has more to come. -/
def workCycle (c : Core W) : CycleReport × Core W :=
  if !c.queue.isEmpty then
    let (admitted, c) := c.dispatch
    let (committed, c) := c.retire
    ({ running := true, admitted, committed }, c)
  else if c.isDrained then
    let (outstanding, world) := FrontEnd.askOutstanding c.world
    ({ running := true }, { c with world, busy := outstanding })
  else
    let (committed, c) := c.retire
    ({ running := true, committed }, c)

/-- What a busy core does in a cycle once the clock has moved. -/
def busyCycle (c : Core W) : CycleReport × Core W :=
  let c := c.decode
  if !c.recovery.recovering then c.workCycle
  else if c.isDrained then
    let (report, c) := c.finishRecovery.workCycle
    ({ report with recovered := true }, c)
  else c.drainCycle

/-- Advances the core by one cycle. A core that is not active stands still. -/
def advance (c : Core W) : CycleReport × Core W :=
  if !c.active then ({}, c)
  else
    let c := c.fetch.tick
    if c.busy then c.busyCycle else ({}, c)

end OutOfOrder.Core
