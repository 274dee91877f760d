import OutOfOrder.Core.State

/-!
# Admission

A micro-operation is admitted in program order or refused. The reasons to
refuse it are tried in a fixed order and the first is reported; a refusal
hands the operation back as it was and changes nothing of the core.

An admitted operation takes its register, learns which operations it waits
for, and only then becomes the latest writer of its own destinations: an
operation that reads the register it writes waits for the writer before it.
-/

namespace OutOfOrder.Core

variable {W : Type} [Surroundings W]

/-- The core's own reasons to refuse an operation: it lies behind the replay
point of a drain, the buffers are full but for the spare place, or no register
is left. -/
def refusal? (c : Core W) (op : MicroOp) : Option StallCause :=
  if c.recovery.recovering && c.recovery.replayPoint < op.id then some .replays
  else if c.config.maxRobSize - 1 ≤ c.occupancy then some .smallRob
  else if c.freeRegs ≤ 0 then some .smallReg
  else none

/-- A load admitted now has to guess past an operation in the reorder
buffer. -/
def hasUnresolved (c : Core W) : Bool :=
  c.rob.toList.any fun h => (c.pool.get? h).any MicroOp.isUnresolved

/-- Whether an operation takes a register when it is admitted. -/
def takesRegister (c : Core W) (op : MicroOp) : Bool :=
  op.inst.writesRegister && !c.config.lateAlloc

/-- The operation as it enters the pool: holding its register, classified if
it is a load, and stamped with the clock. -/
def stamp (c : Core W) (op : MicroOp) : MicroOp :=
  { op with
    holdsRegister := op.holdsRegister || c.takesRegister op
    speculative := if op.inst.opcode.isLoad then c.hasUnresolved else op.speculative
    safe := if op.inst.opcode.isLoad then !c.hasUnresolved else op.safe
    renamedAt := c.clock }

/-- The counters after an admission. -/
def statsAdmitting (c : Core W) (op : MicroOp) : Counters :=
  let stats :=
    if op.inst.opcode.isLoad then c.stats.countLoad c.hasUnresolved op.sampled else c.stats
  stats.countAdmission op.inst.opcode op.sampled

/-- The operation as the cluster gets it: waiting for the latest writers of its
sources. -/
def link (aliases : AliasTable) (op : MicroOp) : MicroOp :=
  { op with
    edges.src1 := op.inst.src1.bind aliases.producer
    edges.src2 := if op.lateSrc2 then op.edges.src2 else op.inst.src2.bind aliases.producer
    stage := .renamed }

/-- Takes an operation into the pool and the reorder buffer, applying the
serialization in force. -/
def enter (c : Core W) (op : MicroOp) : Handle × Core W :=
  let (h, pool) := c.pool.insert (c.stamp op)
  let (serializer, pool) := c.serializer.apply pool h c.recovery.recovering
  (h, { c with
    stats := c.statsAdmitting op
    freeRegs := if c.takesRegister op then c.freeRegs - 1 else c.freeRegs
    pool
    serializer
    rob := c.rob.push h })

/-- Admits an operation that nothing keeps out: it enters the pool, is linked to
the latest writers of its sources, goes to the cluster, and becomes the latest
writer of its destinations. -/
def admitOp (c : Core W) (op : MicroOp) : Admission × Core W :=
  let (h, c) := c.enter op
  let linked := link c.aliases ((c.pool.get? h).getD op)
  ({ handle := h, op := linked, offered := op }, { c with
    pool := c.pool.modify h fun _ => linked
    world := Cluster.accept c.world linked
    aliases := c.aliases.setAll linked.inst.dsts h })

/-- Admits an operation and names it, or refuses it. -/
def add (c : Core W) (op : MicroOp) : Except Stall Admission × Core W :=
  match c.refusal? op with
  | some cause => (.error ⟨cause, op⟩, c)
  | none =>
    match Cluster.hazard? c.world op with
    | (some cause, world) => (.error ⟨cause, op⟩, { c with world })
    | (none, world) =>
      let (admitted, c) := { c with world }.admitOp op
      (.ok admitted, c)

end OutOfOrder.Core
