import OutOfOrder.Core.State

/-!
# Commit

Every cycle first promotes: operations leave the top of the reorder buffer for
the retiring buffer as long as the cluster lets them, without a limit on their
number. Then operations leave the top of the retiring buffer for good, up to
the retire width, and none before its delay has passed since it executed.

A committing operation gives back its register and is forgotten by the alias
table and the serializer. If its memory effect is complete it is released;
otherwise it stays in the pool, retired, until the effect is reported.
-/

namespace OutOfOrder.Core

variable {W : Type} [Surroundings W]

/-- Promotes up to a number of operations. -/
def promoteUpTo : Nat → Core W → Core W
  | 0, c => c
  | n + 1, c =>
    match c.rob.top? with
    | none => c
    | some h =>
      match c.pool.get? h with
      | none => promoteUpTo n { c with rob := c.rob.pop }
      | some op =>
        match Cluster.mayPromote c.world op c.recovery.flushing with
        | (false, world) => { c with world }
        | (true, world) =>
          promoteUpTo n { c with
            world
            rob := c.rob.pop
            retiring := c.retiring.push h }

/-- Promotes whatever the cluster lets go, and samples both buffers. -/
def promote (c : Core W) : Core W :=
  let c := c.promoteUpTo c.rob.size
  { c with stats := c.stats.sampleBuffers c.rob.size c.retiring.size c.sampling }

/-- The recovery after the commit of an operation: a replayed one starts the
flushing. -/
def recoveryCommitting (c : Core W) (op : MicroOp) : Recovery :=
  if op.replayed then { c.recovery with flushing := true, flushingHart := op.hart }
  else c.recovery

/-- Releases a committed operation, or keeps it as retired if its memory effect
is open. -/
def settle (c : Core W) (h : Handle) (op : MicroOp) : Core W :=
  if op.performed then
    { c with
      pool := c.pool.erase h
      world := Emulator.release c.world { op with holdsRegister := false } }
  else
    { c with
      pool := c.pool.modify h fun op => { op with holdsRegister := false, stage := .retired }
      world := Emulator.reexecute c.world op.hart }

/-- Commits the operation `op`, which `h` names and which tops the retiring
buffer. -/
def commit (c : Core W) (h : Handle) (op : MicroOp) : Core W :=
  let recovery := c.recoveryCommitting op
  { c with
    retiring := c.retiring.pop
    recovery
    stats := c.stats.countCommit (!recovery.flushing && op.sampled)
    lock.commits := c.lock.commits + 1
    freeRegs := if op.holdsRegister then c.freeRegs + 1 else c.freeRegs
    aliases := c.aliases.release op.inst.dsts h
    serializer := c.serializer.release h op.window }.settle h op

/-- Commits up to a number of operations and names them as they were. -/
def commitUpTo : Nat → Core W → List NamedOp × Core W
  | 0, c => ([], c)
  | n + 1, c =>
    match c.retiring.top? with
    | none => ([], c)
    | some h =>
      match c.pool.get? h with
      | none => commitUpTo n { c with retiring := c.retiring.pop }
      | some op =>
        if c.clock ≤ op.executedAt + c.config.retireDelay then ([], c)
        else
          match Cluster.mayCommit c.world op c.recovery.flushing with
          | (false, world) => ([], { c with world })
          | (true, world) =>
            let (committed, c) := commitUpTo n ({ c with world }.commit h op)
            (⟨h, op⟩ :: committed, c)

/-- Both phases of a cycle's retirement; names the operations that commit. -/
def retire (c : Core W) : List NamedOp × Core W :=
  c.promote.commitUpTo c.config.retireWidth

/-- What there is to see of retirement now. -/
def retireView (c : Core W) : RetireView where
  commits := c.lock.commits
  robTop := c.rob.top?.map Handle.id
  retiringTop := c.retiring.top?.map Handle.id

/-- Compares retirement with the last look at it: a lock is found if operations
wait and nothing has changed. -/
def checkLock (c : Core W) : Core W :=
  let view := c.retireView
  let waiting := view.robTop.isSome || view.retiringTop.isSome
  { c with lock := { c.lock with
      last := some view
      detected := c.lock.detected || (waiting && c.lock.last == some view) } }

end OutOfOrder.Core
