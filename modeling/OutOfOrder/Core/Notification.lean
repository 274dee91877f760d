import OutOfOrder.Core.State

/-!
# What the cluster reports

Execution happens elsewhere, and its progress is reported by handle: that an
operation was issued, that it executes, that it executed, and that its memory
effect is complete. Reports may come late, twice or for an operation that has
left; a handle that names nothing makes a report do nothing.
-/

namespace OutOfOrder.Core

variable {W : Type}

/-- The operation was issued. From here on nothing is ordered after it. -/
def issued (c : Core W) (h : Handle) : Core W :=
  { c with pool := c.pool.modify h fun op => { op with stage := op.stage.later .issued } }

/-- The operation executes. If registers are taken late, it takes its own
now. -/
def executing (c : Core W) (h : Handle) : Core W :=
  match c.pool.get? h with
  | none => c
  | some op =>
    let takes := c.config.lateAlloc && op.inst.writesRegister && !op.holdsRegister
    { c with
      pool := c.pool.modify h fun op => { op with
        stage := op.stage.later .executing
        holdsRegister := op.holdsRegister || takes }
      freeRegs := if takes then c.freeRegs - 1 else c.freeRegs }

/-- The operation's result is there. It is stamped with the clock and is no
longer the producer of its destinations; unless it is a store, its memory
effect is complete too. -/
def executed (c : Core W) (h : Handle) : Core W :=
  match c.pool.get? h with
  | none => c
  | some op =>
    { c with
      pool := c.pool.modify h fun op => { op with
        stage := .executed
        executedAt := c.clock
        performed := op.performed || !op.inst.opcode.isStore }
      aliases := c.aliases.release op.inst.dsts h }

/-- The operation's memory effect is complete. If it was retired it is
released. -/
def performed [Emulator W] (c : Core W) (h : Handle) : Core W :=
  match c.pool.get? h with
  | none => c
  | some op =>
    let done := { op with performed := true }
    if op.stage = .retired then
      { c with
        pool := c.pool.erase h
        world := Emulator.release c.world done }
    else { c with pool := c.pool.modify h fun _ => done }

end OutOfOrder.Core
