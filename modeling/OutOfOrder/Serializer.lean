import OutOfOrder.AliasTable
import OutOfOrder.Pool.Basic

/-!
# Forcing memory operations into chains

After replays that came too close together the core arms a budget. While it
lasts, every admission costs one unit, and a memory operation may be made to
wait for an earlier one through its ordering edge. How much is ordered depends
on the level:

* level 0 orders every memory operation after the memory operation before it;
* level 1 orders loads and stores after the store before them;
* level 2 orders memory operations that share a register window, which is the
  register that forms their address.

Level 3 only ever exists between a recovery and the next admission, which
takes it for level 2.
-/

namespace OutOfOrder

def maxSerializeLevel : Nat := 2

structure Serializer where
  /-- Admissions that are still subject to serialization. -/
  budget : Nat := 0
  level : Nat
  /-- The last operation chained at level 0, or the last load at level 1. -/
  lastMemory : Option Handle := none
  lastStore : Option Handle := none
  /-- The last memory operation of each register window. -/
  windows : AliasTable := .empty
  /-- The window that the last admission at level 2 left open. -/
  window : Option Nat := none
  lastPc : Option UInt64 := none

namespace Serializer

def arm (s : Serializer) (budget : Nat) : Serializer := { s with budget }

/-- Asks for the most permissive level from the next admission on. -/
def relax (s : Serializer) : Serializer := { s with level := maxSerializeLevel + 1 }

def tighten (s : Serializer) : Serializer := { s with level := s.level - 1 }

/-- The last memory operation recorded in a window. -/
def windowProducer (s : Serializer) (window : Nat) : Option Handle :=
  s.windows.producer window

/-- Orders the operation `h` after `prev` if that one is live and has not been
issued. -/
def chain (pool : Pool) (prev : Option Handle) (h : Handle) : Pool :=
  match prev with
  | none => pool
  | some prev =>
    match pool.get? prev with
    | none => pool
    | some p =>
      if p.isIssued then pool
      else pool.modify h fun op => { op with edges.order := some prev }

/-- Orders the operation `h` after `prev` if that one is live and `h` has no
ordering edge yet, and records the window of `h`. -/
def chainInWindow (pool : Pool) (window : Nat) (prev : Option Handle) (h : Handle) :
    Pool :=
  pool.modify h fun op =>
    let order :=
      if op.isUnordered then prev.filter fun p => (pool.get? p).isSome
      else op.edges.order
    { op with edges.order := order, window := some window }

/-- The window an admission at level 2 belongs to: the register of its first
source. An operation without one stays in the window of the admission before
it if it shares its program counter. -/
def nextWindow (s : Serializer) (op : MicroOp) : Option Nat :=
  match op.inst.src1 with
  | some reg => some reg
  | none => if s.lastPc = some op.pc then s.window else none

/-- Level 0: every memory operation waits for the one before it. -/
def admitFull (s : Serializer) (pool : Pool) (h : Handle) (op : MicroOp) :
    Serializer × Pool :=
  if op.inst.opcode.isMemory && op.isUnordered then
    ({ s with lastMemory := some h }, chain pool s.lastMemory h)
  else (s, pool)

/-- Level 1: loads and stores wait for the store before them. -/
def admitStores (s : Serializer) (pool : Pool) (h : Handle) (op : MicroOp) :
    Serializer × Pool :=
  if op.inst.opcode.isLoad && op.isUnordered then
    ({ s with lastMemory := some h }, chain pool s.lastStore h)
  else if op.inst.opcode.isStore && op.isUnordered then
    ({ s with lastStore := some h }, chain pool s.lastStore h)
  else (s, pool)

/-- Level 2: a memory operation waits for the one before it in its window, and
any other operation closes the windows of the registers it writes. -/
def admitWindow (s : Serializer) (pool : Pool) (h : Handle) (op : MicroOp) :
    Serializer × Pool :=
  let current := s.nextWindow op
  let s := { s with window := current, lastPc := some op.pc }
  match current with
  | none => (s, pool)
  | some window =>
    if op.inst.opcode.isMemory then
      ({ s with windows := s.windows.set window h },
        chainInWindow pool window (s.windows.producer window) h)
    else ({ s with windows := s.windows.clearAll op.inst.dsts }, pool)

/-- Applies the policy in force to the freshly admitted operation `h`. While
the core recovers nothing is serialized and the budget is not touched. -/
def apply (s : Serializer) (pool : Pool) (h : Handle) (recovering : Bool) :
    Serializer × Pool :=
  let s := { s with level := min s.level maxSerializeLevel }
  if s.budget == 0 || recovering then (s, pool)
  else
    let s := { s with budget := s.budget - 1 }
    match pool.get? h with
    | none => (s, pool)
    | some op =>
      match s.level with
      | 0 => s.admitFull pool h op
      | 1 => s.admitStores pool h op
      | _ => s.admitWindow pool h op

/-- Forgets a committing operation that was recorded in `window`. -/
def release (s : Serializer) (h : Handle) (window : Option Nat) : Serializer :=
  { s with
    lastMemory := s.lastMemory.filter (· != h)
    lastStore := s.lastStore.filter (· != h)
    windows := s.windows.release window.toList h }

end Serializer

end OutOfOrder
