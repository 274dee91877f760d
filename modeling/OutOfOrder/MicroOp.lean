/-!
# Micro-operations

A micro-operation is one dynamic instance of an instruction: the static
description its decoder delivered, together with everything the core learns
about it between rename and release. Nothing here moves a micro-operation
along; this file only says what one is and which questions it answers about
itself.

A micro-operation never names another one directly. It holds handles, and a
handle is a slot of the pool together with the identifier that was stored
there, so a handle to an operation that has left is recognisable as such
unless its slot was given to an operation of the same identifier.
-/

namespace OutOfOrder

/-- Opcode classes, as far as scheduling tells instructions apart. -/
inductive Opcode
  | nop | alu | mult | div | branch | load | store | fpAlu | fpMult | fpDiv
  deriving DecidableEq, Inhabited

namespace Opcode

/-- Every opcode class, in the order of `index`. -/
def all : List Opcode :=
  [nop, alu, mult, div, branch, load, store, fpAlu, fpMult, fpDiv]

def index : Opcode → Fin 10
  | nop => 0 | alu => 1 | mult => 2 | div => 3 | branch => 4
  | load => 5 | store => 6 | fpAlu => 7 | fpMult => 8 | fpDiv => 9

def isLoad : Opcode → Bool
  | load => true
  | _ => false

def isStore : Opcode → Bool
  | store => true
  | _ => false

def isMemory (o : Opcode) : Bool := o.isLoad || o.isStore

def isBranch : Opcode → Bool
  | branch => true
  | _ => false

/-- Divides and square roots, whose open results make younger loads
speculative. -/
def isLongLatency : Opcode → Bool
  | div | fpDiv => true
  | _ => false

end Opcode

/-- What the decoder delivers: an opcode class and up to four register
operands. Registers are numbers; `none` is an operand slot that is not used. -/
structure Instruction where
  opcode : Opcode := .nop
  src1 : Option Nat := none
  src2 : Option Nat := none
  dst1 : Option Nat := none
  dst2 : Option Nat := none
  deriving DecidableEq, Inhabited

namespace Instruction

/-- The registers written, first destination first. -/
def dsts (i : Instruction) : List Nat := i.dst1.toList ++ i.dst2.toList

/-- Whether a register is written that can hold a value. Register 0 is the
hardwired zero. -/
def writesRegister (i : Instruction) : Bool := i.dsts.any (· != 0)

end Instruction

/-- The life of a micro-operation, in the order in which it is lived. -/
inductive Stage
  | fetched | renamed | issued | executing | executed | retired
  deriving DecidableEq, Inhabited

namespace Stage

def rank : Stage → Nat
  | fetched => 0 | renamed => 1 | issued => 2
  | executing => 3 | executed => 4 | retired => 5

/-- The later of two stages. A notification that arrives out of order never
takes an operation back. -/
def later (s t : Stage) : Stage := if s.rank < t.rank then t else s

theorem rank_later (s t : Stage) : (s.later t).rank = max s.rank t.rank := by
  unfold later; split <;> omega

/-- A report of an earlier stage does not help to reach a later one. -/
theorem le_rank_later_iff {s t u : Stage} (h : t.rank < u.rank) :
    u.rank ≤ (s.later t).rank ↔ u.rank ≤ s.rank := by
  rw [rank_later]; omega

theorem later_ne {s t u : Stage} (hs : s ≠ u) (ht : t ≠ u) : s.later t ≠ u := by
  unfold later; split <;> assumption

end Stage

/-- A weak reference to a micro-operation in the pool. Equality is of both
parts. -/
structure Handle where
  slot : Nat
  id : Nat
  deriving DecidableEq, Inhabited

/-- The operations that a micro-operation waits for: the producers of its two
sources, and the operation that serialization orders it after. -/
structure Edges where
  src1 : Option Handle := none
  src2 : Option Handle := none
  order : Option Handle := none
  deriving DecidableEq, Inhabited

/-- One dynamic instance of an instruction. -/
structure MicroOp where
  /-- Position in program order. -/
  id : Nat
  pc : UInt64
  inst : Instruction
  hart : Nat := 0
  /-- Whether the operation lies inside a statistics window. -/
  sampled : Bool := true
  stage : Stage := .fetched
  edges : Edges := {}
  /-- The second source is resolved at retirement, so rename leaves its edge
  alone. -/
  lateSrc2 : Bool := false
  /-- A load admitted behind an older operation that was not resolved. -/
  speculative : Bool := false
  /-- A load admitted with nothing unresolved in front of it. -/
  safe : Bool := false
  replayed : Bool := false
  performed : Bool := false
  /-- The operation holds a register of the budget. -/
  holdsRegister : Bool := false
  /-- The register window in which serialization recorded the operation. -/
  window : Option Nat := none
  renamedAt : Nat := 0
  /-- Clock at the last report that execution completed. -/
  executedAt : Nat := 0
  deriving DecidableEq, Inhabited

/-- A micro-operation as it is at some moment, and the handle that names it. -/
structure NamedOp where
  handle : Handle
  op : MicroOp
  deriving DecidableEq, Inhabited

/-- An admitted micro-operation as the cluster got it, next to what it was when
it was offered. -/
structure Admission extends NamedOp where
  offered : MicroOp
  deriving DecidableEq, Inhabited

namespace MicroOp

def isUnordered (op : MicroOp) : Bool := op.edges.order.isNone

def isIssued (op : MicroOp) : Bool := Stage.issued.rank ≤ op.stage.rank

def isExecuting (op : MicroOp) : Bool := Stage.executing.rank ≤ op.stage.rank

def isExecuted (op : MicroOp) : Bool := Stage.executed.rank ≤ op.stage.rank

/-- Whether a younger load has to guess past this operation: a memory
operation whose address may still be open, or a branch or divide without a
result. -/
def isUnresolved (op : MicroOp) : Bool :=
  (op.inst.opcode.isMemory && !op.isExecuting)
    || ((op.inst.opcode.isBranch || op.inst.opcode.isLongLatency) && !op.isExecuted)

end MicroOp

end OutOfOrder
