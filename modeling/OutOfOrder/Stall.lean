import OutOfOrder.MicroOp

/-!
# Why a micro-operation is not admitted

A stall is never fatal: the operation comes back with the cause, and whoever
offered it offers it again later.
-/

namespace OutOfOrder

inductive StallCause
  | smallWindow
  /-- The reorder buffer and the retiring buffer are full. -/
  | smallRob
  | smallReg
  | outstandingLoads
  | outstandingStores
  | outstandingBranches
  /-- The core drains after a replay request. -/
  | replays
  | syscall
  deriving DecidableEq, Inhabited

namespace StallCause

/-- Every cause, in the order of `index`. -/
def all : List StallCause :=
  [smallWindow, smallRob, smallReg, outstandingLoads, outstandingStores,
    outstandingBranches, replays, syscall]

def index : StallCause → Fin 8
  | smallWindow => 0 | smallRob => 1 | smallReg => 2 | outstandingLoads => 3
  | outstandingStores => 4 | outstandingBranches => 5 | replays => 6 | syscall => 7

def name : StallCause → String
  | smallWindow => "SmallWindow"
  | smallRob => "SmallRob"
  | smallReg => "SmallReg"
  | outstandingLoads => "OutstandingLoads"
  | outstandingStores => "OutstandingStores"
  | outstandingBranches => "OutstandingBranches"
  | replays => "Replays"
  | syscall => "Syscall"

end StallCause

/-- A refused micro-operation, as it was offered, and the cause. -/
structure Stall where
  cause : StallCause
  op : MicroOp
  deriving DecidableEq

def Stall.message (s : Stall) : String :=
  "dispatch of instruction " ++ toString s.op.id ++ " stalled: " ++ s.cause.name

end OutOfOrder
