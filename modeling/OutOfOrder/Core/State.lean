import OutOfOrder.Config.Basic
import OutOfOrder.Core.InstructionQueue
import OutOfOrder.RingBuffer.Basic
import OutOfOrder.Serializer
import OutOfOrder.Stats.Counters
import OutOfOrder.Surroundings.Basic

/-!
# The state of a core

One core serves one hart. Its reorder buffer holds the handles of admitted
operations in program order; those that the cluster has let go wait in the
retiring buffer until they commit. Both are rings of the full capacity, and
admission keeps their common occupancy below it.

What the operations themselves have come to is kept in the pool; everything
else that a core remembers from one cycle to the next is a field here.
-/

namespace OutOfOrder

/-- How far a replay request has got. -/
structure Recovery where
  /-- The youngest operation that is known to need a replay. -/
  replayPoint : Nat := 0
  recovering : Bool := false
  /-- A replayed operation has committed during the drain, so what commits now
  does not count. -/
  flushing : Bool := false
  /-- The hart whose stream is brought back in step after the drain. -/
  flushingHart : Nat := 0
  /-- The replay point of the recovery before. -/
  lastReplay : Nat := 0

/-- What a look at retirement sees. -/
structure RetireView where
  commits : Nat
  robTop : Option Nat
  retiringTop : Option Nat
  deriving DecidableEq

/-- Watches whether retirement moves. -/
structure LockDetector where
  commits : Nat := 0
  last : Option RetireView := none
  /-- Two looks in a row saw the same while operations were waiting. -/
  detected : Bool := false

/-- A core with surroundings of type `W`. -/
structure Core (W : Type) where
  config : CoreConfig
  hart : Nat
  world : W
  pool : Pool
  rob : RingBuffer Handle
  retiring : RingBuffer Handle
  aliases : AliasTable
  serializer : Serializer
  recovery : Recovery
  lock : LockDetector
  queue : InstructionQueue
  /-- Registers left in the budget; late allocation can overdraw it. -/
  freeRegs : Int
  clock : Nat
  active : Bool
  busy : Bool
  /-- Whether the core's own counters are inside a statistics window. -/
  sampling : Bool
  stats : Counters

/-- The register budget that stands for no limit: 2 to the power of 30. -/
def unlimitedRegs : Int := 1073741824

/-- The register budget of a configuration. -/
def CoreConfig.registerBudget (c : CoreConfig) : Int :=
  if c.totalRegs = 0 then unlimitedRegs else c.totalRegs

namespace Core

variable {W : Type}

/-- A core that holds nothing and is not active. -/
def initial (config : CoreConfig) (hart : Nat) (world : W) : Core W where
  config
  hart
  world
  pool := .withCapacity (config.maxRobSize + config.instQueueSize)
  rob := .withCapacity config.maxRobSize
  retiring := .withCapacity config.maxRobSize
  aliases := .empty
  serializer := { level := config.serializeLevel }
  recovery := {}
  lock := {}
  queue := {}
  freeRegs := config.registerBudget
  clock := 0
  active := false
  busy := false
  sampling := false
  stats := {}

/-- An initial core, if its parameters pass the checks. -/
def create (config : CoreConfig) (hart : Nat) (world : W) : Except ConfigError (Core W) :=
  config.validate.map fun _ => initial config hart world

/-- Operations in the reorder buffer and the retiring buffer. -/
def occupancy (c : Core W) : Nat := c.rob.size + c.retiring.size

/-- Nothing that was admitted waits for its commit. -/
def isDrained (c : Core W) : Bool := c.rob.isEmpty && c.retiring.isEmpty

def op? (c : Core W) (h : Handle) : Option MicroOp := c.pool.get? h

/-- The latest operation in flight that writes a register. -/
def producer (c : Core W) (reg : Nat) : Option Handle := c.aliases.producer reg

/-- Room in the instruction queue. One bucket may overfill it. -/
def queueSpace (c : Core W) : Nat := c.config.instQueueSize - c.queue.held

def activate (c : Core W) : Core W := { c with active := true }

def deactivate (c : Core W) : Core W := { c with active := false }

def arm (c : Core W) (budget : Nat) : Core W :=
  { c with serializer := c.serializer.arm budget }

end Core

end OutOfOrder
