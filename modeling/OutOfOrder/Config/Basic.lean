/-!
# Parameters of a machine

The parameters of a core and of its page table walkers, their defaults, and the
combinations that are refused. The checks run in a fixed order and the
first that fails is reported.
-/

namespace OutOfOrder

structure CoreConfig where
  /-- Instructions in a fetched bucket. -/
  fetchWidth : Nat := 4
  issueWidth : Nat := 4
  retireWidth : Nat := 4
  /-- Slots of a cycle that a stall can lose. -/
  realisticWidth : Nat := 4
  /-- Instructions that the queue between decode and rename holds. -/
  instQueueSize : Nat := 32
  /-- Capacity that the reorder buffer and the retiring buffer share. -/
  maxRobSize : Nat := 128
  /-- Cycles between the end of execution and commit. -/
  retireDelay : Nat := 2
  /-- Physical registers; 0 stands for as many as are ever asked for. -/
  totalRegs : Int := 0
  /-- A register is taken when execution starts and not at rename. -/
  lateAlloc : Bool := false
  /-- Replay requests are honoured. -/
  memoryReplay : Bool := true
  /-- Serialization budget after replays that come too close together. -/
  serialize : Nat := 0
  serializeLevel : Nat := 2
  /-- Distance between replays that counts as progress. -/
  progressThreshold : Nat := 200
  /-- Cycles between two looks for a retirement that does not move. -/
  lockCheckInterval : Nat := 100000
  deriving DecidableEq, Inhabited

structure MmuConfig where
  walkers : Nat := 4
  /-- Entries of the entry cache. -/
  cacheEntries : Nat := 64
  cacheLatency : Nat := 1
  memoryLatency : Nat := 20
  rootPpn : UInt64 := 0x80000
  deriving DecidableEq, Inhabited

structure Config where
  core : CoreConfig := {}
  mmu : MmuConfig := {}
  deriving DecidableEq, Inhabited

/-- Why a configuration is refused. -/
inductive ConfigError
  /-- The reorder buffer cannot hold anything, as one place is always spare. -/
  | robTooSmall (size : Nat)
  /-- A parameter that is divided by, or counted down from, is zero. -/
  | zeroWidth (name : String)
  /-- The instruction queue cannot take a full bucket. -/
  | instQueueTooSmall (queue fetch : Nat)
  | serializeLevel (level : Nat)
  | noWalkers
  | unreadable
  deriving DecidableEq

def ConfigError.message : ConfigError → String
  | robTooSmall size => "max_rob_size must be at least 2 (got " ++ toString size ++ ")"
  | zeroWidth name => name ++ " must be non-zero"
  | instQueueTooSmall queue fetch =>
    "inst_queue_size (" ++ toString queue ++ ") must be at least fetch_width ("
      ++ toString fetch ++ ")"
  | serializeLevel level =>
    "serialize_level must be 0, 1 or 2 (got " ++ toString level ++ ")"
  | noWalkers => "ptw_count must be non-zero"
  | unreadable => "invalid configuration JSON"

/-- The first of a list of faults that applies, if any does. -/
def ConfigError.first : List (Bool × ConfigError) → Except ConfigError Unit
  | [] => .ok ()
  | (applies, error) :: rest => if applies then .error error else first rest

def CoreConfig.validate (c : CoreConfig) : Except ConfigError Unit :=
  ConfigError.first
    [ (c.maxRobSize < 2, .robTooSmall c.maxRobSize)
    , (c.fetchWidth == 0, .zeroWidth "fetch_width")
    , (c.issueWidth == 0, .zeroWidth "issue_width")
    , (c.retireWidth == 0, .zeroWidth "retire_width")
    , (c.realisticWidth == 0, .zeroWidth "realistic_width")
    , (c.lockCheckInterval == 0, .zeroWidth "lock_check_interval")
    , (c.instQueueSize < c.fetchWidth, .instQueueTooSmall c.instQueueSize c.fetchWidth)
    , (2 < c.serializeLevel, .serializeLevel c.serializeLevel) ]

def MmuConfig.validate (c : MmuConfig) : Except ConfigError Unit :=
  ConfigError.first
    [ (c.walkers == 0, .noWalkers)
    , (c.cacheEntries == 0, .zeroWidth "l1tlb_entries") ]

def Config.validate (c : Config) : Except ConfigError Unit := do
  c.core.validate
  c.mmu.validate

end OutOfOrder
