import OutOfOrder.Config.Basic
import OutOfOrder.Paging.EntryCache
import OutOfOrder.Paging.Memory
import OutOfOrder.Paging.Walker

/-!
# The walkers in time

Walkers, entry cache and memory put together. Every probe is answered a fixed
number of cycles after it was sent, depending on its target, and never in the
cycle that sent it. What memory answers is kept in the cache.
-/

namespace OutOfOrder.Paging

structure Mmu (M : Type) where
  walker : Walker
  cache : EntryCache
  memory : M
  cacheLatency : Nat
  memoryLatency : Nat
  clock : Nat := 0
  /-- Probes on their way with the clock of their answer, oldest first. -/
  inFlight : List (Nat × Probe) := []

namespace Mmu

variable {M : Type}

/-- Walkers over a memory, if the parameters pass the checks. -/
def create (config : MmuConfig) (memory : M) : Except ConfigError (Mmu M) :=
  config.validate.map fun _ =>
    { walker := .withSlots config.walkers config.rootPpn
      cache := .withSize config.cacheEntries
      memory
      cacheLatency := config.cacheLatency
      memoryLatency := config.memoryLatency }

def latency (m : Mmu M) : ProbeTarget → Nat
  | .cache => m.cacheLatency
  | .memory => m.memoryLatency

/-- Sends the walkers' probes on their way. -/
def collect (m : Mmu M) : Mmu M :=
  { m with
    walker := { m.walker with pending := [] }
    inFlight := m.inFlight
      ++ m.walker.pending.map fun probe => (m.clock + m.latency probe.target, probe) }

/-- Starts a walk for a request; `none` if every walker is busy. -/
def start? (m : Mmu M) (request : Request) : Option (Option Response × Mmu M) :=
  (m.walker.start? request).map fun (response, walker) =>
    (response, { m with walker }.collect)

/-- What the target of a probe holds, and the cache afterwards. -/
def resolve [EntryMemory M] (m : Mmu M) (probe : Probe) : Option UInt64 × EntryCache :=
  match probe.target with
  | .cache => (m.cache.lookup probe.addr, m.cache)
  | .memory =>
    match EntryMemory.read m.memory probe.addr with
    | none => (none, m.cache)
    | some raw => (some raw, m.cache.insert probe.addr raw)

def serve [EntryMemory M] (m : Mmu M) (probe : Probe) : Option Response × Mmu M :=
  let (raw, cache) := m.resolve probe
  match m.walker.complete? probe raw with
  | none => (none, { m with cache })
  | some (response, walker) => (response, { m with cache, walker })

/-- Answers probes one after the other and collects the responses. -/
def serveAll [EntryMemory M] (m : Mmu M) : List Probe → List Response × Mmu M
  | [] => ([], m)
  | probe :: rest =>
    let (response, m) := m.serve probe
    let (responses, m) := m.serveAll rest
    (response.toList ++ responses, m)

/-- Moves the clock and answers every probe whose time has come, in the order
in which they were sent. -/
def tick [EntryMemory M] (m : Mmu M) : List Response × Mmu M :=
  let clock := m.clock + 1
  let (ready, waiting) := m.inFlight.partition fun (due, _) => due ≤ clock
  let (responses, m) := { m with clock, inFlight := waiting }.serveAll (ready.map Prod.snd)
  (responses, m.collect)

def isIdle (m : Mmu M) : Bool := m.walker.busy == 0 && m.inFlight.isEmpty

def flush (m : Mmu M) : Mmu M := { m with cache := m.cache.flush }

def setRoot (m : Mmu M) (rootPpn : UInt64) : Mmu M :=
  { m with walker := m.walker.setRoot rootPpn }

end Mmu

end OutOfOrder.Paging
