import Mathlib.Algebra.GroupWithZero.Nat
import OutOfOrder.Paging.Command
import OutOfOrder.Paging.WalkerHistory

/-!
# What happens in a translation unit, and when

A tick moves the clock first. The probes that are due by then leave the way
together and are answered one after the other, and what the walks ask on their
answers is sent on its way at the end. So whatever happens to the walkers
happens at a clock, the one that the unit shows after the command. The timeline
of a run is the history of its walkers with these clocks.

A tick is the only place where a probe is answered, and it never answers one
that was sent in it. A probe that takes no time at all by its latency is
therefore under way for one cycle, like a probe that takes one (`delay`).
-/

namespace OutOfOrder.MmuConfig

open Paging

/-- How many cycles a probe is under way to its answer. -/
def delay (config : MmuConfig) : ProbeTarget → Nat
  | .cache => max 1 config.cacheLatency
  | .memory => max 1 config.memoryLatency

/-- How many cycles probes take of which each is sent when the one before it is
answered. -/
def duration (config : MmuConfig) (probes : List Probe) : Nat :=
  (probes.map fun probe => config.delay probe.target).sum

end OutOfOrder.MmuConfig

namespace OutOfOrder.Paging

namespace WalkerEvent

def sent? : WalkerEvent → Option Probe
  | issued probe => some probe
  | _ => none

def sent (past : List WalkerEvent) : List Probe := past.filterMap sent?

/-- The probes that walk `n` sent. -/
def sentBy (n : Nat) (past : List WalkerEvent) : List Probe := (sent past).filter (·.walk == n)

@[simp]
theorem sent_append (first second : List WalkerEvent) :
    sent (first ++ second) = sent first ++ sent second :=
  List.filterMap_append

@[simp]
theorem sentBy_append (n : Nat) (first second : List WalkerEvent) :
    sentBy n (first ++ second) = sentBy n first ++ sentBy n second := by
  rw [sentBy, sent_append, List.filter_append, sentBy, sentBy]

end WalkerEvent

namespace Mmu

variable {M : Type}

/-- The probes that the next tick answers, in the order of their answers. -/
def ready (m : Mmu M) : List Probe :=
  (m.inFlight.filter fun sent => sent.1 ≤ m.clock + 1).map Prod.snd

/-- How a tick begins: the clock moves, and the probes that are due leave the
way. -/
def begun (m : Mmu M) : Mmu M :=
  { m with
    clock := m.clock + 1
    inFlight := m.inFlight.filter fun sent => !decide (sent.1 ≤ m.clock + 1) }

variable [EntryMemory M]

theorem tick_eq (m : Mmu M) :
    m.tick = ((m.begun.serveAll m.ready).1, (m.begun.serveAll m.ready).2.collect) := by
  rw [tick]
  simp only [List.partition_eq_filter_filter]
  rfl

/-- What happens to the walkers while probes are answered one after the other. -/
def answers (m : Mmu M) : List Probe → List WalkerEvent
  | [] => []
  | probe :: rest =>
    (m.walker.perform (.complete probe (m.resolve probe).1)).1
      ++ (m.serve probe).2.answers rest

/-- What happens to the walkers during a command. -/
def events (m : Mmu M) : MmuCommand M → List WalkerEvent
  | .translate request => (m.walker.perform (.translate request)).1
  | .tick => m.begun.answers m.ready
  | .flush | .setRoot _ | .write _ => []

/-- What happens to the walkers during a run, with the clocks at which it happens. -/
def timeline (m : Mmu M) : List (MmuCommand M) → List (Nat × WalkerEvent)
  | [] => []
  | command :: rest =>
    let next := (m.perform command).2
    (m.events command).map (next.clock, ·) ++ next.timeline rest

end Mmu

end OutOfOrder.Paging
