import OutOfOrder.Surroundings.Basic

/-!
# Surroundings that keep a record

Wrapping the state of any surroundings in `Recorded` changes none of their
answers and writes down every question. What a core asked of its surroundings is
thereby a value, and a law about it is a law about a list.

There are two kinds. A call may change the surroundings, and goes on record with
its answer; nearly every law is about the calls alone. A look changes nothing, and
that the core looked is all there is to know of it.
-/

namespace OutOfOrder

/-- A question that may change the surroundings, and the answer. -/
inductive Call
  | fetch (hart count : Nat)
  | nextBucket (bucket : Option (List MicroOp))
  | hazard (op : MicroOp) (answer : Option StallCause)
  | accept (op : MicroOp)
  | mayPromote (op : MicroOp) (flushing granted : Bool)
  | mayCommit (op : MicroOp) (flushing granted : Bool)
  | resync (hart : Nat)
  | reexecute (hart : Nat)
  | release (op : MicroOp)

/-- How operations part from a core, as its surroundings see it: one is let
commit, and one is handed back. -/
inductive Departure
  | committed (op : MicroOp)
  | released (op : MicroOp)
  deriving DecidableEq

namespace Departure

def committed? : Departure → Option MicroOp
  | committed op => some op
  | released _ => none

def released? : Departure → Option MicroOp
  | released op => some op
  | committed _ => none

end Departure

/-- What decides which commits are flushed: the commits themselves, and the ends of
recoveries, at which the surroundings are asked to resync. -/
inductive Milestone
  | committed (op : MicroOp)
  | recovered
  deriving DecidableEq

/-- The operation that a call hands back. -/
def Call.released? : Call → Option MicroOp
  | release op => some op
  | _ => none

/-- The departure that a call is. -/
def Call.departure? : Call → Option Departure
  | mayCommit op _ true => some (.committed op)
  | release op => some (.released op)
  | _ => none

/-- The operations that a call brought in; a bucket without any brings in
none. -/
def Call.bucket? : Call → Option (List MicroOp)
  | nextBucket (some (op :: ops)) => some (op :: ops)
  | _ => none

/-- Whether the core was flushing when it offered a commit, if the call offers one. -/
def Call.offer? : Call → Option Bool
  | mayCommit _ flushing _ => some flushing
  | _ => none

/-- The milestone that a call is. -/
def Call.milestone? : Call → Option Milestone
  | mayCommit op _ true => some (.committed op)
  | resync _ => some .recovered
  | _ => none

/-- The hart whose stream a call brings back in step. -/
def Call.resynced? : Call → Option Nat
  | resync hart => some hart
  | _ => none

/-- What a core asked of its surroundings. -/
inductive Question
  | call (call : Call)
  | look (look : Look)

/-- The call that a question is, if it is more than a look. -/
def Question.call? : Question → Option Call
  | call c => some c
  | look _ => none

/-- The look that a question is, if it only looks. -/
def Question.look? : Question → Option Look
  | call _ => none
  | look l => some l

/-- Surroundings together with what was asked of them, latest first. -/
structure Recorded (W : Type) where
  inner : W
  trace : List Question := []

namespace Recorded

variable {W : Type}

/-- The questions in the order in which they were asked. -/
def questions (r : Recorded W) : List Question := r.trace.reverse

/-- The calls in the order in which they were made. -/
def calls (r : Recorded W) : List Call := r.questions.filterMap Question.call?

/-- The looks in the order in which they were taken. -/
def looks (r : Recorded W) : List Look := r.questions.filterMap Question.look?

/-- Continues with `inner` after `question`. -/
def write (r : Recorded W) (question : Question) (inner : W) : Recorded W :=
  { inner, trace := question :: r.trace }

/-- Continues with `inner` after `call`. -/
def note (r : Recorded W) (call : Call) (inner : W) : Recorded W := r.write (.call call) inner

@[simp]
theorem questions_write (r : Recorded W) (question : Question) (inner : W) :
    (r.write question inner).questions = r.questions ++ [question] :=
  List.reverse_cons

@[simp]
theorem calls_note (r : Recorded W) (call : Call) (inner : W) :
    (r.note call inner).calls = r.calls ++ [call] := by
  rw [calls, note, questions_write, List.filterMap_append]
  rfl

/-- The departures, in order. -/
def departures (r : Recorded W) : List Departure := r.calls.filterMap Call.departure?

/-- The operations that were handed back, in order. -/
def released (r : Recorded W) : List MicroOp := r.calls.filterMap Call.released?

/-- The buckets that came in, in order. -/
def delivered (r : Recorded W) : List (List MicroOp) := r.calls.filterMap Call.bucket?

/-- The milestones, in order. -/
def milestones (r : Recorded W) : List Milestone := r.calls.filterMap Call.milestone?

/-- The harts whose streams were brought back in step, in order. -/
def resynced (r : Recorded W) : List Nat := r.calls.filterMap Call.resynced?

theorem released_eq (r : Recorded W) :
    r.released = r.departures.filterMap Departure.released? := by
  rw [released, departures, List.filterMap_filterMap]
  congr 1
  funext call
  cases call with
  | mayCommit op flushing granted => cases granted <;> rfl
  | fetch | nextBucket | hazard | accept | mayPromote | resync | reexecute | release => rfl

theorem released_congr {r s : Recorded W} (h : s.departures = r.departures) :
    s.released = r.released := by
  rw [released_eq, h, released_eq]

theorem departures_note (r : Recorded W) (call : Call) (inner : W) :
    (r.note call inner).departures = r.departures ++ call.departure?.toList := by
  rw [departures, calls_note, List.filterMap_append, List.filterMap_cons]
  cases call.departure? <;> rfl

/-- Most calls are no departure. -/
theorem departures_note_of_none (r : Recorded W) {call : Call} (inner : W)
    (hcall : call.departure? = none) : (r.note call inner).departures = r.departures := by
  rw [departures_note, hcall, Option.toList_none, List.append_nil]

/-- Forgets what was asked so far. -/
def forget (r : Recorded W) : Recorded W := { r with trace := [] }

instance [FrontEnd W] : FrontEnd (Recorded W) where
  isBlocked r hart := FrontEnd.isBlocked r.inner hart
  fetch r hart :=
    let (count, inner) := FrontEnd.fetch r.inner hart
    (count, r.note (.fetch hart count) inner)
  nextBucket r :=
    let (bucket, inner) := FrontEnd.nextBucket r.inner
    (bucket, r.note (.nextBucket bucket) inner)
  hasOutstanding r := FrontEnd.hasOutstanding r.inner
  inFlight r := FrontEnd.inFlight r.inner
  noticed r look := r.write (.look look) (FrontEnd.noticed r.inner look)

instance [Cluster W] : Cluster (Recorded W) where
  hazard? r op :=
    let (answer, inner) := Cluster.hazard? r.inner op
    (answer, r.note (.hazard op answer) inner)
  accept r op := r.note (.accept op) (Cluster.accept r.inner op)
  mayPromote r op flushing :=
    let (granted, inner) := Cluster.mayPromote r.inner op flushing
    (granted, r.note (.mayPromote op flushing granted) inner)
  mayCommit r op flushing :=
    let (granted, inner) := Cluster.mayCommit r.inner op flushing
    (granted, r.note (.mayCommit op flushing granted) inner)

instance [Emulator W] : Emulator (Recorded W) where
  resync r hart := r.note (.resync hart) (Emulator.resync r.inner hart)
  reexecute r hart := r.note (.reexecute hart) (Emulator.reexecute r.inner hart)
  release r op := r.note (.release op) (Emulator.release r.inner op)

instance [Surroundings W] : Surroundings (Recorded W) where

/-- A look is no call. -/
theorem calls_noticed [FrontEnd W] (r : Recorded W) (look : Look) :
    (FrontEnd.noticed r look).calls = r.calls := by
  rw [calls, calls]
  refine (congrArg _ (questions_write r (.look look) _)).trans ?_
  rw [List.filterMap_append]
  exact List.append_nil _

/-! Nothing but a granted commit and a release is a departure. -/

variable {r world : Recorded W}

theorem departures_noticed [FrontEnd W] (r : Recorded W) (look : Look) :
    (FrontEnd.noticed r look).departures = r.departures :=
  congrArg (List.filterMap Call.departure?) (calls_noticed r look)

theorem departures_fetch [FrontEnd W] (r : Recorded W) (hart : Nat) :
    (FrontEnd.fetch r hart).2.departures = r.departures :=
  departures_note_of_none r _ rfl

theorem departures_nextBucket [FrontEnd W] (r : Recorded W) :
    (FrontEnd.nextBucket r).2.departures = r.departures :=
  departures_note_of_none r _ rfl

theorem departures_hazard [Cluster W] {op : MicroOp} {answer : Option StallCause}
    (h : Cluster.hazard? r op = (answer, world)) : world.departures = r.departures := by
  obtain ⟨-, rfl⟩ := Prod.mk.inj h
  exact departures_note_of_none r _ rfl

theorem departures_accept [Cluster W] (r : Recorded W) (op : MicroOp) :
    (Cluster.accept r op).departures = r.departures :=
  departures_note_of_none r _ rfl

theorem departures_mayPromote [Cluster W] {op : MicroOp} {flushing granted : Bool}
    (h : Cluster.mayPromote r op flushing = (granted, world)) :
    world.departures = r.departures := by
  obtain ⟨-, rfl⟩ := Prod.mk.inj h
  exact departures_note_of_none r _ rfl

theorem departures_mayCommit [Cluster W] {op : MicroOp} {flushing granted : Bool}
    (h : Cluster.mayCommit r op flushing = (granted, world)) :
    world.departures = r.departures ++ if granted then [.committed op] else [] := by
  obtain ⟨hgranted, rfl⟩ := Prod.mk.inj h
  rw [hgranted]
  refine (departures_note r _ _).trans (congrArg _ ?_)
  cases granted <;> rfl

theorem departures_resync [Emulator W] (r : Recorded W) (hart : Nat) :
    (Emulator.resync r hart).departures = r.departures :=
  departures_note_of_none r _ rfl

theorem departures_reexecute [Emulator W] (r : Recorded W) (hart : Nat) :
    (Emulator.reexecute r hart).departures = r.departures :=
  departures_note_of_none r _ rfl

theorem departures_release [Emulator W] (r : Recorded W) (op : MicroOp) :
    (Emulator.release r op).departures = r.departures ++ [.released op] :=
  departures_note r _ _

end Recorded

end OutOfOrder
