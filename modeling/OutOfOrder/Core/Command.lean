import OutOfOrder.Core.Cycle
import OutOfOrder.Core.Notification

/-!
# Histories of a core

Whatever is done to a core from outside is one of the commands below, so a run
of a core is a list of commands, and a state is reachable if some run leads to
it. A law about every reachable state is a law about runs.

What the operations of a core lived through during a run is its history: the
reports that reached the core, the admissions, the commits and the ends of
recoveries, in the order in which they happened. It is read off the commands
and what they answered.
-/

namespace OutOfOrder

inductive Command
  | activate
  | deactivate
  | advance
  | add (op : MicroOp)
  | issued (h : Handle)
  | executing (h : Handle)
  | executed (h : Handle)
  | performed (h : Handle)
  | replay (h : Handle)
  | arm (budget : Nat)
  deriving DecidableEq

inductive Reply
  | done
  | cycle (report : Core.CycleReport)
  | admission (result : Except Stall Admission)

namespace Core

variable {W : Type} [Surroundings W]

def perform (c : Core W) : Command → Reply × Core W
  | .activate => (.done, c.activate)
  | .deactivate => (.done, c.deactivate)
  | .advance =>
    let (report, c) := c.advance
    (.cycle report, c)
  | .add op =>
    let (result, c) := c.add op
    (.admission result, c)
  | .issued h => (.done, c.issued h)
  | .executing h => (.done, c.executing h)
  | .executed h => (.done, c.executed h)
  | .performed h => (.done, c.performed h)
  | .replay h => (.done, c.replay h)
  | .arm budget => (.done, c.arm budget)

def run (c : Core W) : List Command → List Reply × Core W
  | [] => ([], c)
  | command :: rest =>
    let (reply, c) := c.perform command
    let (replies, c) := c.run rest
    (reply :: replies, c)

theorem run_append (c : Core W) (first second : List Command) :
    c.run (first ++ second) =
      ((c.run first).1 ++ ((c.run first).2.run second).1, ((c.run first).2.run second).2) := by
  induction first generalizing c with
  | nil => rfl
  | cons command rest ih => simp only [List.cons_append, run, ih]

theorem snd_run_cons (c : Core W) (command : Command) (rest : List Command) :
    (c.run (command :: rest)).2 = ((c.perform command).2.run rest).2 := rfl

theorem snd_run_snoc (c : Core W) (rest : List Command) (command : Command) :
    (c.run (rest ++ [command])).2 = ((c.run rest).2.perform command).2 := by
  rw [run_append]
  rfl

/-- Some history of a fresh core leads to this state. -/
def Reachable (c : Core W) : Prop :=
  ∃ config hart start commands, ∃ world : W,
    create config hart world = .ok start ∧ (start.run commands).2 = c

end Core

/-- The operations that a command admitted, in order. -/
def Reply.admitted : Reply → List Admission
  | .done => []
  | .cycle report => report.admitted
  | .admission (.ok a) => [a]
  | .admission (.error _) => []

/-- The operations that a command committed, in order. -/
def Reply.committed : Reply → List NamedOp
  | .cycle report => report.committed
  | _ => []

/-- Something that happened to a core. -/
inductive Event
  /-- A report or request from outside reached the core. -/
  | told (command : Command)
  /-- A recovery found the core drained and ended. -/
  | recovered
  | admitted (admission : Admission)
  | committed (op : NamedOp)
  deriving DecidableEq

/-- What happened while a command was carried out, in order: a cycle ends a
recovery before it admits, and admits before it commits. -/
def Reply.events (command : Command) : Reply → List Event
  | .done => [.told command]
  | .cycle report =>
    (if report.recovered then [.recovered] else [])
      ++ report.admitted.map .admitted ++ report.committed.map .committed
  | .admission (.ok a) => [.admitted a]
  | .admission (.error _) => []

/-- What happens to a core while commands are carried out. -/
def Core.history {W : Type} [Surroundings W] (c : Core W) : List Command → List Event
  | [] => []
  | command :: rest =>
    let (reply, c) := c.perform command
    reply.events command ++ c.history rest

theorem Core.history_append {W : Type} [Surroundings W] (c : Core W) (first second : List Command) :
    c.history (first ++ second) = c.history first ++ (c.run first).2.history second := by
  induction first generalizing c with
  | nil => rfl
  | cons command rest ih =>
      simp only [List.cons_append, history, run, ih, List.append_assoc]

theorem Core.history_snoc {W : Type} [Surroundings W] (c : Core W) (rest : List Command)
    (command : Command) : c.history (rest ++ [command]) =
      c.history rest ++ ((c.run rest).2.perform command).1.events command := by
  rw [history_append]
  exact congrArg _ (List.append_nil _)

namespace Event

def admission? : Event → Option Admission
  | .admitted a => some a
  | _ => none

def commit? : Event → Option NamedOp
  | .committed op => some op
  | _ => none

def admissions (past : List Event) : List Admission := past.filterMap admission?

def commits (past : List Event) : List NamedOp := past.filterMap commit?

@[simp]
theorem admissions_append (first second : List Event) :
    admissions (first ++ second) = admissions first ++ admissions second :=
  List.filterMap_append

@[simp]
theorem commits_append (first second : List Event) :
    commits (first ++ second) = commits first ++ commits second :=
  List.filterMap_append

end Event

end OutOfOrder
