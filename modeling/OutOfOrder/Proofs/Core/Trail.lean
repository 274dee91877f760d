import OutOfOrder.Proofs.Core.Step
import OutOfOrder.Proofs.Lasts

/-!
# What happened, and to what

A history says what happened to a core and in which order. For some laws this is not
enough. Whether serialization applies to an admission depends on the budget, the level and
the recovery as they are at that moment, and they move without leaving an event. A trail is
a history that shows the core that each event found.
-/

namespace OutOfOrder

/-- An event, and the core as it was when it happened. -/
structure Moment (W : Type) where
  core : Core W
  event : Event

/-- The moment of a step, if it has an event. -/
def Moment.of {W : Type} (c : Core W) (event : Option Event) : List (Moment W) :=
  (event.map (Moment.mk c)).toList

/-- A step without an event leaves no moment. -/
theorem Moment.append_of_none {W : Type} (past : List (Moment W)) (c : Core W) :
    past ++ Moment.of c none = past := List.append_nil past

theorem Moment.event_of {W : Type} (c : Core W) (event : Option Event) :
    (Moment.of c event).map Moment.event = event.toList := by
  cases event <;> rfl

namespace Core

variable {W : Type} [Surroundings W]

/-- Steps that lead from `start` to a core, with the moments of their events in order. -/
inductive Trail (start : Core W) : List (Moment W) → Core W → Prop
  | start : Trail start [] start
  | step {past : List (Moment W)} {c d : Core W} {event : Option Event}
      (hpast : Trail start past c) (hstep : Step c event d) :
      Trail start (past ++ Moment.of c event) d

namespace Trail

variable {start c d : Core W} {past : List (Moment W)}

/-- A trail is a sequence of steps. -/
theorem steps (h : Trail start past c) : Steps start (past.map Moment.event) c := by
  induction h with
  | start => exact .refl start
  | step _ hstep ih =>
      rw [List.map_append, Moment.event_of]
      exact ih.snoc hstep

/-- And every sequence of steps leaves one. -/
theorem of_steps {events : List Event} (h : Steps start events c) :
    ∃ moments, Trail start moments c ∧ moments.map Moment.event = events := by
  refine h.keeps (P := fun past e => ∃ moments, Trail start moments e ∧
    moments.map Moment.event = past) ?_ ⟨[], .start, rfl⟩
  rintro past e event e' ⟨moments, htrail, rfl⟩ hstep
  refine ⟨moments ++ Moment.of e event, htrail.step hstep, ?_⟩
  rw [List.map_append, Moment.event_of]

/-- A law about a core and the moments that led to it holds along a trail if every step
keeps it, provided that everything is offered as it should be. -/
theorem keeps_of_admissions {P : List (Moment W) → Core W → Prop} {offered : Admission → Prop}
    (hkeep : ∀ {past c event d}, Trail start past c → P past c → Step c event d →
      (∀ a ∈ Event.admissions event.toList, offered a) → P (past ++ Moment.of c event) d)
    (h : Trail start past d)
    (hall : ∀ a ∈ Event.admissions (past.map Moment.event), offered a) (hstart : P [] start) :
    P past d := by
  induction h with
  | start => exact hstart
  | step hpast hstep ih =>
      rw [List.map_append, Moment.event_of, Event.admissions_append] at hall
      exact hkeep hpast (ih fun a ha => hall a (List.mem_append_left _ ha)) hstep
        fun a ha => hall a (List.mem_append_right _ ha)

/-- The core of a moment is what the moments before it led to, and its event happened to
it. -/
theorem split (h : Trail start past d) {earlier later : List (Moment W)} {m : Moment W}
    (hpast : past = earlier ++ m :: later) :
    Trail start earlier m.core ∧ ∃ e, Step m.core (some m.event) e := by
  induction h generalizing later with
  | start => simp at hpast
  | @step past c d event htrail hstep ih =>
      cases event with
      | none =>
          rw [Moment.append_of_none] at hpast
          exact ih hpast
      | some event =>
          rcases split_append_singleton hpast with ⟨-, rfl, rfl⟩ | ⟨front, -, hpast⟩
          · exact ⟨htrail, d, hstep⟩
          · exact ih hpast

/-- A command that is no cycle is a single step at most. -/
theorem perform (h : Trail start past c) {command : Command} (hcommand : command ≠ .advance) :
    Trail start (past ++ ((c.perform command).1.events command).map (Moment.mk c))
      (c.perform command).2 := by
  cases command with
  | activate => exact h.step (.activate c)
  | deactivate => exact h.step (.deactivate c)
  | advance => exact absurd rfl hcommand
  | add op =>
      show Trail start
        (past ++ ((Reply.admission (c.add op).1).events (.add op)).map _) (c.add op).2
      rcases add_cases c op with ⟨cause, -, hadd⟩ | ⟨cause, world, hroom, hanswer, hadd⟩ |
        ⟨world, hroom, hanswer, hadd⟩ <;> rw [hadd]
      · rw [Reply.events, List.map_nil, List.append_nil]
        exact h
      · exact h.step (.refuse hroom hanswer)
      · exact h.step (.accept hroom hanswer (.inl rfl))
  | issued k => exact h.step (.issued c k)
  | executing k => exact h.step (.executing c k)
  | executed k => exact h.step (.executed c k)
  | performed k => exact h.step (.performed c k)
  | replay k => exact h.step (.replay c k)
  | arm budget => exact h.step (.arm c budget)

end Trail

/-- The moments retrace what happens while commands are carried out. -/
def Retraces (start : Core W) (commands : List Command) (moments : List (Moment W)) : Prop :=
  Trail start moments (start.run commands).2 ∧ moments.map Moment.event = start.history commands

/-- Every run can be retraced. -/
theorem exists_retraces (start : Core W) (commands : List Command) :
    ∃ moments, Retraces start commands moments :=
  Trail.of_steps (steps_run start commands)

/-- An admission of the run happened to the core of its moment, and was offered as all
admissions are. -/
theorem Retraces.admitted {start c : Core W} {commands : List Command}
    {moments earlier later : List (Moment W)} {a : Admission} {offered : Admission → Prop}
    (h : Retraces start commands moments)
    (hall : ∀ a ∈ Event.admissions (start.history commands), offered a)
    (hsplit : moments = earlier ++ ⟨c, .admitted a⟩ :: later) :
    Trail start earlier c ∧ (∃ d, Step c (some (.admitted a)) d) ∧ offered a ∧
      ∀ b ∈ Event.admissions (earlier.map Moment.event), offered b := by
  obtain ⟨htrail, hevents⟩ := h
  obtain ⟨hbefore, hstep⟩ := htrail.split hsplit
  rw [← hevents, hsplit, List.map_append, List.map_cons, Event.admissions_append] at hall
  exact ⟨hbefore, hstep, hall a (List.mem_append_right _ List.mem_cons_self),
    fun b hb => hall b (List.mem_append_left _ hb)⟩

/-- The moments of commands of which none is a cycle. -/
def retrace (c : Core W) : List Command → List (Moment W)
  | [] => []
  | command :: rest =>
    ((c.perform command).1.events command).map (Moment.mk c) ++ (c.perform command).2.retrace rest

theorem retrace_append (c : Core W) (first second : List Command) :
    c.retrace (first ++ second) = c.retrace first ++ (c.run first).2.retrace second := by
  induction first generalizing c with
  | nil => rfl
  | cons command rest ih => rw [List.cons_append, retrace, ih, retrace, List.append_assoc]; rfl

/-- An operation that is admitted from outside finds the core that was left to it. -/
theorem retrace_add (c : Core W) (op : MicroOp) (first rest : List Command)
    (P : Admission → Prop) [DecidablePred P]
    (hadmitted : ((c.run first).2.add op).1.toOption.any (fun a => decide (P a)) = true) :
    ∃ a, P a ∧ c.retrace (first ++ .add op :: rest) = c.retrace first ++
      ⟨(c.run first).2, .admitted a⟩ :: ((c.run first).2.add op).2.retrace rest := by
  cases hanswer : ((c.run first).2.add op).1 with
  | error =>
      rw [hanswer] at hadmitted
      cases hadmitted
  | ok a =>
      rw [hanswer] at hadmitted
      refine ⟨a, of_decide_eq_true hadmitted, ?_⟩
      rw [retrace_append, retrace]
      show _ ++ (((Reply.admission ((c.run first).2.add op).1).events (.add op)).map _ ++ _) = _
      rw [hanswer]
      rfl

theorem retraces_retrace (start : Core W) {commands : List Command}
    (hcommands : .advance ∉ commands) : Retraces start commands (start.retrace commands) := by
  have hfrom : ∀ {past : List (Moment W)} {c : Core W}, Trail start past c →
      Trail start (past ++ c.retrace commands) (c.run commands).2 ∧
        (c.retrace commands).map Moment.event = c.history commands := by
    induction commands with
    | nil =>
        intro past c h
        rw [retrace, List.append_nil]
        exact ⟨h, rfl⟩
    | cons command rest ih =>
        intro past c h
        rw [List.mem_cons, not_or] at hcommands
        obtain ⟨htrail, hevents⟩ := ih hcommands.2 (h.perform (Ne.symm hcommands.1))
        rw [List.append_assoc] at htrail
        refine ⟨htrail, ?_⟩
        rw [retrace, List.map_append, hevents, List.map_map]
        exact congrArg (· ++ _) (List.map_id _)
  exact hfrom .start

end Core

end OutOfOrder
