import OutOfOrder.Proofs.Core.Settled

/-!
# How far an operation has come is what was reported

Execution happens elsewhere, and three of the reports say how far it has got. An
operation is admitted renamed, and from there on its stage is the latest that was
reported of it, in whatever order the reports come. So the stage of an operation in
flight can be read off the history, and `Event.stage` does so: of the reports about a
handle it counts those since the last admission under it.

A commit is the only other thing that moves an operation to another stage, and what has
committed is in flight no more.
-/

namespace OutOfOrder

/-- The stage that a command reports, and of which operation. -/
def Command.report? : Command → Option (Handle × Stage)
  | .issued h => some (h, .issued)
  | .executing h => some (h, .executing)
  | .executed h => some (h, .executed)
  | _ => none

namespace Event

/-- The stage of the operation that `h` names after an event. With an admission the handle
names a new operation. -/
def stageAfter (h : Handle) (before : Stage) : Event → Stage
  | .admitted a => if a.handle = h then .renamed else before
  | .told command =>
    match command.report? with
    | some (k, stage) => if k = h then before.later stage else before
    | none => before
  | .recovered | .committed _ => before

/-- The stage of the operation that `h` names, going by what was reported of it since it
was admitted. -/
def stage (past : List Event) (h : Handle) : Stage := past.foldl (stageAfter h) .fetched

theorem stage_append (past : List Event) (event : Event) (h : Handle) :
    stage (past ++ [event]) h = stageAfter h (stage past h) event := by
  rw [stage, List.foldl_append]
  rfl

theorem stageAfter_report {command : Command} {h : Handle} {s : Stage} (before : Stage)
    (hreport : command.report? = some (h, s)) :
    stageAfter h before (.told command) = before.later s := by
  rw [stageAfter, hreport]
  exact if_pos rfl

/-- What is no report about an operation leaves it where it is. -/
theorem stage_of_silent {h : Handle} {event : Option Event} (past : List Event)
    (hreports : ∀ command s, event = some (.told command) → command.report? ≠ some (h, s))
    (hadmissions : ∀ a, event = some (.admitted a) → a.handle ≠ h) :
    stage (past ++ event.toList) h = stage past h := by
  cases event with
  | none => rw [Option.toList_none, List.append_nil]
  | some event =>
      rw [Option.toList_some, stage_append]
      cases event with
      | told command =>
          rw [stageAfter]
          cases hreport : command.report? with
          | none => rfl
          | some report =>
              have hother : report.1 ≠ h := fun heq =>
                hreports command report.2 rfl (by rw [hreport, ← heq])
              exact if_neg hother
      | admitted a => rw [stageAfter, if_neg (hadmissions a rfl)]
      | recovered | committed => rfl

end Event

/-- Nothing but a report moves an operation to another stage while it is in flight. -/
theorem Change.stage_eq {late : Bool} {h : Handle} {op op' : MicroOp} {event : Event}
    (hchange : Change late h op event op') (hcommit : event ≠ .committed ⟨h, op⟩)
    (hreports : ∀ command s, event = .told command → command.report? ≠ some (h, s)) :
    op'.stage = op.stage := by
  cases hchange with
  | issued | executing | executed => exact absurd rfl (hreports _ _ rfl)
  | performed | replayed => rfl
  | retired => exact absurd rfl hcommit

namespace Core

variable {W : Type} [Surroundings W] {c d : Core (Recorded W)} {event : Option Event}

theorem stage_of_report {command : Command} {h : Handle} {s : Stage} {op : MicroOp}
    (hstep : Step c (some (.told command)) d) (hreport : command.report? = some (h, s))
    (hop : c.pool.get? h = some op) (hopen : op.stage ≠ .retired) :
    (d.pool.get? h).map (·.stage) = some (op.stage.later s) := by
  have hmarked : ∀ f : MicroOp → MicroOp, (∀ op, (f op).id = op.id) →
      (f op).stage = op.stage.later s → d.pool = c.pool.modify h f →
      (d.pool.get? h).map (·.stage) = some (op.stage.later s) := by
    intro f hid hstage hpool
    rw [hpool, Pool.get?_modify_self hid, hop, Option.map_some, Option.map_some, hstage]
  cases command with
  | activate | deactivate | advance | add | performed | replay | arm => cases hreport
  | issued k =>
      cases hreport
      cases hstep
      exact hmarked MicroOp.markIssued (fun _ => rfl) rfl rfl
  | executing k =>
      cases hreport
      cases hstep
      exact hmarked (MicroOp.markExecuting c.config.lateAlloc) (fun _ => rfl) rfl
        (by rw [executing_eq])
  | executed k =>
      cases hreport
      cases hstep
      have hlast : op.stage.later .executed = .executed := by
        cases hs : op.stage <;> simp_all [Stage.later, Stage.rank]
      obtain ⟨hgone, -⟩ | ⟨old, -, heq⟩ := executed_cases c h
      · rw [hop] at hgone
        cases hgone
      · exact hmarked (MicroOp.markExecuted c.clock) (fun _ => rfl) hlast.symm (by rw [heq])

/-- Every operation in flight is at the stage that the history says. -/
def StagesAsTold (past : List Event) (c : Core (Recorded W)) : Prop :=
  ∀ h ∈ c.inFlight, (c.op? h).map (·.stage) = some (Event.stage past h)

theorem StagesAsTold.step {past : List Event} (ht : StagesAsTold past c) (hc : c.Consistent)
    (hstep : Step c event d) : StagesAsTold (past ++ event.toList) d := by
  intro h hmem
  obtain hold | ⟨a, rfl, rfl⟩ := hc.mem_inFlight_of_step hstep hmem
  · by_cases hreported : ∃ command s, event = some (.told command) ∧ command.report? = some (h, s)
    · obtain ⟨command, s, rfl, hreport⟩ := hreported
      obtain ⟨op, hop, hopen⟩ := hc.live h hold
      have hstage := ht h hold
      rw [op?, hop, Option.map_some, Option.some.injEq] at hstage
      rw [op?, stage_of_report hstep hreport hop hopen, Option.toList_some, Event.stage_append,
        Event.stageAfter_report _ hreport, hstage]
    · have hsilent : ∀ command s, event = some (.told command) → command.report? ≠ some (h, s) :=
        fun command s hevent hreport => hreported ⟨command, s, hevent, hreport⟩
      have hadmitted : ∀ a, event = some (.admitted a) → a.handle ≠ h := by
        rintro a rfl rfl
        exact hc.not_mem_of_admitted hstep hold
      rw [op?, hc.kept_step (f := (·.stage)) hstep hold hmem fun {e op op'} hevent hchange => ?_]
      · rw [Event.stage_of_silent past hsilent hadmitted]
        exact ht h hold
      · refine hchange.stage_eq ?_ fun command s he => hsilent command s (he ▸ hevent)
        rintro rfl
        subst hevent
        exact hc.not_mem_of_committed hstep hmem
  · have hfresh : a.op.stage = .renamed := by
      cases hstep with
      | @accept op world queue hroom hanswer hqueue =>
          obtain ⟨order, window, hop⟩ := op_admitOp (c := { c with world }) hc.pool op
          rw [hop]
          rfl
    rw [op?, hc.get?_of_admitted hstep, Option.map_some, hfresh, Option.toList_some,
      Event.stage_append, Event.stageAfter, if_pos rfl]

omit [Surroundings W] in
/-- A fresh core has nothing in flight. -/
theorem stagesAsTold_create {config : CoreConfig} {hart : Nat} {world : W}
    (hstart : create config hart ⟨world, []⟩ = .ok c) : StagesAsTold [] c := by
  obtain ⟨-, rfl⟩ := create_eq hstart
  exact fun h hmem => absurd hmem List.not_mem_nil

theorem StagesAsTold.of_steps {config : CoreConfig} {hart : Nat} {world : W}
    {start : Core (Recorded W)} {past : List Event}
    (hstart : create config hart ⟨world, []⟩ = .ok start) (hsteps : Steps start past c) :
    StagesAsTold past c :=
  (hsteps.keeps (P := fun past e => e.Consistent ∧ StagesAsTold past e)
    (fun hpast hstep => ⟨hpast.1.step hstep, hpast.2.step hpast.1 hstep⟩)
    ⟨.of_create hstart, stagesAsTold_create hstart⟩).2

end Core

end OutOfOrder
