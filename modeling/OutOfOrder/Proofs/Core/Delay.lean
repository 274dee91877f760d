import Mathlib.Data.List.Induction
import OutOfOrder.Proofs.Core.Busy
import OutOfOrder.Proofs.Core.Speculation
import OutOfOrder.Proofs.Core.Stream

/-!
# How long an operation waits before it commits

An operation may commit once the retire delay has passed since it executed, and the core
goes by a stamp for this: the clock at the report that it executed. Such a report may come
again while the operation waits for its commit, and then it is stamped again, so that the
delay counts from the last report.

The commit looks at the stamp and not at the stage. An operation that has not executed has
a stamp too, the one that it was offered with. It does not get as far as that as long as
the cluster promotes only what has executed, which is an assumption on its answers.

Between two reports a stamp does not move, whoever else is reported, admitted or committed
(`Steps.completion_before`). So the stamp of an operation in flight is read off the
commands: `LastExecuted` is the last report about it and the clock at that report.
-/

namespace OutOfOrder

/-- Whose execution is complete, and the clock at the last report that says so. -/
def MicroOp.completion? (op : MicroOp) : Option (Origin × Nat) :=
  if op.isExecuted then some (op.origin, op.executedAt) else none

/-- Nothing but the report that it executed completes an operation in flight. -/
theorem Change.completion?_eq {late : Bool} {h : Handle} {op op' : MicroOp} {event : Event}
    (hchange : Change late h op event op') (hcommit : event ≠ .committed ⟨h, op⟩)
    (hreport : event ≠ .told (.executed h)) : op'.completion? = op.completion? := by
  cases hchange with
  | issued => rw [MicroOp.completion?, MicroOp.isExecuted_markIssued]; rfl
  | executing => rw [MicroOp.completion?, MicroOp.isExecuted_markExecuting]; rfl
  | executed => exact absurd rfl hreport
  | performed | replayed => rfl
  | retired => exact absurd rfl hcommit

namespace Core

section Cycle

variable {W : Type} [Surroundings W] {c d : Core W}

/-- The clock never goes back. -/
theorem clock_le_step {event : Option Event} (hstep : Step c event d) : c.clock ≤ d.clock := by
  have hsame : ∀ {d : Core W}, d.clock = c.clock → c.clock ≤ d.clock :=
    fun heq => Nat.le_of_eq heq.symm
  cases hstep with
  | fetch =>
      obtain ⟨_, _, _, heq⟩ := fetch_eq c
      exact hsame (by rw [heq])
  | tick =>
      unfold tick
      dsimp only
      split <;> exact Nat.le_succ _
  | decode =>
      obtain ⟨_, _, _, heq⟩ := decode_eq c
      exact hsame (by rw [heq])
  | executing h => exact hsame (by rw [executing_eq])
  | executed h =>
      rcases executed_cases c h with ⟨-, heq⟩ | ⟨op, -, heq⟩ <;> exact hsame (by rw [heq])
  | performed h =>
      rcases performed_cases c h with ⟨op, -, -, heq⟩ | ⟨-, heq⟩ <;> exact hsame (by rw [heq])
  | replay h =>
      obtain ⟨_, _, _, heq | heq⟩ := replay_eq c h <;> exact hsame (by rw [heq])
  | commit =>
      unfold commit settle
      split <;> exact Nat.le_refl _
  | activate | deactivate | arm | issued | rest | recover | charge | refuse | accept | holdRob
  | promote | dropRob | sample | holdRetiring | dropRetiring => exact Nat.le_refl _

theorem clock_le_steps {events : List Event} (hsteps : Steps c events d) : c.clock ≤ d.clock :=
  hsteps.keeps (P := fun _ e => c.clock ≤ e.clock)
    (fun hpast hstep => Nat.le_trans hpast (clock_le_step hstep)) (Nat.le_refl _)

/-! ## The width -/

theorem length_commitUpTo_le (n : Nat) (c : Core W) : (commitUpTo n c).1.length ≤ n := by
  induction n generalizing c with
  | zero => exact Nat.le_refl 0
  | succ n ih =>
      rw [commitUpTo]
      split
      · exact Nat.zero_le _
      · split
        · exact Nat.le_succ_of_le (ih _)
        · split
          · exact Nat.zero_le _
          · split
            · exact Nat.zero_le _
            · exact Nat.succ_le_succ (ih _)

theorem length_retire_le (c : Core W) : c.retire.1.length ≤ c.config.retireWidth :=
  length_commitUpTo_le c.config.retireWidth c.promote

/-- A cycle with nothing to do commits nothing, and any other retires once. -/
theorem committed_busyCycle (c : Core W) :
    c.busyCycle.1.committed = [] ∨
      ∃ d : Core W, d.config = c.config ∧ c.busyCycle.1.committed = d.retire.1 := by
  by_cases hwork : c.decode.HasWork
  · obtain ⟨d, hsteps, -, -, hcommitted, -⟩ := endsInRetire_busyCycle hwork
    exact .inr ⟨d, (config_steps hsteps).trans (config_step (.decode c)), hcommitted⟩
  · have hdrained := (not_hasWork_iff.1 hwork).2
    have hended : ¬ c.decode.finishRecovery.HasWork := hwork
    unfold busyCycle
    dsimp only
    rw [workCycle_of_idle hwork, workCycle_of_idle hended, hdrained]
    split <;> exact .inl rfl

theorem length_committed_advance_le (c : Core W) :
    c.advance.1.committed.length ≤ c.config.retireWidth := by
  cases hactive : c.active with
  | false =>
      unfold advance
      rw [hactive]
      exact Nat.zero_le _
  | true =>
      rcases advance_cases hactive with ⟨-, heq⟩ | ⟨-, heq⟩ <;> rw [heq]
      · have hconfig : c.fetch.tick.config = c.config :=
          (config_step (.tick _)).trans (config_step (.fetch c))
        rcases committed_busyCycle c.fetch.tick with hnone | ⟨d, hsame, hcommitted⟩
        · rw [hnone]
          exact Nat.zero_le _
        · rw [hcommitted, ← hconfig, ← hsame]
          exact length_retire_le d
      · exact Nat.zero_le _

/-- A cycle that says that nothing runs has committed nothing. -/
theorem committed_of_not_running (hstops : c.advance.1.running = false) :
    c.advance.1.committed = [] := by
  cases hactive : c.active with
  | false =>
      unfold advance
      rw [hactive]
      rfl
  | true =>
      rcases advance_cases hactive with ⟨hbusy, heq⟩ | ⟨-, heq⟩ <;> rw [heq]
      rw [heq, (busy_busyCycle hbusy).1] at hstops
      cases hstops

/-- In the history of a cycle, what it commits comes after all that it admits. -/
theorem events_advance_split {n : NamedOp} (hn : n ∈ c.advance.1.committed) :
    ∃ earlier later, (Reply.cycle c.advance.1).events .advance =
        earlier ++ .committed n :: later ∧
      Event.admissions earlier = c.advance.1.admitted := by
  obtain ⟨first, last, hcommitted⟩ := List.append_of_mem hn
  refine ⟨(if c.advance.1.recovered then [.recovered] else []) ++
    c.advance.1.admitted.map .admitted ++ first.map .committed, last.map .committed, ?_, ?_⟩
  · rw [Reply.events, hcommitted, List.map_append, List.map_cons]
    simp only [List.append_assoc]
  · rw [Event.admissions_append, Event.admissions_append, Event.admissions_map_admitted,
      Event.admissions_map_committed, List.append_nil]
    cases c.advance.1.recovered <;> rfl

end Cycle

/-! ## Stamps -/

variable {W : Type} [Surroundings W] {c d : Core (Recorded W)}

/-- What was admitted has not executed yet. -/
theorem completion?_of_admitted {a : Admission} (hc : c.Consistent)
    (hstep : Step c (some (.admitted a)) d) : a.op.completion? = none := by
  cases hstep with
  | @accept op world queue hroom hanswer hqueue =>
      obtain ⟨order, window, hop⟩ := op_admitOp (c := { c with world }) hc.pool op
      rw [hop]
      rfl

/-- An operation that is complete after steps in which it was not reported executed was so
before them, with the same stamp. Its handle was given to nobody in between. -/
theorem Steps.completion_before {events : List Event} {h : Handle} {stamp : MicroOp.Origin × Nat}
    (hc : c.Consistent) (hsteps : Steps c events d) (hunreported : .told (.executed h) ∉ events)
    (hmem : h ∈ d.inFlight) (hstamp : (d.op? h).map (·.completion?) = some (some stamp)) :
    h ∈ c.inFlight ∧ (c.op? h).map (·.completion?) = some (some stamp) ∧
      ∀ a ∈ Event.admissions events, a.handle ≠ h := by
  refine (hsteps.keeps (P := fun past e => e.Consistent ∧ (.told (.executed h) ∉ past →
    h ∈ e.inFlight → (e.op? h).map (·.completion?) = some (some stamp) →
      h ∈ c.inFlight ∧ (c.op? h).map (·.completion?) = some (some stamp) ∧
        ∀ a ∈ Event.admissions past, a.handle ≠ h)) ?_
    ⟨hc, fun _ hmem hstamp => ⟨hmem, hstamp, fun a ha => absurd ha List.not_mem_nil⟩⟩).2
      hunreported hmem hstamp
  rintro past e event e' ⟨he, hpast⟩ hstep
  refine ⟨he.step hstep, fun hunreported hmem hstamp => ?_⟩
  rw [List.mem_append, not_or, Option.mem_toList] at hunreported
  rcases he.mem_inFlight_of_step hstep hmem with hold | ⟨a, rfl, rfl⟩
  · have hkept : (e'.pool.get? h).map (·.completion?) = (e.pool.get? h).map (·.completion?) := by
      refine he.kept_step hstep hold hmem fun {_ op op'} hevent hchange => ?_
      refine hchange.completion?_eq ?_ fun heq => hunreported.2 (heq ▸ hevent)
      rintro rfl
      subst hevent
      exact he.not_mem_of_committed hstep hmem
    obtain ⟨hbefore, hstamped, hnobody⟩ := hpast hunreported.1 hold (hkept.symm.trans hstamp)
    refine ⟨hbefore, hstamped, fun a ha => ?_⟩
    rw [Event.admissions_append, List.mem_append] at ha
    refine ha.elim (hnobody a) fun hnew heq => ?_
    obtain rfl := Event.eq_admitted_of_mem hnew
    exact he.not_mem_of_admitted hstep (heq ▸ hold)
  · rw [op?, he.get?_of_admitted hstep, Option.map_some, completion?_of_admitted he hstep] at hstamp
    cases hstamp

/-- The operation that `h` names was admitted as `a`, and the last report since then that it
executed came when the clock stood at `clock`. -/
def LastExecuted (start : Core (Recorded W)) (commands : List Command) (h : Handle)
    (a : Admission) (clock : Nat) : Prop :=
  ∃ before between, commands = before ++ .executed h :: between ∧ .executed h ∉ between ∧
    LastAdmitted (start.history before) h a ∧
    (∀ b ∈ Event.admissions ((start.run before).2.history (.executed h :: between)),
      b.handle ≠ h) ∧
    (start.run before).2.clock = clock

theorem LastExecuted.snoc {start : Core (Recorded W)} {commands : List Command} {h : Handle}
    {a : Admission} {clock : Nat} (hlast : LastExecuted start commands h a clock)
    {command : Command} (hother : command ≠ .executed h)
    (hnobody : ∀ b ∈ Event.admissions (((start.run commands).2.perform command).1.events command),
      b.handle ≠ h) : LastExecuted start (commands ++ [command]) h a clock := by
  obtain ⟨before, between, rfl, hbetween, ha, hadmissions, hclock⟩ := hlast
  refine ⟨before, between ++ [command], by simp, ?_, ha, fun b hb => ?_, hclock⟩
  · rw [List.mem_append, List.mem_singleton, not_or]
    exact ⟨hbetween, hother.symm⟩
  · rw [← List.cons_append, history_append, Event.admissions_append, List.mem_append] at hb
    refine hb.elim (hadmissions b) fun hb => hnobody b ?_
    rw [run_append]
    simpa [history] using hb

/-- An operation in the pool is the last that was admitted under its handle. -/
theorem lastAdmitted_of_op? {config : CoreConfig} {hart : Nat} {world : W}
    {start : Core (Recorded W)} {past : List Event} {h : Handle} {op : MicroOp}
    (hstart : create config hart ⟨world, []⟩ = .ok start) (hsteps : Steps start past c)
    (hop : c.op? h = some op) : ∃ a, LastAdmitted past h a ∧ op.origin = a.offered.origin := by
  have hc := Consistent.of_create hstart
  obtain ⟨-, hpast⟩ := hsteps.keeps (P := fun past e => e.Consistent ∧ ∀ h op,
    e.pool.get? h = some op → ∃ a, LastAdmitted past h a ∧ op.settled = a.op.settled)
    (fun hpast hstep => ⟨hpast.1.step hstep, settled_past_step hpast.1 hstep hpast.2⟩)
    ⟨hc, (Linked.of_create hstart).settled⟩
  obtain ⟨a, hlast, hsettled⟩ := hpast h op hop
  refine ⟨a, hlast, (congrArg MicroOp.Settled.origin hsettled).trans ?_⟩
  obtain ⟨earlier, later, rfl, -⟩ := hlast
  refine hc.forall_admissions hsteps origin_of_admitted a ?_
  rw [Event.admissions_append]
  exact List.mem_append_right _ List.mem_cons_self

/-- The stamp of an operation in flight is that of the last report about it. -/
theorem stamped_as_told {config : CoreConfig} {hart : Nat} {world : W} {start : Core (Recorded W)}
    (hstart : create config hart ⟨world, []⟩ = .ok start) (commands : List Command) {h : Handle}
    {origin : MicroOp.Origin} {clock : Nat} (hmem : h ∈ (start.run commands).2.inFlight)
    (hstamp : ((start.run commands).2.op? h).map (·.completion?) = some (some (origin, clock))) :
    ∃ a, LastExecuted start commands h a clock ∧ a.offered.origin = origin := by
  induction commands using List.reverseRecOn with
  | nil =>
      obtain ⟨-, rfl⟩ := create_eq hstart
      exact absurd hmem List.not_mem_nil
  | append_singleton rest command ih =>
      have hc := (Consistent.of_create hstart).steps (steps_run start rest)
      rw [run_append] at hmem hstamp
      by_cases hreport : command = .executed h
      · subst hreport
        have hstamp : (((start.run rest).2.executed h).op? h).map (·.completion?) =
          some (some (origin, clock)) := hstamp
        rcases executed_cases (start.run rest).2 h with ⟨hnone, heq⟩ | ⟨op, hop, heq⟩
        · rw [heq, op?, hnone] at hstamp
          cases hstamp
        · have hid : ∀ op : MicroOp, (op.markExecuted (start.run rest).2.clock).id = op.id :=
            fun _ => rfl
          rw [heq, op?, Pool.get?_modify_self hid, hop] at hstamp
          obtain ⟨rfl, rfl⟩ := Prod.mk.inj (Option.some.inj (Option.some.inj hstamp))
          obtain ⟨a, hlast, horigin⟩ := lastAdmitted_of_op? hstart (steps_run start rest) hop
          exact ⟨a, ⟨rest, [], rfl, List.not_mem_nil, hlast,
            fun b hb => absurd hb List.not_mem_nil, rfl⟩, horigin.symm⟩
      · have hunreported : .told (.executed h) ∉
            ((start.run rest).2.perform command).1.events command :=
          fun hmem => hreport (eq_of_told_mem_events hmem).symm
        obtain ⟨hbefore, hstamped, hnobody⟩ :=
          Steps.completion_before hc (steps_perform _ command) hunreported hmem hstamp
        obtain ⟨a, hlast, horigin⟩ := ih hbefore hstamped
        exact ⟨a, hlast.snoc hreport hnobody, horigin⟩

/-! ## Commits -/

/-- What commits has executed, if only such operations were promoted, and has not retired
before. -/
theorem InFront.stage_of_committed {past : List Event} (hf : InFront past c) {n : NamedOp}
    (hpromotes : ∀ call ∈ c.world.calls, call.promotesExecuted = true)
    (hstep : Step c (some (.committed n)) d) : n.op.stage = .executed := by
  have hop : c.pool.get? n.handle = some n.op := get?_of_committed hstep
  have hmem : n.handle ∈ c.retiring.toList := by
    cases hstep with
    | commit htop =>
        rw [RingBuffer.top?_eq_head? hf.consistent.retiring] at htop
        exact List.mem_of_head? htop
  have hflight : n.handle ∈ c.inFlight := List.mem_append_left _ hmem
  obtain ⟨op, hlive, hopen⟩ := hf.consistent.live n.handle hflight
  obtain rfl := Option.some.inj (hop.symm.trans hlive)
  have hstage := hf.told n.handle hflight
  rw [op?, hop, Option.map_some, Option.some.injEq] at hstage
  have hexecuted := hf.executed hpromotes n.handle hmem
  rw [← hstage] at hexecuted
  cases hs : n.op.stage with
  | executed => rfl
  | retired => exact absurd hs hopen
  | fetched | renamed | issued | executing => rw [hs] at hexecuted; simp [Stage.rank] at hexecuted

theorem delay_of_committed {n : NamedOp} (hstep : Step c (some (.committed n)) d) :
    n.op.executedAt + c.config.retireDelay < c.clock := by
  cases hstep with
  | commit htop hop hdelay => exact hdelay

/-- **Commit timing and width.** Whatever surrounds a core and whatever is done to it, if the
cluster promotes only what has executed, then whatever a cycle commits was reported executed
since it was admitted and is in that stage still, and the clock of the cycle is past the
clock at the last such report by more than the retire delay. A cycle commits at most as many
operations as the retire width, and none if it says that nothing is running. -/
theorem commits_after_delay {config : CoreConfig} {hart : Nat} {world : W}
    {start : Core (Recorded W)} (hstart : create config hart ⟨world, []⟩ = .ok start)
    (commands : List Command)
    (hpromotes : ∀ call ∈ (start.run (commands ++ [.advance])).2.world.calls,
      call.promotesExecuted = true) :
    let c := (start.run commands).2
    (∀ n ∈ c.advance.1.committed,
      (∃ a, LastExecuted start commands n.handle a n.op.executedAt ∧
        n.op.origin = a.offered.origin ∧ ∀ b ∈ c.advance.1.admitted, b.handle ≠ n.handle) ∧
      n.op.stage = .executed ∧ n.op.executedAt + config.retireDelay < c.advance.2.clock) ∧
      c.advance.1.committed.length ≤ config.retireWidth ∧
      (c.advance.1.running = false → c.advance.1.committed = []) := by
  intro c
  have hsteps : Steps start (start.history commands) c := steps_run start commands
  have hconfig : c.config = config := by
    rw [config_steps hsteps, (create_eq hstart).2]
    rfl
  refine ⟨fun n hn => ?_, hconfig ▸ length_committed_advance_le c, committed_of_not_running⟩
  obtain ⟨earlier, later, hevents, hadmitted⟩ := events_advance_split hn
  obtain ⟨d, d', hbefore, hstep, hafter⟩ := (steps_advance c).split hevents
  have hf := InFront.of_steps hstart (hsteps.append hbefore)
  rw [run_append] at hpromotes
  have hstage := hf.stage_of_committed (fun call hcall => hpromotes call
    (calls_subset_steps hafter (calls_subset_step hstep hcall))) hstep
  have hmem : n.handle ∈ d.inFlight :=
    hf.consistent.inFlight_committed hstep ▸ List.mem_cons_self
  have hstamp : (d.op? n.handle).map (·.completion?) =
      some (some (n.op.origin, n.op.executedAt)) := by
    rw [op?, get?_of_committed hstep, Option.map_some, MicroOp.completion?, MicroOp.isExecuted,
      hstage]
    rfl
  have hunreported : .told (.executed n.handle) ∉ earlier := by
    intro hmem
    have htold : .told (.executed n.handle) ∈ (Reply.cycle c.advance.1).events .advance :=
      hevents ▸ List.mem_append_left _ hmem
    cases eq_of_told_mem_events htold
  obtain ⟨hbegin, hstamped, hnobody⟩ := Steps.completion_before
    ((Consistent.of_create hstart).steps hsteps) hbefore hunreported hmem hstamp
  obtain ⟨a, hlast, horigin⟩ := stamped_as_told hstart commands hbegin hstamped
  refine ⟨⟨a, hlast, horigin.symm, hadmitted ▸ hnobody⟩, hstage, ?_⟩
  calc n.op.executedAt + config.retireDelay
      = n.op.executedAt + d.config.retireDelay := by rw [config_steps hbefore, hconfig]
    _ < d.clock := delay_of_committed hstep
    _ ≤ d'.clock := clock_le_step hstep
    _ ≤ c.advance.2.clock := clock_le_steps hafter

/-- A load is reported executed again while it waits for its commit, and waits anew. The third
cycle after the second report is the first that commits it, together with the one before it. -/
theorem load_waits_anew_after_second_report :
    let load : Nat → MicroOp := fun id =>
      { id, pc := 0, inst := { opcode := .load, src1 := some 5, dst1 := some 6 } }
    let config : CoreConfig := { maxRobSize := 6, retireDelay := 2 }
    let world : Obliging := { buckets := [[load 1, load 2]] }
    let start : Core (Recorded Obliging) := .initial config 0 ⟨world, []⟩
    let commands : List Command :=
      [.activate, .advance, .executed ⟨1, 2⟩, .executed ⟨0, 1⟩, .advance, .executed ⟨0, 1⟩,
        .advance, .advance]
    let c := (start.run commands).2
    create config 0 ⟨world, []⟩ = .ok start ∧
      (∀ call ∈ (start.run (commands ++ [.advance])).2.world.calls,
        call.promotesExecuted = true) ∧
      c.advance.1.committed.map (·.handle) = [⟨0, 1⟩, ⟨1, 2⟩] ∧ c.advance.2.clock = 5 ∧
      ∃ a, LastExecuted start commands ⟨0, 1⟩ a 2 := by
  intro load config world start commands c
  have hstart : create config 0 ⟨world, []⟩ = .ok start := rfl
  have hpromotes : ∀ call ∈ (start.run (commands ++ [.advance])).2.world.calls,
      call.promotesExecuted = true := by decide +kernel
  have hfirst : ∃ n ∈ (start.run commands).2.advance.1.committed,
      n.handle = ⟨0, 1⟩ ∧ n.op.executedAt = 2 := by decide +kernel
  obtain ⟨hwaits, -, -⟩ := commits_after_delay hstart commands hpromotes
  obtain ⟨n, hn, hhandle, hstamp⟩ := hfirst
  obtain ⟨⟨a, hlast, -⟩, -⟩ := hwaits n hn
  rw [hhandle, hstamp] at hlast
  exact ⟨hstart, hpromotes, by decide +kernel, by decide +kernel, a, hlast⟩

end Core

end OutOfOrder
