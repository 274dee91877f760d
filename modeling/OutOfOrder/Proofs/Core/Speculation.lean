import OutOfOrder.Proofs.Core.Calls
import OutOfOrder.Proofs.Core.Progress
import OutOfOrder.Proofs.Core.Waiting

/-!
# A safe load has nothing unresolved in front of it

A load that is admitted has to guess if an older operation is open: a memory operation
whose address is not known yet, or a branch or divide without a result. The core looks for
such an operation in the reorder buffer alone, although what was promoted and has not
committed is older than the load too.

It need not look there as long as the cluster promotes nothing but what has executed. In
flight no operation ever falls back to an earlier stage, whatever is reported of it and in
whatever order, so what stands in the retiring buffer has executed still, and what has
executed is not open. That the cluster promotes nothing else is an assumption on its
answers: the core asks and does not check.

The operations in front of a load, and how far each has come, are read off the history:
`Event.inFlight` names them, and `Event.unresolved` counts only what was reported of each
since its own admission.
-/

namespace OutOfOrder

/-- What has executed is nothing to guess past. -/
theorem MicroOp.isUnresolved_of_isExecuted {op : MicroOp} (h : op.isExecuted = true) :
    op.isUnresolved = false := by
  have hexecuting : op.isExecuting = true :=
    decide_eq_true (Nat.le_trans (by decide) (of_decide_eq_true h))
  rw [isUnresolved, h, hexecuting, Bool.not_true, Bool.and_false, Bool.and_false, Bool.or_false]

/-- Whether the operation that the call lets move on has executed, if it lets one. -/
def Call.promotesExecuted : Call → Bool
  | mayPromote op _ true => op.isExecuted
  | _ => true

namespace Event

/-- Whether an admitted operation is one to guess past, going by what was reported of it: a
load or store that has not begun to execute, or a branch or divide that has not executed. -/
def unresolved (past : List Event) (b : Admission) : Bool :=
  (b.offered.inst.opcode.isMemory &&
      decide ((stage past b.handle).rank < Stage.executing.rank))
    || ((b.offered.inst.opcode.isBranch || b.offered.inst.opcode.isLongLatency) &&
      decide ((stage past b.handle).rank < Stage.executed.rank))

/-- A report can only take an operation further. -/
theorem rank_stage_le {h : Handle} {event : Option Event} (past : List Event)
    (hadmissions : ∀ a, event = some (.admitted a) → a.handle ≠ h) :
    (stage past h).rank ≤ (stage (past ++ event.toList) h).rank := by
  by_cases hreported : ∃ command s, event = some (.told command) ∧ command.report? = some (h, s)
  · obtain ⟨command, s, rfl, hreport⟩ := hreported
    rw [Option.toList_some, stage_append, stageAfter_report _ hreport, Stage.rank_later]
    exact Nat.le_max_left _ _
  · have hsame := stage_of_silent past (fun command s hevent hreport =>
      hreported ⟨command, s, hevent, hreport⟩) hadmissions
    exact Nat.le_of_eq (congrArg Stage.rank hsame.symm)

/-- What has not committed had not before, or has just been admitted. -/
theorem mem_inFlight_append {past : List Event} {event : Option Event} {b : Admission}
    (hb : b ∈ inFlight (past ++ event.toList)) :
    b ∈ inFlight past ∨ event = some (.admitted b) := by
  rw [inFlight, admissions_append, commits_append, List.length_append, List.drop_append] at hb
  refine (List.mem_append.1 hb).imp (fun hold => ?_) fun hnew =>
    eq_admitted_of_mem (List.mem_of_mem_drop hnew)
  rw [← List.drop_drop] at hold
  exact List.mem_of_mem_drop hold

end Event

namespace Core

variable {W : Type} [Surroundings W] {c d : Core (Recorded W)} {event : Option Event}

/-- What a step asks is asked in addition. -/
theorem calls_subset_step (hstep : Step c event d) : c.world.calls ⊆ d.world.calls := by
  obtain ⟨new, hasked⟩ := asked_step hstep
  rw [hasked.calls]
  exact List.subset_append_left _ _

theorem calls_subset_steps {events : List Event} (hsteps : Steps c events d) :
    c.world.calls ⊆ d.world.calls :=
  hsteps.keeps (P := fun _ e => c.world.calls ⊆ e.world.calls)
    (fun hpast hstep => List.Subset.trans hpast (calls_subset_step hstep)) (List.Subset.refl _)

/-- Whatever is in the retiring buffer was there, or the cluster has just let it go. -/
theorem mem_retiring_step {h : Handle} (hc : c.Consistent) (hstep : Step c event d)
    (hmem : h ∈ d.retiring.toList) :
    h ∈ c.retiring.toList ∨ event = none ∧ ∃ op flushing,
      c.op? h = some op ∧ .mayPromote op flushing true ∈ d.world.calls := by
  cases hstep with
  | activate | deactivate | arm | issued | rest | recover | charge | refuse | accept | holdRob
  | dropRob | sample | holdRetiring => exact .inl hmem
  | executing k =>
      rw [executing_eq] at hmem
      exact .inl hmem
  | executed k =>
      obtain ⟨-, heq⟩ | ⟨op, -, heq⟩ := executed_cases c k <;> rw [heq] at hmem <;>
        exact .inl hmem
  | performed k =>
      obtain ⟨op, -, -, heq⟩ | ⟨-, heq⟩ := performed_cases c k <;> rw [heq] at hmem <;>
        exact .inl hmem
  | replay k =>
      obtain ⟨world, recovery, stats, heq | heq⟩ := replay_eq c k <;> rw [heq] at hmem <;>
        exact .inl hmem
  | fetch => exact .inl ((sameOps_fetch c).retiring ▸ hmem)
  | tick => exact .inl ((sameOps_tick c).retiring ▸ hmem)
  | decode => exact .inl ((sameOps_decode c).retiring ▸ hmem)
  | @promote k op world htop hop hanswer =>
      have hroom : c.retiring.size < c.retiring.capacity := by
        have hlength := hc.length_lt
        rw [hc.length_inFlight, occupancy] at hlength
        rw [hc.retiring_capacity]
        omega
      rw [RingBuffer.toList_push hc.retiring k hroom, List.mem_append, List.mem_singleton] at hmem
      rcases hmem with hold | rfl
      · exact .inl hold
      · refine .inr ⟨rfl, op, c.recovery.flushing, hop, ?_⟩
        rw [Recorded.calls_mayPromote hanswer]
        exact List.mem_append_right _ (List.mem_singleton_self _)
  | @commit k op world htop hop hdelay hanswer =>
      rw [retiring_commit] at hmem
      rw [Consistent.toList_eq_cons hc.retiring htop]
      exact .inl (List.mem_cons_of_mem _ hmem)
  | dropRetiring htop hop => exact absurd hop (hc.get?_retiring_top? htop)

/-- What a load meets when it is admitted: the operations in front of it are those that
the history says, at the stages that it says, and if the cluster promoted nothing but what
had executed, then what it promoted has executed still. -/
structure InFront (past : List Event) (c : Core (Recorded W)) : Prop where
  consistent : c.Consistent
  told : StagesAsTold past c
  origins : ∀ b ∈ Event.inFlight past, b.handle ∈ c.inFlight ∧
    (c.op? b.handle).map MicroOp.origin = some b.offered.origin
  executed : (∀ call ∈ c.world.calls, call.promotesExecuted = true) →
    ∀ h ∈ c.retiring.toList, Stage.executed.rank ≤ (Event.stage past h).rank

namespace InFront

theorem origins_step {past : List Event} (hf : InFront past c) (hstep : Step c event d)
    (hhandles : (Event.inFlight (past ++ event.toList)).map (·.handle) = d.inFlight) :
    ∀ b ∈ Event.inFlight (past ++ event.toList), b.handle ∈ d.inFlight ∧
      (d.op? b.handle).map MicroOp.origin = some b.offered.origin := by
  intro b hb
  have hmem : b.handle ∈ d.inFlight := hhandles ▸ List.mem_map_of_mem hb
  refine ⟨hmem, ?_⟩
  rcases Event.mem_inFlight_append hb with hold | rfl
  · obtain ⟨hbefore, horigin⟩ := hf.origins b hold
    rw [← horigin]
    exact hf.consistent.kept_step hstep hbefore hmem fun _ hchange => hchange.origin_eq
  · rw [op?, hf.consistent.get?_of_admitted hstep, Option.map_some,
      origin_of_admitted hf.consistent hstep]

/-- What has executed stays so, and what is promoted has. -/
theorem executed_step {past : List Event} (hf : InFront past c) (hstep : Step c event d)
    (hpromotes : ∀ call ∈ d.world.calls, call.promotesExecuted = true) :
    ∀ h ∈ d.retiring.toList,
      Stage.executed.rank ≤ (Event.stage (past ++ event.toList) h).rank := by
  intro h hmem
  rcases mem_retiring_step hf.consistent hstep hmem with hold | ⟨rfl, op, flushing, hop, hcall⟩
  · have hbefore := hf.executed
      (fun call hcall => hpromotes call (calls_subset_step hstep hcall)) h hold
    refine Nat.le_trans hbefore (Event.rank_stage_le past ?_)
    rintro a rfl rfl
    exact hf.consistent.not_mem_of_admitted hstep (List.mem_append_left _ hold)
  · have hexecuted : Stage.executed.rank ≤ op.stage.rank :=
      of_decide_eq_true (hpromotes _ hcall)
    have hflight : h ∈ c.inFlight := by
      have hsame : [] ++ d.inFlight = c.inFlight ++ [] := hf.consistent.inFlight_step hstep
      rw [List.nil_append, List.append_nil] at hsame
      exact hsame ▸ List.mem_append_left _ hmem
    have hstage := hf.told h hflight
    rw [hop, Option.map_some, Option.some.injEq] at hstage
    rw [Option.toList_none, List.append_nil, ← hstage]
    exact hexecuted

theorem of_steps {config : CoreConfig} {hart : Nat} {world : W} {start : Core (Recorded W)}
    {past : List Event} (hstart : create config hart ⟨world, []⟩ = .ok start)
    (hsteps : Steps start past c) : InFront past c := by
  refine (hsteps.keeps (P := fun past e => Steps start past e ∧ InFront past e) ?_
    ⟨.refl _, ?_⟩).2
  · intro past e event e' ⟨hbefore, hf⟩ hstep
    have hafter := hbefore.snoc hstep
    exact ⟨hafter, hf.consistent.step hstep, hf.told.step hf.consistent hstep,
      hf.origins_step hstep (inFlight_past hstart hafter), hf.executed_step hstep⟩
  · refine ⟨.of_create hstart, stagesAsTold_create hstart,
      fun b hb => absurd hb List.not_mem_nil, fun _ h hmem => ?_⟩
    obtain ⟨-, rfl⟩ := create_eq hstart
    exact absurd hmem List.not_mem_nil

omit [Surroundings W] in
/-- Whether an operation in flight is one to guess past is what the history says. -/
theorem isUnresolved_eq {past : List Event} (hf : InFront past c) {b : Admission}
    (hb : b ∈ Event.inFlight past) :
    (c.op? b.handle).map MicroOp.isUnresolved = some (Event.unresolved past b) := by
  obtain ⟨hmem, horigin⟩ := hf.origins b hb
  have hstage := hf.told b.handle hmem
  obtain ⟨op, hop, -⟩ := hf.consistent.live b.handle hmem
  have hop : c.op? b.handle = some op := hop
  rw [hop, Option.map_some, Option.some.injEq] at horigin hstage
  have hinst : op.inst = b.offered.inst := congrArg MicroOp.Origin.inst horigin
  have hopen : ∀ s : Stage, (!decide (s.rank ≤ op.stage.rank)) = decide (op.stage.rank < s.rank) :=
    fun s => by rw [← decide_not, decide_eq_decide, Nat.not_le]
  rw [hop, Option.map_some, MicroOp.isUnresolved, MicroOp.isExecuting, MicroOp.isExecuted,
    hopen, hopen, Event.unresolved, hinst, hstage]

omit [Surroundings W] in
/-- A look at the reorder buffer is enough. -/
theorem hasUnresolved_eq {past : List Event} (hf : InFront past c)
    (hhandles : (Event.inFlight past).map (·.handle) = c.inFlight)
    (hpromotes : ∀ call ∈ c.world.calls, call.promotesExecuted = true) :
    c.hasUnresolved = (Event.inFlight past).any (Event.unresolved past) := by
  have hretiring : (c.retiring.toList.any fun h => (c.op? h).any MicroOp.isUnresolved) = false := by
    rw [List.any_eq_false]
    intro h hmem
    have hflight : h ∈ c.inFlight := List.mem_append_left _ hmem
    have hstage := hf.told h hflight
    obtain ⟨op, hop, -⟩ := hf.consistent.live h hflight
    have hop : c.op? h = some op := hop
    rw [hop, Option.map_some, Option.some.injEq] at hstage
    have hexecuted : op.isExecuted = true :=
      decide_eq_true (hstage ▸ hf.executed hpromotes h hmem)
    rw [hop, Option.any_some, MicroOp.isUnresolved_of_isExecuted hexecuted]
    exact Bool.false_ne_true
  calc c.hasUnresolved
      = (c.rob.toList.any fun h => (c.op? h).any MicroOp.isUnresolved) := rfl
    _ = c.inFlight.any fun h => (c.op? h).any MicroOp.isUnresolved := by
        rw [inFlight, List.any_append, hretiring, Bool.false_or]
    _ = (Event.inFlight past).any fun b => (c.op? b.handle).any MicroOp.isUnresolved := by
        rw [← hhandles, List.any_map]
        rfl
    _ = (Event.inFlight past).any (Event.unresolved past) := by
        rw [Bool.eq_iff_iff, List.any_eq_true, List.any_eq_true]
        refine exists_congr fun b => and_congr_right fun hb => ?_
        obtain ⟨op, hop, hunresolved⟩ := Option.map_eq_some_iff.1 (hf.isUnresolved_eq hb)
        rw [hop, Option.any_some, hunresolved]

end InFront

/-- A load is told apart by what stands in the reorder buffer. -/
theorem speculative_of_admitted {a : Admission} (hc : c.Consistent)
    (hstep : Step c (some (.admitted a)) d) (hload : a.offered.inst.opcode.isLoad = true) :
    a.op.speculative = c.hasUnresolved ∧ a.op.safe = !c.hasUnresolved := by
  cases hstep with
  | @accept op world queue hroom hanswer hqueue =>
      have hload : op.inst.opcode.isLoad = true := hload
      obtain ⟨order, window, hop⟩ := op_admitOp (c := { c with world }) hc.pool op
      rw [hop]
      exact ⟨if_pos hload, if_pos hload⟩

/-- **A safe load has no unresolved older operation.** Whatever surrounds a core and
whatever is done to it, if the cluster promotes only what has executed, then a load is
admitted speculative if some operation that was admitted before it and has not committed, in
either buffer, is a load or store that was not reported executing or a branch or divide that
was not reported executed; and it is admitted safe if there is none. What was admitted is
what the handle of the load names from then on. -/
theorem safe_iff_nothing_unresolved_in_front {config : CoreConfig} {hart : Nat} {world : W}
    {start : Core (Recorded W)} (hstart : create config hart ⟨world, []⟩ = .ok start)
    (commands : List Command)
    (hpromotes : ∀ call ∈ (start.run commands).2.world.calls, call.promotesExecuted = true)
    (earlier : List Event) (a : Admission) (later : List Event)
    (hpast : start.history commands = earlier ++ .admitted a :: later)
    (hload : a.offered.inst.opcode.isLoad = true) :
    a.op.speculative = (Event.inFlight earlier).any (Event.unresolved earlier) ∧
      a.op.safe = !(Event.inFlight earlier).any (Event.unresolved earlier) ∧
      ∃ c d, Steps start earlier c ∧ Step c (some (.admitted a)) d ∧
        Steps d later (start.run commands).2 ∧ d.op? a.handle = some a.op ∧
        (Event.inFlight earlier).map (·.handle) = c.retiring.toList ++ c.rob.toList ∧
        ∀ b ∈ Event.inFlight earlier,
          (c.op? b.handle).map MicroOp.isUnresolved = some (Event.unresolved earlier b) := by
  obtain ⟨c, d, hbefore, hstep, hafter⟩ := (steps_run start commands).split hpast
  have hf := InFront.of_steps hstart hbefore
  have hhandles := inFlight_past hstart hbefore
  have hasked : ∀ call ∈ c.world.calls, call.promotesExecuted = true := fun call hcall =>
    hpromotes call (calls_subset_steps hafter (calls_subset_step hstep hcall))
  obtain ⟨hspeculative, hsafe⟩ := speculative_of_admitted hf.consistent hstep hload
  rw [hf.hasUnresolved_eq hhandles hasked] at hspeculative hsafe
  exact ⟨hspeculative, hsafe, c, d, hbefore, hstep, hafter,
    hf.consistent.get?_of_admitted hstep, hhandles, fun b hb => hf.isUnresolved_eq hb⟩

/-- A divide that has executed and waits for its commit, a store and two loads. The first
load comes while the store waits and is speculative; when the second comes both have begun
to execute, and it is safe. -/
theorem load_safe_once_store_executes :
    let op : Nat → Opcode → MicroOp := fun id opcode =>
      { id, pc := 0, inst := { opcode, src1 := some 5, dst1 := some 6 } }
    let config : CoreConfig := { maxRobSize := 8, retireDelay := 9 }
    let world : Obliging :=
      { buckets := [[op 2 .store, op 3 .load], [op 4 .load]] }
    let start : Core (Recorded Obliging) := .initial config 0 ⟨world, []⟩
    let commands : List Command :=
      [.activate, .add (op 1 .div), .executed ⟨0, 1⟩, .advance, .executing ⟨1, 2⟩,
        .executing ⟨2, 3⟩, .advance]
    let past := start.history commands
    let first := ((Event.admissions past)[2]?).getD default
    let second := ((Event.admissions past)[3]?).getD default
    create config 0 ⟨world, []⟩ = .ok start ∧
      (∀ call ∈ (start.run commands).2.world.calls, call.promotesExecuted = true) ∧
      past = past.take 4 ++ .admitted first :: past.drop 5 ∧
      past = past.take 7 ++ [.admitted second] ∧
      first.offered.inst.opcode.isLoad = true ∧ second.offered.inst.opcode.isLoad = true ∧
      first.op.speculative = true ∧ first.op.safe = false ∧
      second.op.speculative = false ∧ second.op.safe = true ∧
      ∃ c d, Steps start (past.take 7) c ∧ Step c (some (.admitted second)) d ∧
        d.op? second.handle = some second.op ∧
        c.retiring.toList ++ c.rob.toList = [⟨0, 1⟩, ⟨1, 2⟩, ⟨2, 3⟩] := by
  intro op config world start commands past first second
  have hstart : create config 0 ⟨world, []⟩ = .ok start := rfl
  have hpromotes : ∀ call ∈ (start.run commands).2.world.calls, call.promotesExecuted = true := by
    decide +kernel
  have hfirst : past = past.take 4 ++ .admitted first :: past.drop 5 := by decide +kernel
  have hsecond : past = past.take 7 ++ [.admitted second] := by decide +kernel
  have hload : first.offered.inst.opcode.isLoad = true ∧
    second.offered.inst.opcode.isLoad = true := by decide +kernel
  obtain ⟨hspeculative, hunsafe, -⟩ :=
    safe_iff_nothing_unresolved_in_front hstart commands hpromotes _ first _ hfirst hload.1
  obtain ⟨hcertain, hsafe, c, d, hbefore, hstep, -, hnamed, hhandles, -⟩ :=
    safe_iff_nothing_unresolved_in_front hstart commands hpromotes _ second [] hsecond hload.2
  have hopen : ((Event.inFlight (past.take 4)).any (Event.unresolved (past.take 4)) = true) ∧
    (Event.inFlight (past.take 7)).any (Event.unresolved (past.take 7)) = false ∧
    (Event.inFlight (past.take 7)).map (·.handle) = [⟨0, 1⟩, ⟨1, 2⟩, ⟨2, 3⟩] := by decide +kernel
  obtain ⟨hfull, hnone, horder⟩ := hopen
  rw [hfull] at hspeculative hunsafe
  rw [hnone] at hcertain hsafe
  exact ⟨hstart, hpromotes, hfirst, hsecond, hload.1, hload.2, hspeculative, hunsafe, hcertain,
    hsafe, c, d, hbefore, hstep, hnamed, hhandles.symm.trans horder⟩

end Core

end OutOfOrder
