import OutOfOrder.Proofs.Core.Turnover
import OutOfOrder.Surroundings.Obliging

/-!
# What becomes of an operation that commits too early

An operation may commit before its memory effect is complete. It leaves the
buffers then but not the pool: retired, it waits for the report that completes
the effect, and that report releases it because it finds it retired.

Whether it still is, is the question of this file. The reports that an operation
was issued or that it executes never take one back, nor does a replay request.
The report that it executed does: it sets the stage whatever it was. An
operation that is reported executed once more after it has retired is therefore
not retired when its effect completes, so nothing releases it then, and as no
later report retires it again, it stays in the pool for good.
-/

namespace OutOfOrder.Core

variable {W : Type} [Surroundings W] {c d : Core (Recorded W)}

/-- An operation in the pool that is not in flight stays out of flight. It is
released if its memory effect is reported complete while it is retired, and
otherwise stays, retired if it was and was not reported executed. -/
theorem deferred_step {event : Option Event} {h : Handle} {op : MicroOp} (hc : c.Consistent)
    (hop : c.pool.get? h = some op) (hnot : h ∉ c.inFlight) (hstep : Step c event d) :
    h ∉ d.inFlight ∧
      (event = some (.told (.performed h)) ∧ op.stage = .retired ∧ d.pool.get? h = none ∨
        ∃ left, d.pool.get? h = some left ∧ left.origin = op.origin ∧
          (left.stage = .retired ↔ op.stage = .retired ∧ event ≠ some (.told (.executed h)))) := by
  have hturn := turnover_step hc.pool hstep
  -- What is in flight afterwards was so before, or is new and named nothing then.
  have hflight : h ∉ d.inFlight := by
    intro hmem
    obtain hmem | ⟨a, rfl, rfl⟩ := hc.mem_inFlight_of_step hstep hmem
    · exact hnot hmem
    · cases hturn with
      | quiet hadmissions => cases hadmissions
      | comes hpool => exact Option.some_ne_none op (hop.symm.trans hpool.before)
      | changes hchange => cases hchange
      | goes hleave => cases hleave
  refine ⟨hflight, ?_⟩
  cases hturn with
  | quiet hadmissions hcommits hidle hpool hregs hdepartures =>
      refine .inr ⟨op, hpool ▸ hop, rfl, (and_iff_left fun hevent => ?_).symm⟩
      exact Option.some_ne_none op (hop.symm.trans (hidle h hevent))
  | @comes a d hpool horigin hregs hlate hdepartures =>
      have hne : h ≠ a.handle := by
        rintro rfl
        exact Option.some_ne_none op (hop.symm.trans hpool.before)
      exact .inr ⟨op, (hpool.others h hne).trans hop, rfl, (and_iff_left nofun).symm⟩
  | @changes event k old left d hchange hpool hregs hdepartures =>
      by_cases hk : h = k
      · subst hk
        obtain rfl := Option.some.inj (hop.symm.trans hpool.before)
        have hcommit : event ≠ .committed ⟨h, op⟩ := by
          rintro rfl
          exact hnot (hc.inFlight_committed hstep ▸ List.mem_cons_self)
        refine .inr ⟨left, hpool.after, hchange.origin_eq, ?_⟩
        rw [hchange.stage_eq_retired_iff hcommit, ne_eq, ne_eq, Option.some.injEq]
      · refine .inr ⟨op, (hpool.others h hk).trans hop, rfl, (and_iff_left ?_).symm⟩
        intro hevent
        rw [Option.some.inj hevent] at hchange
        cases hchange
        exact hk rfl
  | @goes event k old gone d hleave hpool hregs hdepartures =>
      by_cases hk : h = k
      · subst hk
        obtain rfl := Option.some.inj (hop.symm.trans hpool.before)
        cases hleave with
        | committed hdone =>
            exact absurd (hc.inFlight_committed hstep ▸ List.mem_cons_self) hnot
        | performed hretired => exact .inl ⟨rfl, hretired, hpool.after⟩
      · refine .inr ⟨op, (hpool.others h hk).trans hop, rfl, (and_iff_left ?_).symm⟩
        intro hevent
        rw [Option.some.inj hevent] at hleave
        cases hleave

/-- As long as its memory effect is not reported complete, an operation that waits
for it stays in the pool, and stays retired until it is reported executed. -/
theorem deferred_steps {later : List Event} {h : Handle} {op : MicroOp} (hc : c.Consistent)
    (hop : c.pool.get? h = some op) (hnot : h ∉ c.inFlight) (hsteps : Steps c later d)
    (hopen : .told (.performed h) ∉ later) :
    h ∉ d.inFlight ∧ ∃ left, d.pool.get? h = some left ∧ left.origin = op.origin ∧
      (left.stage = .retired ↔ op.stage = .retired ∧ .told (.executed h) ∉ later) := by
  refine (hsteps.keeps (P := fun past e => e.Consistent ∧ (.told (.performed h) ∉ past →
    h ∉ e.inFlight ∧ ∃ left, e.pool.get? h = some left ∧ left.origin = op.origin ∧
      (left.stage = .retired ↔ op.stage = .retired ∧ .told (.executed h) ∉ past))) ?_ ?_).2 hopen
  · intro past e event e' ⟨he, hpast⟩ hstep
    refine ⟨he.step hstep, fun hopen => ?_⟩
    rw [List.mem_append, not_or, Option.mem_toList] at hopen
    obtain ⟨hnot, left, hleft, horigin, hretired⟩ := hpast hopen.1
    obtain ⟨hnot', ⟨hevent, -⟩ | ⟨left', hleft', horigin', hretired'⟩⟩ :=
      deferred_step he hleft hnot hstep
    · exact absurd hevent hopen.2
    · refine ⟨hnot', left', hleft', horigin'.trans horigin, ?_⟩
      rw [hretired', hretired, List.mem_append, not_or, Option.mem_toList, and_assoc]
  · exact ⟨hc, fun _ => ⟨hnot, op, hop, rfl, (and_iff_left nofun).symm⟩⟩

/-- An operation that commits with its memory effect open retires in the pool. -/
theorem retired_of_committed {n : NamedOp} (hc : c.Consistent)
    (hstep : Step c (some (.committed n)) d) (hopen : n.op.performed = false) :
    d.pool.get? n.handle = some n.op.markRetired := by
  cases turnover_step hc.pool hstep with
  | quiet hadmissions hcommits => cases hcommits
  | changes hchange hpool =>
      cases hchange
      exact hpool.after
  | goes hleave =>
      cases hleave with
      | committed hdone =>
        rw [hopen] at hdone
        cases hdone

/-- The report that completes a memory effect hands the operation back just if it
is retired. -/
theorem performed_releases_iff {h : Handle} {op : MicroOp} (hop : c.pool.get? h = some op) :
    ((c.performed h).pool.get? h = none ↔ op.stage = .retired) ∧
      ((c.performed h).world.released = c.world.released ++ [op.markPerformed] ↔
        op.stage = .retired) := by
  obtain ⟨op', hop', hretired, heq⟩ | ⟨hopen, heq⟩ := performed_cases c h
  · obtain rfl := Option.some.inj (hop.symm.trans hop')
    rw [heq]
    refine ⟨iff_of_true (Pool.get?_erase_self _ _) hretired, iff_of_true ?_ hretired⟩
    rw [Recorded.released_eq, Recorded.departures_release, List.filterMap_append,
      Recorded.released_eq]
    rfl
  · have hmarked : (c.pool.modify h MicroOp.markPerformed).get? h = some op.markPerformed := by
      rw [Pool.get?_modify_self (f := MicroOp.markPerformed) fun _ => rfl, hop, Option.map_some]
    rw [heq]
    refine ⟨iff_of_false (fun hnone => ?_) (hopen op hop),
      iff_of_false (fun hsame => ?_) (hopen op hop)⟩
    · exact Option.some_ne_none _ (hmarked.symm.trans hnone)
    · have hlength := congrArg List.length hsame
      rw [List.length_append] at hlength
      exact Nat.succ_ne_self _ hlength.symm

/-- The operation that `h` names committed with its memory effect open, and is
retired unless it was reported executed since. -/
def Deferred (past : List Event) (h : Handle) (op : MicroOp) : Prop :=
  ∃ earlier n later, past = earlier ++ .committed n :: later ∧ n.handle = h ∧
    n.op.performed = false ∧ op.origin = n.op.origin ∧
    (op.stage = .retired ↔ .told (.executed h) ∉ later)

/-- Whatever a step leaves in the pool and not in flight is deferred, if all was that
was so before. -/
theorem deferred_of_step {past : List Event} {event : Option Event} (hc : c.Consistent)
    (hpast : ∀ h op, c.pool.get? h = some op → h ∉ c.inFlight → Deferred past h op)
    (hstep : Step c event d) {h : Handle} {left : MicroOp} (hleft : d.pool.get? h = some left)
    (hnot : h ∉ d.inFlight) : Deferred (past ++ event.toList) h left := by
  obtain ⟨op, rfl, hopen, rfl⟩ | ⟨op, hop, hmem, -⟩ := waiting_of_step hc hstep hleft hnot
  · exact ⟨past, ⟨h, op⟩, [], rfl, rfl, hopen, rfl, iff_of_true rfl nofun⟩
  · obtain ⟨earlier, n, later, rfl, hhandle, hopen, horigin, hretired⟩ := hpast h op hop hmem
    obtain ⟨-, ⟨-, -, hnone⟩ | ⟨left', hleft', horigin', hretired'⟩⟩ :=
      deferred_step hc hop hmem hstep
    · rw [hnone] at hleft
      cases hleft
    · obtain rfl := Option.some.inj (hleft'.symm.trans hleft)
      refine ⟨earlier, n, later ++ event.toList, by simp, hhandle, hopen,
        horigin'.trans horigin, ?_⟩
      rw [hretired', hretired, List.mem_append, not_or, Option.mem_toList]

/-- **Deferred release.** Whatever surrounds a core, an operation that commits with
its memory effect open stays in the pool, out of flight, until the effect is
reported complete. It is retired as long as it is not reported executed, whatever
else is reported, and just then the report that completes the effect hands it back.
Everything in the pool that is not in flight is such an operation. -/
theorem released_iff_not_executed_since_commit {config : CoreConfig} {hart : Nat} {world : W}
    {start : Core (Recorded W)} (hstart : create config hart ⟨world, []⟩ = .ok start)
    (commands : List Command) :
    let past := start.history commands
    let c := (start.run commands).2
    (∀ earlier n later, past = earlier ++ .committed n :: later → n.op.performed = false →
        .told (.performed n.handle) ∉ later →
        n.handle ∉ c.inFlight ∧ ∃ left, c.op? n.handle = some left ∧
          left.origin = n.op.origin ∧
          (left.stage = .retired ↔ .told (.executed n.handle) ∉ later) ∧
          ((c.performed n.handle).op? n.handle = none ↔ .told (.executed n.handle) ∉ later) ∧
          ((c.performed n.handle).world.released = c.world.released ++ [left.markPerformed] ↔
            .told (.executed n.handle) ∉ later)) ∧
      ∀ h op, c.op? h = some op → h ∉ c.inFlight → Deferred past h op := by
  intro past c
  have hsteps := steps_run start commands
  have hc := Consistent.of_create hstart
  constructor
  · intro earlier n later hpast hopen hlater
    obtain ⟨e, e', he, hcommit, he'⟩ := hsteps.split hpast
    have hce := hc.steps he
    obtain ⟨hnot, left, hleft, horigin, hretired⟩ :=
      deferred_steps (hce.step hcommit) (retired_of_committed hce hcommit hopen)
        (hce.not_mem_of_committed hcommit) he' hlater
    rw [and_iff_right (show n.op.markRetired.stage = .retired from rfl)] at hretired
    obtain ⟨hgone, hreleased⟩ := performed_releases_iff hleft
    exact ⟨hnot, left, hleft, horigin, hretired, hgone.trans hretired, hreleased.trans hretired⟩
  · exact (hsteps.keeps (P := fun past c => c.Consistent ∧
      ∀ h op, c.pool.get? h = some op → h ∉ c.inFlight → Deferred past h op)
      (fun ⟨hc, hpast⟩ hstep =>
        ⟨hc.step hstep, fun _ _ hop hnot => deferred_of_step hc hpast hstep hop hnot⟩)
      ⟨hc, fun h op hop _ => by
        obtain ⟨-, rfl⟩ := create_eq hstart
        rw [initial, Pool.get?_withCapacity] at hop
        cases hop⟩).2

/-- A store that commits early waits, retired, while it is reported issued and
executing, and the report of its effect hands it back. -/
theorem early_store_released :
    let store : MicroOp := { id := 1, pc := 0, inst := { opcode := .store, src1 := some 1 } }
    let config : CoreConfig := { maxRobSize := 4, retireDelay := 0 }
    let world : Recorded Obliging := ⟨{ buckets := [[{ id := 2, pc := 4, inst := {} }]] }, []⟩
    let start : Core (Recorded Obliging) := .initial config 0 world
    let commands : List Command :=
      [.activate, .add store, .executed ⟨0, 1⟩, .advance, .issued ⟨0, 1⟩, .executing ⟨0, 1⟩]
    let past := start.history commands
    let c := (start.run commands).2
    let n : NamedOp := ⟨⟨0, 1⟩, { store with stage := .executed }⟩
    let later : List Event := [.told (.issued ⟨0, 1⟩), .told (.executing ⟨0, 1⟩)]
    create config 0 world = .ok start ∧ past = past.take 4 ++ .committed n :: later ∧
      n.op.performed = false ∧ .told (.performed n.handle) ∉ later ∧
      .told (.executed n.handle) ∉ later ∧
      ∃ left, c.op? n.handle = some left ∧ left.stage = .retired ∧
        (c.performed n.handle).world.released = c.world.released ++ [left.markPerformed] := by
  intro store config world start commands past c n later
  have hstart : create config 0 world = .ok start := rfl
  have hpast : past = past.take 4 ++ .committed n :: later := by decide +kernel
  have hopen : n.op.performed = false := rfl
  have hlater : .told (.performed n.handle) ∉ later := by decide
  have hnot : .told (.executed n.handle) ∉ later := by decide
  obtain ⟨-, left, hleft, -, hretired, -, hreleased⟩ :=
    (released_iff_not_executed_since_commit hstart commands).1 _ n later hpast hopen hlater
  exact ⟨hstart, hpast, hopen, hlater, hnot, left, hleft, hretired.2 hnot, hreleased.2 hnot⟩

/-- The same store is reported executed once more after its commit: when its effect
completes nothing is handed back, and it is left in the pool, out of flight. -/
theorem early_store_kept_after_late_execution :
    let store : MicroOp := { id := 1, pc := 0, inst := { opcode := .store, src1 := some 1 } }
    let config : CoreConfig := { maxRobSize := 4, retireDelay := 0 }
    let world : Recorded Obliging := ⟨{ buckets := [[{ id := 2, pc := 4, inst := {} }]] }, []⟩
    let start : Core (Recorded Obliging) := .initial config 0 world
    let c := (start.run [.activate, .add store, .executed ⟨0, 1⟩, .advance]).2
    let d := (c.run [.executed ⟨0, 1⟩, .performed ⟨0, 1⟩]).2
    create config 0 world = .ok start ∧
      c.op? ⟨0, 1⟩ = some { store with stage := .retired } ∧ ⟨0, 1⟩ ∉ c.inFlight ∧
      d.world.released = [] ∧ (d.op? ⟨0, 1⟩).map MicroOp.stage = some .executed ∧
      (d.op? ⟨0, 1⟩).map MicroOp.performed = some true := by
  intro store config world start c d
  exact ⟨rfl, by decide +kernel, by decide +kernel, by decide +kernel, by decide +kernel,
    by decide +kernel⟩

end OutOfOrder.Core
