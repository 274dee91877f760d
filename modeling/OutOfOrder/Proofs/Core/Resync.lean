import Mathlib.Data.List.Induction
import OutOfOrder.Proofs.Core.Requests

/-!
# Whose stream a recovery brings back in step

The end of a recovery asks the emulator to bring the stream of one hart back in
step, the one that the core remembers. It remembers the hart of the last replayed
operation that committed, and nothing else ever sets it: not the request, and not
the start or the end of a recovery.

A recovery that was asked for an operation in flight is fine. The operation is
still marked when it commits, and it commits before the core is drained. But a
request can also name an operation that has committed and only waits for its memory
effect. The core recovers all the same, no replayed operation commits, and the end
of the recovery resyncs the hart of the recovery before, or hart 0 if there was
none.

Recoveries are followed from the request that starts them, and
`exists_request_of_recovering` finds that request in the commands of a run.
-/

namespace OutOfOrder

namespace Event

/-- The commits of replayed operations, in order. -/
def replayedCommits (past : List Event) : List NamedOp := (commits past).filter (·.op.replayed)

/-- The last commit of a replayed operation. -/
def lastReplayed (past : List Event) : Option NamedOp := (replayedCommits past).getLast?

theorem lastReplayed_append (first second : List Event) :
    lastReplayed (first ++ second) = (lastReplayed second).or (lastReplayed first) := by
  rw [lastReplayed, replayedCommits, commits_append, List.filter_append, List.getLast?_append]
  rfl

theorem lastReplayed_committed (n : NamedOp) :
    lastReplayed [.committed n] = if n.op.replayed then some n else none := by
  cases hmark : n.op.replayed <;> simp [lastReplayed, replayedCommits, commits, commit?, hmark]

theorem lastReplayed_of_commits_eq_nil {past : List Event} (h : commits past = []) :
    lastReplayed past = none := by
  rw [lastReplayed, replayedCommits, h]
  rfl

end Event

/-- A call that is no end of a recovery asks for no resync. -/
theorem Call.resynced?_eq_none {call : Call} (h : call.milestone? ≠ some .recovered) :
    call.resynced? = none := by
  cases call with
  | resync => exact absurd rfl h
  | fetch | nextBucket | hazard | accept | mayPromote | mayCommit | reexecute | release => rfl

namespace Core

variable {W : Type}

/-! ## What the core remembers -/

theorem RecoveryStep.flushingHart {c : Core W} {event : Option Event} {r : Recovery}
    (h : RecoveryStep c event r) :
    r.flushingHart =
      ((Event.lastReplayed event.toList).map (·.op.hart)).getD c.recovery.flushingHart := by
  cases h with
  | stays hlasts hcommits => rw [Event.lastReplayed_of_commits_eq_nil hcommits]; rfl
  | requested | ended => rfl
  | committed n =>
      rw [recoveryCommitting, Option.toList_some, Event.lastReplayed_committed]
      cases n.op.replayed <;> rfl

variable [Surroundings W] {c d : Core (Recorded W)} {event : Option Event}

theorem flushingHart_steps {events : List Event} (hsteps : Steps c events d) :
    d.recovery.flushingHart =
      ((Event.lastReplayed events).map (·.op.hart)).getD c.recovery.flushingHart := by
  refine hsteps.keeps (P := fun past e => e.recovery.flushingHart =
    ((Event.lastReplayed past).map (·.op.hart)).getD c.recovery.flushingHart)
    (fun {past e event e'} hpast hstep => ?_) rfl
  rw [(recovery_step hstep).flushingHart, hpast, Event.lastReplayed_append]
  cases Event.lastReplayed event.toList <;> rfl

/-- The end of a recovery asks for one resync, of the hart that the core remembers, and
no other step asks for one. -/
theorem resynced_step (hstep : Step c event d) :
    d.world.resynced = c.world.resynced ++
      if event = some .recovered then [c.recovery.flushingHart] else [] := by
  by_cases hended : event = some .recovered
  · subst hended
    cases hstep with
    | recover hrecovering hdrained =>
        rw [if_pos rfl, Recorded.resynced]
        exact (congrArg (List.filterMap Call.resynced?) (Recorded.calls_note _ _ _)).trans
          List.filterMap_append
  · obtain ⟨new, hasked⟩ := asked_step hstep
    have hnone : new.filterMap Call.resynced? = [] := by
      refine List.filterMap_eq_nil_iff.2 fun call hcall => Call.resynced?_eq_none fun hend => ?_
      have hmem : Milestone.recovered ∈ Event.milestones event.toList :=
        hasked.milestones ▸ List.mem_filterMap.2 ⟨call, hcall, hend⟩
      obtain ⟨e, he, hmilestone⟩ := List.mem_filterMap.1 hmem
      refine hended ((Option.mem_toList.1 he).trans ?_)
      cases e with
      | recovered => rfl
      | told | admitted | committed => cases hmilestone
    rw [if_neg hended, List.append_nil, Recorded.resynced, hasked.calls, List.filterMap_append,
      hnone, List.append_nil]
    rfl

theorem resynced_steps {events : List Event} (hsteps : Steps c events d)
    (hlasts : .recovered ∉ events) : d.world.resynced = c.world.resynced := by
  refine hsteps.keeps (P := fun past e => .recovered ∉ past → e.world.resynced = c.world.resynced)
    (fun {past e event e'} hpast hstep hlasts => ?_) (fun _ => rfl) hlasts
  rw [List.mem_append, not_or, Option.mem_toList] at hlasts
  rw [resynced_step hstep, if_neg hlasts.2, List.append_nil]
  exact hpast hlasts.1

/-- While no recovery is in progress, what the core remembers is the hart of the last
resync. -/
def Recalls (c : Core (Recorded W)) : Prop :=
  c.recovery.recovering = false → c.recovery.flushingHart = c.world.resynced.getLast?.getD 0

theorem Recalls.step (hr : c.Recalls) (hu : c.Unmarked) (hc : c.Consistent)
    (hstep : Step c event d) : d.Recalls := by
  intro hidle
  have hhart := (recovery_step hstep).flushingHart
  obtain ⟨rfl, -, -⟩ | ⟨hbefore, hmoves⟩ := (recovery_step hstep).idle hidle
  · rw [resynced_step hstep, if_pos rfl, List.getLast?_concat]
    exact hhart
  · have hlasts : event ≠ some .recovered := by
      rintro rfl
      cases hstep with
      | recover hrecovering hdrained =>
          rw [hbefore] at hrecovering
          cases hrecovering
    rw [resynced_step hstep, if_neg hlasts, List.append_nil, ← hr hbefore]
    obtain hsame | ⟨n, rfl, hcommit⟩ := hmoves
    · rw [hsame]
    · rw [hcommit, recoveryCommitting, hu.replayed_of_committed hc hstep hbefore]
      rfl

/-- What holds of a core as long as no operation is marked when it is admitted. -/
structure Remembering (c : Core (Recorded W)) : Prop where
  consistent : c.Consistent
  unmarked : c.Unmarked
  recalls : c.Recalls

theorem Remembering.of_run {config : CoreConfig} {hart : Nat} {world : W}
    {start : Core (Recorded W)} (hstart : create config hart ⟨world, []⟩ = .ok start)
    (commands : List Command)
    (hfresh : ∀ a ∈ Event.admissions (start.history commands), a.offered.replayed = false) :
    (start.run commands).2.Remembering := by
  refine (steps_run start commands).keeps_of_admissions (P := fun _ c => c.Remembering)
    (fun hc hstep hnew => ?_) hfresh ?_
  · exact ⟨hc.consistent.step hstep, hc.unmarked.step hc.consistent hstep hnew,
      hc.recalls.step hc.unmarked hc.consistent hstep⟩
  · have ha := Accounted.of_create hstart
    obtain ⟨-, rfl⟩ := create_eq hstart
    exact ⟨ha.consistent, ha.unmarked, fun _ => rfl⟩

/-! ## The request that starts a recovery -/

/-- Only a request starts a recovery, and no core recovers right after one ended. -/
theorem recovering_before_steps {events : List Event} (hsteps : Steps c events d)
    (hsilent : ∀ k, .told (.replay k) ∉ events) (hd : d.recovery.recovering = true) :
    c.recovery.recovering = true ∧ .recovered ∉ events := by
  have hcount := count_recovered_steps hsteps hsilent
  rw [hd] at hcount
  cases hc : c.recovery.recovering with
  | false => simp [hc] at hcount
  | true =>
      rw [hc] at hcount
      exact ⟨rfl, List.count_eq_zero.1 (by omega)⟩

theorem recovering_before_perform {command : Command}
    (hd : (c.perform command).2.recovery.recovering = true) :
    (c.recovery.recovering = true ∨ ∃ k, command = .replay k) ∧
      .recovered ∉ (c.perform command).1.events command := by
  obtain ⟨k, rfl⟩ | ⟨-, hsilent⟩ := request_or_silent c command
  · exact ⟨.inr ⟨k, rfl⟩, by simp [perform, Reply.events]⟩
  · obtain ⟨hc, hlasts⟩ := recovering_before_steps (steps_perform c command) hsilent hd
    exact ⟨.inl hc, hlasts⟩

/-- A core that recovers does so since a request in its run. -/
theorem exists_request_of_recovering (hidle : c.recovery.recovering = false)
    (commands : List Command) (hd : (c.run commands).2.recovery.recovering = true) :
    ∃ first h during, commands = first ++ .replay h :: during ∧
      (c.run first).2.recovery.recovering = false ∧
      ((c.run first).2.replay h).recovery.recovering = true ∧
      .recovered ∉ ((c.run first).2.replay h).history during := by
  induction commands using List.reverseRecOn with
  | nil => rw [run, hidle] at hd; cases hd
  | append_singleton rest command ih =>
      rw [run_append] at hd
      have hd : ((c.run rest).2.perform command).2.recovery.recovering = true := hd
      obtain ⟨hbefore, hlasts⟩ := recovering_before_perform hd
      by_cases hrest : (c.run rest).2.recovery.recovering = true
      · obtain ⟨first, h, during, rfl, hfirst, hstarts, hduring⟩ := ih hrest
        refine ⟨first, h, during ++ [command], by simp, hfirst, hstarts, ?_⟩
        rw [history_append, List.mem_append, not_or]
        refine ⟨hduring, ?_⟩
        rw [run_append] at hlasts
        have hlasts : .recovered ∉
          ((((c.run first).2.replay h).run during).2.perform command).1.events command := hlasts
        simpa [history] using hlasts
      · obtain ⟨k, rfl⟩ := hbefore.resolve_left hrest
        exact ⟨rest, k, [], rfl, Bool.eq_false_iff.2 hrest, hd, List.not_mem_nil⟩

/-! ## The end of a recovery -/

/-- The cycle that ends a recovery asks for the one resync. -/
theorem resynced_of_recovered (hended : c.advance.1.recovered = true) :
    c.recovery.recovering = true ∧
      c.advance.2.world.resynced = c.world.resynced ++ [c.recovery.flushingHart] := by
  obtain ⟨hstep, hwork⟩ := advance_of_recovered hended
  have hrecovery := (fetch_tick_decode c).1
  have hbefore : Steps c [] c.fetch.tick.decode :=
    .silent (.fetch c) (.silent (.tick _) (.one_silent (.decode _)))
  refine ⟨?_, ?_⟩
  · cases hstep with
    | recover hrecovering => exact hrecovery ▸ hrecovering
  · rw [hwork, resynced_steps (steps_workCycle _) (by simp), resynced_step hstep, if_pos rfl,
      resynced_steps hbefore List.not_mem_nil, hrecovery]

namespace RecoversDuring

variable {idle : Core (Recorded W)} {h : Handle} {during : List Command}

/-- The operations that commit with a mark during a recovery are those that were marked
in flight during it. -/
theorem replayed_iff_marked (hrecovers : idle.RecoversDuring h during) (hr : idle.Remembering)
    (hfresh : ∀ a ∈ Event.admissions ((idle.replay h).history during),
      a.offered.replayed = false) (k : Handle) (origin : MicroOp.Origin) :
    (∃ n ∈ Event.replayedCommits ((idle.replay h).history during),
        n.handle = k ∧ n.op.origin = origin) ↔
      ∃ m ∈ idle.marked (.replay h :: during), m.handle = k ∧ m.op.origin = origin := by
  have hbefore : ¬ Carries [] idle k origin := by
    rintro (⟨hmem, hmark⟩ | ⟨n, hn, -⟩)
    · have hclear := (hr.unmarked hrecovers.idle).2 k hmem
      rw [Option.map_eq_some_iff] at hmark hclear
      obtain ⟨op, hop, hmark⟩ := hmark
      obtain ⟨op', hop', hclear⟩ := hclear
      obtain rfl := Option.some.inj (hop.symm.trans hop')
      rw [(Prod.mk.inj hmark).1] at hclear
      cases hclear
    · cases hn
  have hrun := (carries_run hr.consistent (.replay h :: during) hfresh).trans
    (or_iff_right hbefore)
  rw [← hrun]
  constructor
  · rintro ⟨n, hn, hhandle, horigin⟩
    obtain ⟨hn, hmark⟩ := List.mem_filter.1 hn
    exact .inr ⟨n, hn, hhandle, hmark, horigin⟩
  · rintro (⟨hmem, -⟩ | ⟨n, hn, hhandle, hmark, horigin⟩)
    · have hmem : k ∈ ((idle.replay h).run during).2.inFlight := hmem
      rw [hrecovers.inFlight_eq_nil hr.consistent] at hmem
      cases hmem
    · exact ⟨n, List.mem_filter.2 ⟨hn, hmark⟩, hhandle, horigin⟩

/-- So the last commit with a mark is one of what was marked, if anything was. -/
theorem lastReplayed_marked (hrecovers : idle.RecoversDuring h during) (hr : idle.Remembering)
    (hfresh : ∀ a ∈ Event.admissions ((idle.replay h).history during),
      a.offered.replayed = false) :
    let marked := idle.marked (.replay h :: during)
    let last := Event.lastReplayed ((idle.replay h).history during)
    (marked ≠ [] → ∃ n m, last = some n ∧ m ∈ marked ∧ m.handle = n.handle ∧
      m.op.origin = n.op.origin) ∧ (marked = [] → last = none) := by
  intro marked last
  have hmarked := hrecovers.replayed_iff_marked hr hfresh
  refine ⟨fun hsome => ?_, fun hnone => ?_⟩
  · obtain ⟨m, hm⟩ := List.exists_mem_of_ne_nil _ hsome
    obtain ⟨first, hfirst, -⟩ := (hmarked m.handle m.op.origin).2 ⟨m, hm, rfl, rfl⟩
    obtain ⟨n, hlast⟩ := Option.isSome_iff_exists.1
      (List.getLast?_isSome.2 (List.ne_nil_of_mem hfirst))
    obtain ⟨m, hm, hhandle, horigin⟩ :=
      (hmarked n.handle n.op.origin).1 ⟨n, List.mem_of_getLast? hlast, rfl, rfl⟩
    exact ⟨n, m, hlast, hm, hhandle, horigin⟩
  · refine List.getLast?_eq_none_iff.2 (List.eq_nil_iff_forall_not_mem.2 fun n hn => ?_)
    obtain ⟨m, hm, -⟩ := (hmarked n.handle n.op.origin).1 ⟨n, hn, rfl, rfl⟩
    have hm : m ∈ marked := hm
    rw [hnone] at hm
    cases hm

/-- The hart that is brought back in step is that of the last commit with a mark, or
else that of the resync before. -/
theorem resynced (hrecovers : idle.RecoversDuring h during) (hr : idle.Remembering) :
    let c := ((idle.replay h).run during).2
    c.advance.2.world.resynced = c.world.resynced ++
      [((Event.lastReplayed ((idle.replay h).history during)).map (·.op.hart)).getD
        (c.world.resynced.getLast?.getD 0)] := by
  intro c
  have hsteps := steps_run (idle.replay h) during
  have hrequest : Step idle (some (.told (.replay h))) (idle.replay h) := .replay idle h
  have hhart : (idle.replay h).recovery.flushingHart = idle.recovery.flushingHart :=
    (recovery_step hrequest).flushingHart
  have hsame : c.world.resynced = idle.world.resynced := by
    rw [resynced_steps hsteps hrecovers.lasts, resynced_step hrequest, if_neg nofun,
      List.append_nil]
  rw [(resynced_of_recovered hrecovers.ends).2, flushingHart_steps hsteps, hhart,
    hr.recalls hrecovers.idle, ← hsame]

end RecoversDuring

/-- **One resync for each recovery, of a hart that was replayed.** Whatever surrounds a
core and whatever is done to it, if no operation is marked when it is admitted, then only
a cycle that ends a recovery asks for a resync, and it asks for one. The recovery has
started with a request in the run. If a request since then was heard and named an
operation in flight, the resync is of the hart of such an operation, the one of them
that committed last. Otherwise it is of the hart of the resync before, or hart 0. -/
theorem resynced_for_operation_marked_in_flight {config : CoreConfig} {hart : Nat} {world : W}
    {start : Core (Recorded W)} (hstart : create config hart ⟨world, []⟩ = .ok start)
    (commands : List Command)
    (hfresh : ∀ a ∈ Event.admissions (start.history commands), a.offered.replayed = false) :
    let c := (start.run commands).2
    (∀ command, .recovered ∉ (c.perform command).1.events command →
      (c.perform command).2.world.resynced = c.world.resynced) ∧
    (c.advance.1.recovered = true → ∃ first h during,
      commands = first ++ .replay h :: during ∧ (start.run first).2.RecoversDuring h during ∧
      let past := ((start.run first).2.replay h).history during
      let marked := (start.run first).2.marked (.replay h :: during)
      (marked ≠ [] → ∃ n m, Event.lastReplayed past = some n ∧ m ∈ marked ∧
        m.handle = n.handle ∧ m.op.origin = n.op.origin ∧
        c.advance.2.world.resynced = c.world.resynced ++ [m.op.hart]) ∧
      (marked = [] → c.advance.2.world.resynced =
        c.world.resynced ++ [c.world.resynced.getLast?.getD 0])) := by
  intro c
  refine ⟨fun command => resynced_steps (steps_perform c command), fun hended => ?_⟩
  have hidle : start.recovery.recovering = false := by
    obtain ⟨-, rfl⟩ := create_eq hstart
    rfl
  obtain ⟨first, h, during, hcommands, hfirst, hstarts, hlasts⟩ :=
    exists_request_of_recovering hidle commands (resynced_of_recovered hended).1
  have hrun : c = (((start.run first).2.replay h).run during).2 := by
    show (start.run commands).2 = _
    rw [hcommands, run_append]
    rfl
  rw [hcommands, history_append, Event.admissions_append] at hfresh
  have hr := Remembering.of_run hstart first fun a ha => hfresh a (List.mem_append_left _ ha)
  have hrecovers : (start.run first).2.RecoversDuring h during :=
    ⟨hfirst, hstarts, hlasts, hrun ▸ hended⟩
  refine ⟨first, h, during, hcommands, hrecovers, ?_⟩
  intro past marked
  have hresynced := hrecovers.resynced hr
  rw [← hrun] at hresynced
  obtain ⟨hsome, hnone⟩ := hrecovers.lastReplayed_marked hr fun a ha =>
    hfresh a (List.mem_append_right _ ha)
  refine ⟨fun hmarked => ?_, fun hmarked => ?_⟩
  · obtain ⟨n, m, hlast, hm, hhandle, horigin⟩ := hsome hmarked
    have hhart : m.op.hart = n.op.hart := congrArg MicroOp.Origin.hart horigin
    refine ⟨n, m, hlast, hm, hhandle, horigin, hresynced.trans ?_⟩
    rw [hlast, hhart]
    rfl
  · rw [hresynced, hnone hmarked]
    rfl

/-- Two operations of different harts are both marked in flight, the younger one first.
The resync is of the hart of the younger one, which commits last. -/
theorem resynced_for_younger_of_two_marked :
    let op : Nat → MicroOp := fun id => { id, pc := 0, inst := { opcode := .load }, hart := id }
    let config : CoreConfig := { maxRobSize := 6, retireDelay := 0 }
    let world : Recorded Obliging := ⟨{ buckets := [[op 3]] }, []⟩
    let start : Core (Recorded Obliging) := .initial config 0 world
    let commands : List Command :=
      [.activate, .add (op 1), .add (op 2), .executed ⟨0, 1⟩, .executed ⟨1, 2⟩,
        .replay ⟨1, 2⟩, .replay ⟨0, 1⟩, .advance]
    create config 0 world = .ok start ∧
      (∀ a ∈ Event.admissions (start.history commands), a.offered.replayed = false) ∧
      (start.run commands).2.advance.1.recovered = true ∧
      (start.run commands).2.advance.2.world.resynced = [2] ∧
      ∃ first h during, commands = first ++ .replay h :: during ∧
        ∃ m ∈ (start.run first).2.marked (.replay h :: during), m.op.hart = 2 := by
  intro op config world start commands
  have hstart : create config 0 world = .ok start := rfl
  have hfresh : ∀ a ∈ Event.admissions (start.history commands), a.offered.replayed = false := by
    decide +kernel
  have hended : (start.run commands).2.advance.1.recovered = true := by decide +kernel
  have hbefore : (start.run commands).2.world.resynced = [] := by decide +kernel
  have hresynced : (start.run commands).2.advance.2.world.resynced = [2] := by decide +kernel
  obtain ⟨first, h, during, hcommands, -, hsome, hnone⟩ :=
    (resynced_for_operation_marked_in_flight hstart commands hfresh).2 hended
  refine ⟨hstart, hfresh, hended, hresynced, first, h, during, hcommands, ?_⟩
  rw [hresynced, hbefore] at hsome hnone
  by_cases hmarked : (start.run first).2.marked (.replay h :: during) = []
  · exact absurd (hnone hmarked) (by decide)
  · obtain ⟨n, m, -, hm, -, -, hhart⟩ := hsome hmarked
    exact ⟨m, hm, (List.cons.inj hhart).1.symm⟩

/-- A store of hart 1 is replayed after it has committed with its memory effect open, when
nothing else is in flight. The resync is of hart 0, and no operation is of that hart. -/
theorem stale_hart_resynced_after_late_replay :
    let store : MicroOp := { id := 1, pc := 0, inst := { opcode := .store }, hart := 1 }
    let config : CoreConfig := { maxRobSize := 4, retireDelay := 0 }
    let nop : MicroOp := { id := 2, pc := 4, inst := {}, hart := 1 }
    let world : Recorded Obliging := ⟨{ buckets := [[nop]] }, []⟩
    let start : Core (Recorded Obliging) := .initial config 1 world
    let commands : List Command :=
      [.activate, .add store, .executed ⟨0, 1⟩, .advance, .executed ⟨1, 2⟩, .advance,
        .replay ⟨0, 1⟩]
    let c := (start.run commands).2
    create config 1 world = .ok start ∧
      (∀ a ∈ Event.admissions (start.history commands), a.offered.replayed = false) ∧
      (c.op? ⟨0, 1⟩).map (fun op => (op.replayed, op.hart)) = some (true, 1) ∧
      c.advance.1.recovered = true ∧ c.advance.2.world.resynced = [0] ∧
      ¬ ∀ hart ∈ c.advance.2.world.resynced,
        ∃ a ∈ Event.admissions (start.history commands), a.op.hart = hart := by
  intro store config nop world start commands c
  exact ⟨rfl, by decide +kernel, by decide +kernel, by decide +kernel, by decide +kernel,
    by decide +kernel⟩

end Core

end OutOfOrder
