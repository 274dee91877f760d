import OutOfOrder.Proofs.Core.Calls
import OutOfOrder.Proofs.Core.Settled
import OutOfOrder.Proofs.Core.Tally
import OutOfOrder.Surroundings.Obliging

/-!
# Which commits are flushed, and which are counted

The flag that a core is flushing is set in the middle of a cycle, read by the
commits after it and cleared by the end of the recovery. What it means can be
said without it: an operation marked for a replay has committed since the last
recovery ended. `Milestone.flushed` is that, read off the commits and the ends
of recoveries.

A mark is only ever set by a request that makes the core recover, and the
recovery ends with nothing in flight. So where no recovery is in progress
nothing in flight is marked, the flag is down, and no commit is missing from the
counters. This needs that no operation is marked when it is admitted.
-/

namespace OutOfOrder

namespace Milestone

def isReplayed : Milestone → Bool
  | committed op => op.replayed
  | recovered => false

/-- A replayed operation has committed since the last recovery ended. -/
def flushed (past : List Milestone) : Bool :=
  (past.reverse.takeWhile (· ≠ recovered)).any isReplayed

theorem flushed_recovered (past : List Milestone) : flushed (past ++ [recovered]) = false := by
  simp [flushed]

theorem flushed_committed (past : List Milestone) (op : MicroOp) :
    flushed (past ++ [committed op]) = (op.replayed || flushed past) := by
  simp [flushed, isReplayed]

end Milestone

/-- A commit, and the milestones before it. -/
structure PastCommit where
  before : List Milestone
  op : MicroOp

namespace PastCommit

/-- The operation was replayed, or committed behind one that was. -/
def isFlushed (n : PastCommit) : Bool := n.op.replayed || Milestone.flushed n.before

def isCounted (n : PastCommit) : Bool := n.op.sampled && !n.isFlushed

def isExcluded (n : PastCommit) : Bool := n.op.sampled && n.isFlushed

theorem countP_sampled (commits : List PastCommit) :
    commits.countP (·.op.sampled) = commits.countP isCounted + commits.countP isExcluded := by
  induction commits with
  | nil => rfl
  | cons n rest ih =>
      rw [List.countP_cons, List.countP_cons, List.countP_cons, ih, isCounted, isExcluded]
      cases n.op.sampled <;> cases n.isFlushed <;> simp <;> omega

end PastCommit

namespace Milestone

/-- The commits among `later`, which happened after `before`. -/
def commitsAfter (before : List Milestone) : List Milestone → List PastCommit
  | [] => []
  | committed op :: later => ⟨before, op⟩ :: commitsAfter (before ++ [committed op]) later
  | recovered :: later => commitsAfter (before ++ [recovered]) later

def commits (past : List Milestone) : List PastCommit := commitsAfter [] past

theorem commitsAfter_append (before later last : List Milestone) :
    commitsAfter before (later ++ last) =
      commitsAfter before later ++ commitsAfter (before ++ later) last := by
  induction later generalizing before with
  | nil => rw [List.append_nil]; rfl
  | cons m later ih =>
      have hassoc : before ++ [m] ++ later = before ++ m :: later := by simp
      cases m with
      | committed op =>
          rw [List.cons_append, commitsAfter, ih, hassoc, commitsAfter, List.cons_append]
      | recovered => rw [List.cons_append, commitsAfter, ih, hassoc, commitsAfter]

theorem commits_append (past last : List Milestone) :
    commits (past ++ last) = commits past ++ commitsAfter past last :=
  commitsAfter_append [] past last

end Milestone

theorem Event.milestones_eq_nil {event : Option Event} (hlasts : event ≠ some .recovered)
    (hcommits : Event.commits event.toList = []) : Event.milestones event.toList = [] := by
  cases event with
  | none => rfl
  | some event =>
      cases event with
      | told | admitted => rfl
      | recovered => exact absurd rfl hlasts
      | committed n => cases hcommits

namespace Core

variable {W : Type}

/-! ## While no recovery is in progress -/

/-- Without a recovery nothing is flushed and nothing in flight is marked. -/
def Unmarked (c : Core W) : Prop :=
  c.recovery.recovering = false →
    c.recovery.flushing = false ∧
      ∀ k ∈ c.inFlight, (c.pool.get? k).map (·.replayed) = some false

/-- Where a step leaves no recovery in progress, it has ended one, or there was
none before. -/
theorem RecoveryStep.idle {c : Core W} {event : Option Event} {r : Recovery}
    (h : RecoveryStep c event r) (hr : r.recovering = false) :
    (event = some .recovered ∧ c.isDrained ∧ r.flushing = false) ∨
      c.recovery.recovering = false ∧
        (r = c.recovery ∨ ∃ n, event = some (.committed n) ∧ r = c.recoveryCommitting n.op) := by
  cases h with
  | stays => exact .inr ⟨hr, .inl rfl⟩
  | requested => cases hr
  | committed n =>
      refine .inr ⟨?_, .inr ⟨n, rfl, rfl⟩⟩
      rw [recoveryCommitting] at hr
      split at hr <;> exact hr
  | ended hrecovering hdrained => exact .inl ⟨rfl, hdrained, rfl⟩

theorem RecoveryStep.flushing {c : Core W} {event : Option Event} {r : Recovery}
    {past : List Milestone} (h : RecoveryStep c event r)
    (hc : c.recovery.flushing = Milestone.flushed past) :
    r.flushing = Milestone.flushed (past ++ Event.milestones event.toList) := by
  cases h with
  | stays hlasts hcommits =>
      rw [hc, Event.milestones_eq_nil hlasts hcommits, List.append_nil]
  | requested => exact hc.trans (congrArg _ (List.append_nil past).symm)
  | committed n =>
      show _ = Milestone.flushed (past ++ [.committed n.op])
      rw [Milestone.flushed_committed, ← hc, recoveryCommitting]
      cases n.op.replayed <;> rfl
  | ended => exact (Milestone.flushed_recovered past).symm

variable [Surroundings W] {c d : Core (Recorded W)} {event : Option Event}

/-- Only a request that is heard marks an operation, and it makes the core
recover. -/
theorem Consistent.replayed_step {k : Handle} (hc : c.Consistent) (hstep : Step c event d)
    (hk : k ∈ c.inFlight) (hk' : k ∈ d.inFlight) (hidle : d.recovery.recovering = false) :
    (d.pool.get? k).map (·.replayed) = (c.pool.get? k).map (·.replayed) := by
  by_cases hreplay : ∃ h, event = some (.told (.replay h))
  · obtain ⟨h, rfl⟩ := hreplay
    cases hstep with
    | replay =>
        obtain heq | ⟨op, -, heq⟩ := replay_cases c h
        · rw [heq]
        · rw [heq] at hidle
          cases hidle
  · refine hc.kept_step hstep hk hk' fun hevent hchange => ?_
    exact hchange.replayed_eq fun heq => hreplay ⟨k, by rw [hevent, heq]⟩

/-- Where no recovery is in progress, what commits is not marked. -/
theorem Unmarked.replayed_of_committed {n : NamedOp} (hu : c.Unmarked) (hc : c.Consistent)
    (hstep : Step c (some (.committed n)) d) (hidle : c.recovery.recovering = false) :
    n.op.replayed = false := by
  have hmem : n.handle ∈ c.inFlight := hc.inFlight_committed hstep ▸ List.mem_cons_self
  have hmark := (hu hidle).2 n.handle hmem
  rw [get?_of_committed hstep] at hmark
  exact Option.some.inj hmark

theorem Unmarked.step (hu : c.Unmarked) (hc : c.Consistent) (hstep : Step c event d)
    (hfresh : ∀ a ∈ Event.admissions event.toList, a.offered.replayed = false) : d.Unmarked := by
  intro hidle
  obtain ⟨rfl, hdrained, hflushing⟩ | ⟨hbefore, hmoves⟩ := (recovery_step hstep).idle hidle
  · have hempty : d.inFlight = c.inFlight ++ [] := hc.inFlight_step hstep
    rw [hc.isDrained_iff.1 hdrained, List.append_nil] at hempty
    refine ⟨hflushing, fun k hk => ?_⟩
    rw [hempty] at hk
    exact absurd hk List.not_mem_nil
  · obtain ⟨hflushing, hmarks⟩ := hu hbefore
    refine ⟨?_, fun k hk => ?_⟩
    · obtain hsame | ⟨n, rfl, hcommit⟩ := hmoves
      · rw [hsame]
        exact hflushing
      · rw [hcommit, recoveryCommitting, hu.replayed_of_committed hc hstep hbefore]
        exact hflushing
    · obtain hold | ⟨a, rfl, rfl⟩ := hc.mem_inFlight_of_step hstep hk
      · rw [hc.replayed_step hstep hold hk hidle]
        exact hmarks k hold
      · rw [hc.get?_of_admitted hstep, Option.map_some, replayed_of_admitted hc hstep,
          hfresh a List.mem_cons_self]

/-! ## Operations that lie inside a statistics window -/

def sampledInFlight (c : Core (Recorded W)) : Nat :=
  c.inFlight.countP fun k => (c.op? k).any (·.sampled)

/-- They come with their admission and go with their commit. -/
theorem Consistent.sampledInFlight_step (hc : c.Consistent) (hstep : Step c event d) :
    (Event.commits event.toList).countP (·.op.sampled) + d.sampledInFlight =
      c.sampledInFlight + (Event.admissions event.toList).countP (·.offered.sampled) := by
  have hkept : ∀ k ∈ c.inFlight, k ∈ d.inFlight →
      (d.op? k).any (·.sampled) = (c.op? k).any (·.sampled) := by
    intro k hk hk'
    have hsettled := congrArg (Option.any fun s : MicroOp.Settled => s.origin.sampled)
      (hc.settled_step hstep hk hk')
    rwa [Option.any_map, Option.any_map] at hsettled
  have hflight := hc.inFlight_step hstep
  have hquiet : d.inFlight = c.inFlight → 0 + d.sampledInFlight = c.sampledInFlight + 0 := by
    intro hsame
    rw [Nat.zero_add, sampledInFlight, hsame]
    exact List.countP_congr fun k hk => by rw [hkept k hk (hsame ▸ hk)]
  cases event with
  | none => exact hquiet (hflight.trans (List.append_nil _))
  | some event =>
      cases event with
      | told | recovered => exact hquiet (hflight.trans (List.append_nil _))
      | admitted a =>
          have hflight : d.inFlight = c.inFlight ++ [a.handle] := hflight
          have hnew : (d.op? a.handle).any (·.sampled) = a.offered.sampled := by
            rw [op?, hc.get?_of_admitted hstep, Option.any_some]
            exact congrArg MicroOp.Origin.sampled (origin_of_admitted hc hstep)
          have hold : c.inFlight.countP (fun k => (d.op? k).any (·.sampled)) = c.sampledInFlight :=
            List.countP_congr fun k hk => by
              rw [hkept k hk (hflight ▸ List.mem_append_left _ hk)]
          show 0 + d.sampledInFlight = _ + List.countP _ [a]
          rw [Nat.zero_add, sampledInFlight, hflight, List.countP_append, hold,
            List.countP_singleton, List.countP_singleton, hnew]
      | committed n =>
          have hflight := hc.inFlight_committed hstep
          have hgone : (c.op? n.handle).any (·.sampled) = n.op.sampled := by
            rw [op?, get?_of_committed hstep, Option.any_some]
          have hrest : d.inFlight.countP (fun k => (c.op? k).any (·.sampled)) = d.sampledInFlight :=
            List.countP_congr fun k hk => by
              rw [hkept k (hflight ▸ List.mem_cons_of_mem _ hk) hk]
          have hbefore : c.sampledInFlight = d.sampledInFlight + if n.op.sampled then 1 else 0 := by
            rw [sampledInFlight, hflight, List.countP_cons, hrest, hgone]
          show List.countP _ [n] + _ = c.sampledInFlight + 0
          rw [Nat.add_zero, hbefore, List.countP_singleton, Nat.add_comm]

/-! ## Runs -/

/-- What the flag, the marks and the counters have to do with the history. -/
structure Accounted (past : List Event) (c : Core (Recorded W)) : Prop where
  consistent : c.Consistent
  unmarked : c.Unmarked
  milestones : c.world.milestones = Event.milestones past
  flushing : c.recovery.flushing = Milestone.flushed (Event.milestones past)
  offers : ∀ before call after flushing, c.world.calls = before ++ call :: after →
    call.offer? = some flushing →
      flushing = Milestone.flushed (before.filterMap Call.milestone?)
  committed : c.stats.committed =
    (Milestone.commits (Event.milestones past)).countP PastCommit.isCounted
  admitted : c.stats.totalAdmitted = c.sampledInFlight +
    (Milestone.commits (Event.milestones past)).countP (·.op.sampled)

omit [Surroundings W] in
theorem Accounted.of_create {config : CoreConfig} {hart : Nat} {world : W}
    (hstart : create config hart ⟨world, []⟩ = .ok c) : Accounted [] c := by
  have hc := Consistent.of_create hstart
  obtain ⟨-, rfl⟩ := create_eq hstart
  exact {
    consistent := hc
    unmarked := fun _ => ⟨rfl, fun _ hk => absurd hk List.not_mem_nil⟩
    milestones := rfl
    flushing := rfl
    offers := fun _ _ _ _ hcalls => by
      simp [initial, Recorded.calls, Recorded.questions] at hcalls
    committed := rfl
    admitted := rfl }

theorem Accounted.step {past : List Event} (ha : Accounted past c) (hstep : Step c event d)
    (hfresh : ∀ a ∈ Event.admissions event.toList, a.offered.replayed = false) :
    Accounted (past ++ event.toList) d := by
  obtain ⟨new, hasked⟩ := asked_step hstep
  have htallied := tally_step hstep
  have hsampled := ha.consistent.sampledInFlight_step hstep
  -- The commit of a step is counted by the flag, which says what its past says.
  have hcommits : (Milestone.commitsAfter (Event.milestones past)
      (Event.milestones event.toList)) =
        (Event.commits event.toList).map fun n => ⟨Event.milestones past, n.op⟩ := by
    cases event with
    | none => rfl
    | some event => cases event <;> rfl
  have hcounts : ∀ n : NamedOp,
      c.counts n.op = (PastCommit.mk (Event.milestones past) n.op).isCounted := by
    intro n
    rw [counts, ha.flushing]
    rfl
  exact {
    consistent := ha.consistent.step hstep
    unmarked := ha.unmarked.step ha.consistent hstep hfresh
    milestones := by
      rw [Recorded.milestones, hasked.calls, List.filterMap_append, hasked.milestones,
        Event.milestones_append, ← ha.milestones]
      rfl
    flushing := by
      rw [Event.milestones_append]
      exact (recovery_step hstep).flushing ha.flushing
    offers := by
      intro before call after flushing hcalls hoffer
      have hnow : ∀ middle, before = c.world.calls ++ middle → new = middle ++ call :: after →
          flushing = Milestone.flushed (before.filterMap Call.milestone?) := by
        intro middle hbefore hnew
        obtain ⟨rfl, rfl⟩ := hasked.offers middle call after flushing hnew hoffer
        rw [hbefore, List.append_nil, ha.flushing, ← ha.milestones]
        rfl
      rw [hasked.calls] at hcalls
      obtain ⟨middle, hbefore, hnew⟩ | ⟨middle, hpast, hafter⟩ :=
        List.append_eq_append_iff.1 hcalls
      · exact hnow middle hbefore hnew
      · cases middle with
        | nil => exact hnow [] (by rw [hpast, List.append_nil, List.append_nil]) hafter.symm
        | cons first middle =>
            obtain rfl := (List.cons.inj hafter).1
            exact ha.offers before call middle flushing hpast hoffer
    committed := by
      rw [htallied.committed, ha.committed, Event.milestones_append, Milestone.commits_append,
        List.countP_append, hcommits, List.countP_map]
      exact congrArg (_ + ·) (List.countP_congr fun n _ => by rw [hcounts]; rfl)
    admitted := by
      rw [htallied.admitted, ha.admitted, Event.milestones_append, Milestone.commits_append,
        List.countP_append, hcommits, List.countP_map]
      have hsame : (Event.commits event.toList).countP ((fun n : PastCommit => n.op.sampled) ∘
          fun n => ⟨Event.milestones past, n.op⟩) =
            (Event.commits event.toList).countP (·.op.sampled) := rfl
      omega }

theorem Accounted.of_run {config : CoreConfig} {hart : Nat} {world : W} {start : Core (Recorded W)}
    (hstart : create config hart ⟨world, []⟩ = .ok start) (commands : List Command)
    (hfresh : ∀ a ∈ Event.admissions (start.history commands), a.offered.replayed = false) :
    Accounted (start.history commands) (start.run commands).2 := by
  exact (steps_run start commands).keeps_of_admissions (P := Accounted)
    (fun hpast hstep hnew => hpast.step hstep hnew) hfresh (.of_create hstart)

/-- **Flush accounting.** Whatever surrounds a core and whatever is done to it, if no
operation is marked when it is admitted, then the core flushes only while it recovers,
and what is marked is in flight only while it recovers. A commit is offered as flushed
exactly when a marked operation has committed in the recovery so far. What is counted
are the sampled commits that are neither marked nor behind one that is, and with those
left out and those in flight they are the admissions that were counted. -/
theorem commits_flushed_from_the_first_replayed {config : CoreConfig} {hart : Nat} {world : W}
    {start : Core (Recorded W)} (hstart : create config hart ⟨world, []⟩ = .ok start)
    (commands : List Command)
    (hfresh : ∀ a ∈ Event.admissions (start.history commands), a.offered.replayed = false) :
    let past := Event.milestones (start.history commands)
    let c := (start.run commands).2
    let inFlight := c.retiring.toList ++ c.rob.toList
    (c.recovery.flushing = true → c.recovery.recovering = true) ∧
      (∀ h ∈ inFlight, ∀ op, c.op? h = some op → op.replayed = true →
        c.recovery.recovering = true) ∧
      c.world.milestones = past ∧
      (∀ before op flushing granted after,
        c.world.calls = before ++ .mayCommit op flushing granted :: after →
          flushing = Milestone.flushed (before.filterMap Call.milestone?)) ∧
      c.stats.committed = (Milestone.commits past).countP PastCommit.isCounted ∧
      c.stats.admitted.toList.sum =
        c.stats.committed + (Milestone.commits past).countP PastCommit.isExcluded +
          inFlight.countP fun h => (c.op? h).any (·.sampled) := by
  intro past c inFlight
  have ha := Accounted.of_run hstart commands hfresh
  refine ⟨fun hflushing => ?_, fun h hmem op hop hmark => ?_, ha.milestones,
    fun before op flushing granted after hcalls => ha.offers before _ after flushing hcalls rfl,
    ha.committed, ?_⟩
  · refine Decidable.byContradiction fun hidle => ?_
    rw [(ha.unmarked (Bool.eq_false_iff.2 hidle)).1] at hflushing
    cases hflushing
  · refine Decidable.byContradiction fun hidle => ?_
    have hclear := (ha.unmarked (Bool.eq_false_iff.2 hidle)).2 h hmem
    have hop : c.pool.get? h = some op := hop
    rw [hop, Option.map_some, hmark] at hclear
    cases hclear
  · rw [ha.committed, ← PastCommit.countP_sampled, Nat.add_comm]
    exact ha.admitted

/-- Of five commits the second is of a replayed operation. It and the next two are
flushed, one of them outside any statistics window, and the last one commits after
the recovery. A sixth operation is still in flight. -/
theorem two_counted_of_five_commits :
    let op : Nat → MicroOp := fun id => { id, pc := 0, inst := { opcode := .alu } }
    let config : CoreConfig := { maxRobSize := 8, retireDelay := 0, retireWidth := 2 }
    let world : Recorded Obliging := ⟨{ buckets := [[op 5]] }, []⟩
    let start : Core (Recorded Obliging) := .initial config 0 world
    let commands : List Command :=
      [.activate, .add (op 1), .add (op 2), .add (op 3), .add { op 4 with sampled := false },
        .replay ⟨1, 2⟩, .executed ⟨0, 1⟩, .executed ⟨1, 2⟩, .executed ⟨2, 3⟩, .executed ⟨3, 4⟩,
        .advance, .advance, .advance, .add (op 6), .executed ⟨3, 5⟩, .advance]
    let past := Event.milestones (start.history commands)
    let c := (start.run commands).2
    create config 0 world = .ok start ∧
      (∀ a ∈ Event.admissions (start.history commands), a.offered.replayed = false) ∧
      (Milestone.commits past).map PastCommit.isFlushed = [false, true, true, true, false] ∧
      (Milestone.commits past).countP PastCommit.isExcluded = 2 ∧
      c.stats.committed = 2 ∧ c.stats.admitted.toList.sum = 5 ∧ c.world.milestones = past := by
  intro op config world start commands past c
  have hstart : create config 0 world = .ok start := rfl
  have hfresh : ∀ a ∈ Event.admissions (start.history commands), a.offered.replayed = false := by
    decide +kernel
  obtain ⟨-, -, hmilestones, -⟩ := commits_flushed_from_the_first_replayed hstart commands hfresh
  exact ⟨hstart, hfresh, by decide +kernel, by decide +kernel, by decide +kernel,
    by decide +kernel, hmilestones⟩

end Core

end OutOfOrder
