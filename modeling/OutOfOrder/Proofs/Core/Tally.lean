import Mathlib.Algebra.GroupWithZero.Nat
import OutOfOrder.Proofs.Core.Admission
import OutOfOrder.Proofs.Core.Recovery

/-!
# What is counted, and when

Most updates of the counters are about cycles, stalls and averages. Two follow
the operations: one counts an operation when it is admitted, by its opcode, the
other when it commits. A commit is left out if the operation was marked for a
replay, or if one that was has committed before it in the same recovery. And two
follow the replays.

`Counters.SameTally` says that an update leaves the first two alone, and
`tally_step` which steps do not. `Counters.SameReplays` says it of the others.
What most steps count is neither, which is `Counters.SameCounts`.
-/

namespace OutOfOrder

namespace Counters

variable {s t : Counters}

/-- Admissions of all opcode classes together. -/
def totalAdmitted (s : Counters) : Nat := s.admitted.toList.sum

/-- `t` counts the same commits and admissions as `s`. -/
structure SameTally (s t : Counters) : Prop where
  committed : t.committed = s.committed
  admitted : t.admitted = s.admitted

theorem SameTally.totalAdmitted (h : SameTally s t) : t.totalAdmitted = s.totalAdmitted := by
  rw [Counters.totalAdmitted, h.admitted, Counters.totalAdmitted]

/-- `t` counts the same replays as `s`. -/
structure SameReplays (s t : Counters) : Prop where
  replays : t.replays = s.replays
  waste : t.replayWaste = s.replayWaste

/-- `t` counts the same commits, admissions and replays as `s`. -/
structure SameCounts (s t : Counters) : Prop extends SameTally s t, SameReplays s t

theorem SameCounts.refl (s : Counters) : SameCounts s s := ⟨⟨rfl, rfl⟩, ⟨rfl, rfl⟩⟩

theorem sameCounts_chargeStall (s : Counters) (cause : StallCause) (slots : Nat)
    (enabled : Bool) : SameCounts s (s.chargeStall cause slots enabled) := by
  cases enabled <;> exact ⟨⟨rfl, rfl⟩, ⟨rfl, rfl⟩⟩

theorem sameCounts_countLoad (s : Counters) (speculative enabled : Bool) :
    SameCounts s (s.countLoad speculative enabled) := by
  cases enabled <;> cases speculative <;> exact ⟨⟨rfl, rfl⟩, ⟨rfl, rfl⟩⟩

theorem sameCounts_countTick (s : Counters) (enabled : Bool) :
    SameCounts s (s.countTick enabled) := by
  cases enabled <;> exact ⟨⟨rfl, rfl⟩, ⟨rfl, rfl⟩⟩

theorem sameCounts_countFull (s : Counters) (enabled : Bool) :
    SameCounts s (s.countFull enabled) := by
  cases enabled <;> exact ⟨⟨rfl, rfl⟩, ⟨rfl, rfl⟩⟩

theorem sameCounts_countMissing (s : Counters) (enabled : Bool) :
    SameCounts s (s.countMissing enabled) := by
  cases enabled <;> exact ⟨⟨rfl, rfl⟩, ⟨rfl, rfl⟩⟩

theorem totalAdmitted_countCommit (s : Counters) (enabled : Bool) :
    (s.countCommit enabled).totalAdmitted = s.totalAdmitted := by
  cases enabled <;> rfl

theorem committed_countCommit (s : Counters) (enabled : Bool) :
    (s.countCommit enabled).committed = s.committed + enabled.toNat := by
  rw [countCommit]
  cases enabled <;> rfl

theorem committed_countAdmission (s : Counters) (opcode : Opcode) (enabled : Bool) :
    (s.countAdmission opcode enabled).committed = s.committed := by
  cases enabled <;> rfl

theorem sum_set_succ {counts : List Nat} {i : Nat} (hi : i < counts.length) :
    (counts.set i (counts[i] + 1)).sum = counts.sum + 1 := by
  have hsum : counts.sum = (counts.take i).sum + (counts[i] + (counts.drop (i + 1)).sum) := by
    rw [← List.sum_cons, List.getElem_cons_drop, ← List.sum_append, List.take_append_drop]
  rw [List.set_eq_take_append_cons_drop, if_pos hi, List.sum_append, List.sum_cons]
  omega

theorem totalAdmitted_countAdmission (s : Counters) (opcode : Opcode) (enabled : Bool) :
    (s.countAdmission opcode enabled).totalAdmitted = s.totalAdmitted + enabled.toNat := by
  cases enabled with
  | false => rfl
  | true =>
      have hi : opcode.index.val < s.admitted.toList.length := by simp
      exact sum_set_succ hi

end Counters

namespace Core

variable {W : Type} {c d : Core W}

/-- Whether the commit of an operation would be counted now. -/
def counts (c : Core W) (op : MicroOp) : Bool :=
  op.sampled && !(op.replayed || c.recovery.flushing)

theorem sameCounts_tick (c : Core W) : c.stats.SameCounts c.tick.stats := by
  have htick := Counters.sameCounts_countTick c.stats c.nextSampling
  rw [tick]
  dsimp only
  split <;> exact htick

/-- A load that is admitted is counted as such besides, which no law here is about. -/
theorem sameCounts_load (c : Core W) (op : MicroOp) :
    c.stats.SameCounts (if op.inst.opcode.isLoad then
      c.stats.countLoad c.hasUnresolved op.sampled else c.stats) := by
  split
  · exact Counters.sameCounts_countLoad _ _ _
  · exact .refl _

variable [Surroundings W]

omit [Surroundings W] in
theorem sameTally_replay [FrontEnd W] (c : Core W) (h : Handle) :
    c.stats.SameTally (c.replay h).stats := by
  obtain heq | ⟨op, -, heq⟩ := replay_cases c h
  · rw [heq]
    exact ⟨rfl, rfl⟩
  · rw [heq, statsRequested]
    dsimp only
    split <;> exact ⟨rfl, rfl⟩

theorem sameCounts_fetch (c : Core W) : c.stats.SameCounts c.fetch.stats := by
  rw [fetch]
  dsimp only
  split
  · exact .refl _
  · split
    · exact .refl _
    · exact ⟨⟨rfl, rfl⟩, ⟨rfl, rfl⟩⟩

theorem sameCounts_decode (c : Core W) : c.stats.SameCounts c.decode.stats := by
  rw [decode]
  split
  · exact Counters.sameCounts_countFull c.stats c.sampling
  · split
    · exact .refl _
    · exact Counters.sameCounts_countMissing c.stats c.sampling

theorem tally_admitOp (c : Core W) (op : MicroOp) :
    (c.admitOp op).2.stats.committed = c.stats.committed ∧
      (c.admitOp op).2.stats.totalAdmitted = c.stats.totalAdmitted + op.sampled.toNat := by
  have hload := sameCounts_load c op
  show (c.statsAdmitting op).committed = _ ∧ (c.statsAdmitting op).totalAdmitted = _
  rw [statsAdmitting, Counters.totalAdmitted_countAdmission, Counters.committed_countAdmission,
    hload.totalAdmitted, hload.committed]
  exact ⟨rfl, rfl⟩

theorem stats_commit (c : Core W) (h : Handle) (op : MicroOp) :
    (c.commit h op).stats = c.stats.countCommit (c.counts op) := by
  have hcounts : (!(c.recoveryCommitting op).flushing && op.sampled) = c.counts op := by
    rw [counts, recoveryCommitting, Bool.and_comm]
    cases op.replayed <;> rfl
  rw [commit, settle, ← hcounts]
  split <;> rfl

/-- Every admission and every commit is counted in its step, and nothing else is. -/
structure Tallied (c : Core W) (event : Option Event) (d : Core W) : Prop where
  committed : d.stats.committed =
    c.stats.committed + (Event.commits event.toList).countP fun n => c.counts n.op
  admitted : d.stats.totalAdmitted =
    c.stats.totalAdmitted + (Event.admissions event.toList).countP (·.offered.sampled)

omit [Surroundings W] in
theorem Tallied.quiet {event : Option Event} (hsame : c.stats.SameTally d.stats)
    (hcommits : Event.commits event.toList = [])
    (hadmissions : Event.admissions event.toList = []) : Tallied c event d where
  committed := by rw [hcommits, hsame.committed, List.countP_nil, Nat.add_zero]
  admitted := by rw [hadmissions, hsame.totalAdmitted, List.countP_nil, Nat.add_zero]

theorem tally_step {event : Option Event} (h : Step c event d) : Tallied c event d := by
  cases h with
  | activate | deactivate | arm | issued | rest | recover | refuse | holdRob | promote | dropRob
  | sample | holdRetiring | dropRetiring => exact .quiet ⟨rfl, rfl⟩ rfl rfl
  | charge => exact .quiet (Counters.sameCounts_chargeStall _ _ _ _).toSameTally rfl rfl
  | fetch => exact .quiet (sameCounts_fetch c).toSameTally rfl rfl
  | tick => exact .quiet (sameCounts_tick c).toSameTally rfl rfl
  | decode => exact .quiet (sameCounts_decode c).toSameTally rfl rfl
  | executing h => exact .quiet (by rw [executing_eq]; exact ⟨rfl, rfl⟩) rfl rfl
  | executed h =>
      obtain ⟨-, heq⟩ | ⟨op, -, heq⟩ := executed_cases c h <;>
        exact .quiet (by rw [heq]; exact ⟨rfl, rfl⟩) rfl rfl
  | performed h =>
      obtain ⟨op, -, -, heq⟩ | ⟨-, heq⟩ := performed_cases c h <;>
        exact .quiet (by rw [heq]; exact ⟨rfl, rfl⟩) rfl rfl
  | replay h => exact .quiet (sameTally_replay c h) rfl rfl
  | @accept op world queue hroom hanswer hqueue =>
      obtain ⟨hcommitted, hadmitted⟩ := tally_admitOp { c with world } op
      refine ⟨hcommitted, hadmitted.trans ?_⟩
      show _ = _ + List.countP _ [_]
      rw [List.countP_singleton, offered_admitOp]
      cases op.sampled <;> rfl
  | @commit h op world htop hop hdelay hanswer =>
      have hstats := stats_commit { c with world } h op
      refine ⟨?_, ?_⟩
      · show (({ c with world } : Core W).commit h op).stats.committed = _ + List.countP _ [_]
        rw [hstats, Counters.committed_countCommit, List.countP_singleton]
        show c.stats.committed + (c.counts op).toNat = _
        cases c.counts op <;> rfl
      · show (({ c with world } : Core W).commit h op).stats.totalAdmitted = _
        rw [hstats, Counters.totalAdmitted_countCommit]
        rfl

end Core

end OutOfOrder
