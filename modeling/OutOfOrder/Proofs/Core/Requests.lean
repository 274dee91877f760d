import OutOfOrder.Proofs.Core.Marks

/-!
# Which requests for a replay are heard

A core hears a request if no serialization budget is left, replays are honoured
at all, and the handle names something. What a run heard, and what of it started
a recovery, is read off the states in which the commands arrive.

Everything that a recovery counts follows from these two lists. The replay point
is the largest identifier that was heard. A recovery is started by a request that
finds no other in progress, and ends in one event, so the starts of a run are its
ends and the recovery that still lasts. The two counters of replays move with the
starts alone, and only with those whose operation is sampled.
-/

namespace OutOfOrder

namespace Counters

variable (s : Counters) (enabled : Bool)

theorem sameReplays_countAdmission (opcode : Opcode) :
    SameReplays s (s.countAdmission opcode enabled) := by
  cases enabled <;> exact ⟨rfl, rfl⟩

theorem sameReplays_countCommit : SameReplays s (s.countCommit enabled) := by
  cases enabled <;> exact ⟨rfl, rfl⟩

theorem count_countReplay (wasted : Nat) :
    (s.countReplay wasted enabled).replays = s.replays + enabled.toNat ∧
      (s.countReplay wasted enabled).replayWaste.count = s.replayWaste.count + enabled.toNat := by
  cases enabled <;> exact ⟨rfl, rfl⟩

end Counters

namespace Core

variable {W : Type}

/-- The operation that a command asks to replay, if the core hears it. -/
def heard (c : Core W) : Command → Option NamedOp
  | .replay h =>
    if c.serializer.budget = 0 ∧ c.config.memoryReplay = true then (c.op? h).map (⟨h, ·⟩) else none
  | _ => none

/-- The operation of the request that starts a recovery, if the command is one. -/
def opens (c : Core W) (command : Command) : Option NamedOp :=
  if c.recovery.recovering then none else c.heard command

/-- The operations of the requests that are heard while commands are carried out. -/
def requests [Surroundings W] (c : Core W) : List Command → List NamedOp
  | [] => []
  | command :: rest => (c.heard command).toList ++ (c.perform command).2.requests rest

/-- The operations of the requests that start a recovery while commands are carried
out. -/
def openings [Surroundings W] (c : Core W) : List Command → List NamedOp
  | [] => []
  | command :: rest => (c.opens command).toList ++ (c.perform command).2.openings rest

variable {c d : Core W} {h : Handle} {n : NamedOp}

theorem heard_eq_none {command : Command} (hother : ∀ h, command ≠ .replay h) :
    c.heard command = none := by
  cases command with
  | replay h => exact absurd rfl (hother h)
  | activate | deactivate | advance | add | issued | executing | executed | performed | arm => rfl

theorem opens_eq_none {command : Command} (hother : ∀ h, command ≠ .replay h) :
    c.opens command = none := by
  rw [opens, heard_eq_none hother, ite_self]

theorem replay_of_heard_eq_none [FrontEnd W] (hdeaf : c.heard (.replay h) = none) :
    c.replay h = c := by
  rw [heard] at hdeaf
  split at hdeaf
  · next hopen =>
      have hop : c.pool.get? h = none := Option.map_eq_none_iff.1 hdeaf
      rw [replay, hopen.1, hopen.2, hop]
      rfl
  · next hclosed => exact replay_of_deaf hclosed

/-- A request that is heard marks its operation, raises the replay point, and starts a
recovery unless one is in progress. -/
theorem replay_of_heard [FrontEnd W] (hheard : c.heard (.replay h) = some n) :
    n.handle = h ∧ c.replay h = { c with
      world := c.worldRequested
      pool := c.pool.modify h MicroOp.markReplayed
      recovery := c.recovery.requested h.id
      stats := c.statsRequested n.op } := by
  rw [heard] at hheard
  split at hheard
  · next hopen =>
      obtain ⟨op, hop, rfl⟩ := Option.map_eq_some_iff.1 hheard
      have hop : c.pool.get? h = some op := hop
      refine ⟨rfl, ?_⟩
      rw [replay, hopen.1, hopen.2, hop, Recovery.requested, statsRequested, worldRequested]
      dsimp only
      split
      · next hdeaf => cases hdeaf
      · split
        · next hrecovering => rw [hrecovering]; rfl
        · rfl
  · cases hheard

/-! ## Steps -/

variable [Surroundings W] {event : Option Event} {events : List Event}

omit [Surroundings W] in
theorem RecoveryStep.replayPoint_eq {r : Recovery} (hstep : RecoveryStep c event r)
    (hsilent : ∀ k, event ≠ some (.told (.replay k))) :
    r.replayPoint = c.recovery.replayPoint := by
  cases hstep with
  | stays | ended => rfl
  | requested => exact absurd rfl (hsilent _)
  | committed n =>
      rw [recoveryCommitting]
      split <;> rfl

omit [Surroundings W] in
/-- A recovery that is in progress and no longer is after a step has ended in it, and none
starts without a request. -/
theorem RecoveryStep.count_recovered {r : Recovery} (hstep : RecoveryStep c event r)
    (hsilent : ∀ k, event ≠ some (.told (.replay k))) :
    event.toList.count .recovered + r.recovering.toNat = c.recovery.recovering.toNat := by
  cases hstep with
  | @stays event hlasts =>
      have hnone : event.toList.count .recovered = 0 :=
        List.count_eq_zero.2 fun hmem => hlasts (Option.mem_toList.1 hmem)
      rw [hnone, Nat.zero_add]
  | requested => exact absurd rfl (hsilent _)
  | committed n =>
      rw [recoveryCommitting]
      split <;> exact Nat.zero_add _
  | ended hrecovering => rw [hrecovering]; rfl

theorem replayPoint_steps (hsteps : Steps c events d) (hsilent : ∀ k, .told (.replay k) ∉ events) :
    d.recovery.replayPoint = c.recovery.replayPoint := by
  refine hsteps.keeps (P := fun past e => (∀ k, .told (.replay k) ∉ past) →
    e.recovery.replayPoint = c.recovery.replayPoint) (fun hpast hstep hsilent => ?_)
    (fun _ => rfl) hsilent
  simp only [List.mem_append, not_or, Option.mem_toList] at hsilent
  rw [(recovery_step hstep).replayPoint_eq fun k => (hsilent k).2]
  exact hpast fun k => (hsilent k).1

theorem count_recovered_steps (hsteps : Steps c events d)
    (hsilent : ∀ k, .told (.replay k) ∉ events) :
    events.count .recovered + d.recovery.recovering.toNat = c.recovery.recovering.toNat := by
  refine hsteps.keeps (P := fun past e => (∀ k, .told (.replay k) ∉ past) →
    past.count .recovered + e.recovery.recovering.toNat = c.recovery.recovering.toNat)
    (fun hpast hstep hsilent => ?_) (fun _ => Nat.zero_add _) hsilent
  simp only [List.mem_append, not_or, Option.mem_toList] at hsilent
  rw [List.count_append, Nat.add_assoc,
    (recovery_step hstep).count_recovered fun k => (hsilent k).2]
  exact hpast fun k => (hsilent k).1

theorem sameReplays_admitOp (c : Core W) (op : MicroOp) :
    c.stats.SameReplays (c.admitOp op).2.stats := by
  show c.stats.SameReplays (c.statsAdmitting op)
  have hload := sameCounts_load c op
  have hadmission := Counters.sameReplays_countAdmission (if op.inst.opcode.isLoad then
    c.stats.countLoad c.hasUnresolved op.sampled else c.stats) op.sampled op.inst.opcode
  exact ⟨hadmission.replays.trans hload.replays, hadmission.waste.trans hload.waste⟩

/-- Only a request changes the counters of replays. -/
theorem sameReplays_step (hstep : Step c event d)
    (hsilent : ∀ k, event ≠ some (.told (.replay k))) : c.stats.SameReplays d.stats := by
  cases hstep with
  | replay => exact absurd rfl (hsilent _)
  | activate | deactivate | arm | issued | rest | recover | refuse | holdRob | promote | dropRob
  | sample | holdRetiring | dropRetiring => exact ⟨rfl, rfl⟩
  | charge => exact (Counters.sameCounts_chargeStall _ _ _ _).toSameReplays
  | fetch => exact (sameCounts_fetch c).toSameReplays
  | tick => exact (sameCounts_tick c).toSameReplays
  | decode => exact (sameCounts_decode c).toSameReplays
  | executing h => rw [executing_eq]; exact ⟨rfl, rfl⟩
  | executed h =>
      obtain ⟨-, heq⟩ | ⟨op, -, heq⟩ := executed_cases c h <;> rw [heq] <;> exact ⟨rfl, rfl⟩
  | performed h =>
      obtain ⟨op, -, -, heq⟩ | ⟨-, heq⟩ := performed_cases c h <;> rw [heq] <;> exact ⟨rfl, rfl⟩
  | @accept op world => exact sameReplays_admitOp { c with world } op
  | @commit h op world =>
      rw [stats_commit]
      exact c.stats.sameReplays_countCommit _

theorem sameReplays_steps (hsteps : Steps c events d)
    (hsilent : ∀ k, .told (.replay k) ∉ events) : c.stats.SameReplays d.stats := by
  refine hsteps.keeps (P := fun past e => (∀ k, .told (.replay k) ∉ past) →
    c.stats.SameReplays e.stats) (fun hpast hstep hsilent => ?_) (fun _ => ⟨rfl, rfl⟩) hsilent
  simp only [List.mem_append, not_or, Option.mem_toList] at hsilent
  obtain ⟨hreplays, hwaste⟩ := hpast fun k => (hsilent k).1
  have hsame := sameReplays_step hstep fun k => (hsilent k).2
  exact ⟨hsame.replays.trans hreplays, hsame.waste.trans hwaste⟩

/-! ## Runs -/

theorem replayPoint_perform (c : Core W) (command : Command) :
    (c.perform command).2.recovery.replayPoint =
      ((c.heard command).toList.map (·.handle.id)).foldl max c.recovery.replayPoint := by
  obtain ⟨h, rfl⟩ | ⟨hother, hsilent⟩ := request_or_silent c command
  · show (c.replay h).recovery.replayPoint = _
    cases hheard : c.heard (.replay h) with
    | none => rw [replay_of_heard_eq_none hheard]; rfl
    | some n =>
        obtain ⟨rfl, heq⟩ := replay_of_heard hheard
        rw [heq]
        rfl
  · rw [heard_eq_none hother, replayPoint_steps (steps_perform c command) hsilent]
    rfl

theorem replayPoint_run (c : Core W) (commands : List Command) :
    (c.run commands).2.recovery.replayPoint =
      ((c.requests commands).map (·.handle.id)).foldl max c.recovery.replayPoint := by
  induction commands generalizing c with
  | nil => rfl
  | cons command rest ih =>
      rw [run, requests, List.map_append, List.foldl_append, ← replayPoint_perform]
      exact ih _

theorem length_opens (c : Core W) (command : Command) :
    (c.opens command).toList.length + c.recovery.recovering.toNat =
      ((c.perform command).1.events command).count .recovered +
        (c.perform command).2.recovery.recovering.toNat := by
  obtain ⟨h, rfl⟩ | ⟨hother, hsilent⟩ := request_or_silent c command
  · show _ = 0 + (c.replay h).recovery.recovering.toNat
    rw [opens]
    cases hheard : c.heard (.replay h) with
    | none => rw [replay_of_heard_eq_none hheard, ite_self]; rfl
    | some n =>
        rw [(replay_of_heard hheard).2]
        cases c.recovery.recovering <;> rfl
  · rw [opens_eq_none hother, count_recovered_steps (steps_perform c command) hsilent]
    exact Nat.zero_add _

/-- The recoveries that were started are those that have ended and the one in progress. -/
theorem length_openings (c : Core W) (commands : List Command) :
    (c.openings commands).length + c.recovery.recovering.toNat =
      (c.history commands).count .recovered +
        (c.run commands).2.recovery.recovering.toNat := by
  induction commands generalizing c with
  | nil => rfl
  | cons command rest ih =>
      have hfirst := length_opens c command
      have hrest := ih (c.perform command).2
      rw [openings, history, snd_run_cons, List.length_append, List.count_append]
      omega

theorem replays_perform (c : Core W) (command : Command) :
    (c.perform command).2.stats.replays =
        c.stats.replays + (c.opens command).toList.countP (·.op.sampled) ∧
      (c.perform command).2.stats.replayWaste.count =
        c.stats.replayWaste.count + (c.opens command).toList.countP (·.op.sampled) := by
  obtain ⟨h, rfl⟩ | ⟨hother, hsilent⟩ := request_or_silent c command
  · show (c.replay h).stats.replays = _ ∧ (c.replay h).stats.replayWaste.count = _
    rw [opens]
    cases hheard : c.heard (.replay h) with
    | none => rw [replay_of_heard_eq_none hheard, ite_self]; exact ⟨rfl, rfl⟩
    | some n =>
        rw [(replay_of_heard hheard).2]
        dsimp only
        rw [statsRequested]
        split
        · exact ⟨rfl, rfl⟩
        · have hsampled : (some n).toList.countP (·.op.sampled) = n.op.sampled.toNat := by
            rw [Option.toList_some, List.countP_singleton]
            cases n.op.sampled <;> rfl
          rw [hsampled]
          exact c.stats.count_countReplay n.op.sampled _
  · have hsame := sameReplays_steps (steps_perform c command) hsilent
    rw [opens_eq_none hother, hsame.replays, hsame.waste]
    exact ⟨rfl, rfl⟩

theorem replays_run (c : Core W) (commands : List Command) :
    (c.run commands).2.stats.replays =
        c.stats.replays + (c.openings commands).countP (·.op.sampled) ∧
      (c.run commands).2.stats.replayWaste.count =
        c.stats.replayWaste.count + (c.openings commands).countP (·.op.sampled) := by
  induction commands generalizing c with
  | nil => exact ⟨rfl, rfl⟩
  | cons command rest ih =>
      obtain ⟨hreplays, hwaste⟩ := replays_perform c command
      obtain ⟨hreplays', hwaste'⟩ := ih (c.perform command).2
      rw [snd_run_cons, openings, List.countP_append]
      omega

end Core

end OutOfOrder
