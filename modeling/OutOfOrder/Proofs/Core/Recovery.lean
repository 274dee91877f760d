import OutOfOrder.Proofs.Core.Report
import OutOfOrder.Proofs.Core.Step

/-!
# How a recovery moves

Three events move a recovery on. A request that is heard starts it, or raises
its replay point if it has started; the commit of a replayed operation starts
the flushing; and the cycle that finds the core drained ends it. Everything
else leaves it where it is, and no event takes the replay point back.

`RecoveryStep` is the only place where the steps are gone through for this: a
law about recoveries is checked against its four cases.
-/

namespace OutOfOrder

namespace Recovery

/-- The recovery after a request that was heard. -/
def requested (r : Recovery) (id : Nat) : Recovery :=
  { r with recovering := true, replayPoint := max r.replayPoint id }

/-- The recovery after the core was found drained. -/
def ended (r : Recovery) : Recovery :=
  { r with recovering := false, flushing := false, lastReplay := r.replayPoint }

end Recovery

namespace Core

variable {W : Type} {c d : Core W} {event : Option Event} {r : Recovery}

/-- The counters after a request that was heard: only the one that starts a
recovery counts. -/
def statsRequested [FrontEnd W] (c : Core W) (op : MicroOp) : Counters :=
  if c.recovery.recovering then c.stats
  else c.stats.countReplay (c.queue.held + FrontEnd.inFlight c.world + c.rob.size) op.sampled

/-- The surroundings after a request that was heard: the one that starts a recovery looks
at the front end for what is to be counted. -/
def worldRequested [FrontEnd W] (c : Core W) : W :=
  if c.recovery.recovering then c.world else (FrontEnd.askInFlight c.world).2

/-- A request is not heard, or it marks its operation and the core recovers. -/
theorem replay_cases [FrontEnd W] (c : Core W) (h : Handle) :
    c.replay h = c ∨ ∃ op, c.pool.get? h = some op ∧ c.replay h = { c with
      world := c.worldRequested
      pool := c.pool.modify h MicroOp.markReplayed
      recovery := c.recovery.requested h.id
      stats := c.statsRequested op } := by
  rw [replay]
  split
  · exact .inl rfl
  · split
    · exact .inl rfl
    · next op hop =>
        refine .inr ⟨op, hop, ?_⟩
        rw [Recovery.requested, statsRequested, worldRequested]
        dsimp only
        split
        · next hrecovering => rw [hrecovering]; rfl
        · rfl

/-- What a step makes of the recovery. -/
inductive RecoveryStep (c : Core W) : Option Event → Recovery → Prop
  | stays {event : Option Event} (hlasts : event ≠ some .recovered)
      (hcommits : Event.commits event.toList = []) : RecoveryStep c event c.recovery
  | requested {h : Handle} {op : MicroOp} (hop : c.pool.get? h = some op) :
      RecoveryStep c (some (.told (.replay h))) (c.recovery.requested h.id)
  | committed (n : NamedOp) : RecoveryStep c (some (.committed n)) (c.recoveryCommitting n.op)
  | ended (hrecovering : c.recovery.recovering) (hdrained : c.isDrained) :
      RecoveryStep c (some .recovered) c.recovery.ended

namespace RecoveryStep

theorem replayPoint_le (h : RecoveryStep c event r) :
    c.recovery.replayPoint ≤ r.replayPoint := by
  cases h with
  | stays | ended => exact Nat.le_refl _
  | requested => exact Nat.le_max_left _ _
  | committed n =>
      rw [recoveryCommitting]
      split <;> exact Nat.le_refl _

/-- A recovery goes on until it ends. -/
theorem recovering (h : RecoveryStep c event r) (hc : c.recovery.recovering = true)
    (hlasts : event ≠ some .recovered) : r.recovering = true := by
  cases h with
  | stays => exact hc
  | requested => rfl
  | committed n =>
      rw [recoveryCommitting]
      split <;> exact hc
  | ended => exact absurd rfl hlasts

end RecoveryStep

/-! ## Steps -/

variable [Surroundings W]

theorem recovery_commit (c : Core W) (h : Handle) (op : MicroOp) :
    (c.commit h op).recovery = c.recoveryCommitting op := by
  rw [commit, settle]
  split <;> rfl

theorem recovery_step (h : Step c event d) : RecoveryStep c event d.recovery := by
  have hsilent : d.recovery = c.recovery → RecoveryStep c none d.recovery :=
    fun heq => heq ▸ .stays (Option.some_ne_none _).symm rfl
  have htold : ∀ command, d.recovery = c.recovery →
      RecoveryStep c (some (.told command)) d.recovery :=
    fun command heq => heq ▸ .stays (by simp) rfl
  cases h with
  | rest | charge | refuse | sample | holdRob | promote | dropRob | holdRetiring
  | dropRetiring => exact hsilent rfl
  | fetch =>
      obtain ⟨_, _, _, heq⟩ := fetch_eq c
      exact hsilent (by rw [heq])
  | tick =>
      obtain ⟨_, _, _, _, heq⟩ := tick_eq c
      exact hsilent (by rw [heq])
  | decode =>
      obtain ⟨_, _, _, heq⟩ := decode_eq c
      exact hsilent (by rw [heq])
  | activate | deactivate | arm | issued => exact htold _ rfl
  | executing h => exact htold _ (by rw [executing_eq])
  | executed h =>
      obtain ⟨-, heq⟩ | ⟨op, -, heq⟩ := executed_cases c h <;> exact htold _ (by rw [heq])
  | performed h =>
      obtain ⟨op, -, -, heq⟩ | ⟨-, heq⟩ := performed_cases c h <;> exact htold _ (by rw [heq])
  | replay h =>
      obtain heq | ⟨op, hop, heq⟩ := replay_cases c h
      · exact htold _ (by rw [heq])
      · rw [heq]
        exact .requested hop
  | accept => exact .stays (by simp) rfl
  | recover hrecovering hdrained => exact .ended hrecovering hdrained
  | @commit h op world htop hop hdelay hanswer =>
      rw [recovery_commit]
      exact .committed ⟨h, op⟩

end Core

end OutOfOrder
