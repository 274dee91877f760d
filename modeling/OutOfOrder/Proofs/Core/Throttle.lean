import OutOfOrder.Proofs.Core.Recovery
import OutOfOrder.Proofs.Core.Serialization

/-!
# How the level and the budget move

Whether a request is heard and how memory operations are ordered depends on two
numbers, the budget and the level. Four things move them. An admission takes level
3 for level 2 and, unless the core recovers, pays one unit of the budget; the end of
a recovery relaxes or tightens; and the budget can be set from outside. A commit
makes the serializer forget handles, and neither number is one.

`ThrottleStep` lists the four, and `throttle_step` is where the steps are gone
through. The two thresholds of a recovery are sums that stop at the largest
identifier. Below it that makes no difference, which is `far_near_iff`; at it the
replay point can be too far and never too near.
-/

namespace OutOfOrder

namespace Serializer

variable (s : Serializer) (p : Pool) (h : Handle) (op : MicroOp)

theorem admitFull_fst :
    (s.admitFull p h op).1.level = s.level ∧ (s.admitFull p h op).1.budget = s.budget := by
  unfold admitFull
  split <;> exact ⟨rfl, rfl⟩

theorem admitStores_fst :
    (s.admitStores p h op).1.level = s.level ∧ (s.admitStores p h op).1.budget = s.budget := by
  unfold admitStores
  split
  · exact ⟨rfl, rfl⟩
  · split <;> exact ⟨rfl, rfl⟩

theorem admitWindow_fst :
    (s.admitWindow p h op).1.level = s.level ∧ (s.admitWindow p h op).1.budget = s.budget := by
  unfold admitWindow
  dsimp only
  split
  · exact ⟨rfl, rfl⟩
  · split <;> exact ⟨rfl, rfl⟩

/-- An admission takes level 3 for level 2, and pays unless the core recovers. -/
theorem apply_fst (recovering : Bool) :
    (s.apply p h recovering).1.level = min s.level maxSerializeLevel ∧
      (s.apply p h recovering).1.budget = if recovering then s.budget else s.budget - 1 := by
  cases recovering with
  | true =>
      unfold apply
      simp
  | false =>
      unfold apply
      by_cases hbudget : s.budget = 0
      · -- Nothing is paid from an empty budget, and the difference is cut off at zero.
        simp [hbudget]
      · simp only [beq_iff_eq, hbudget, Bool.or_false, if_false, Bool.false_eq_true]
        split
        · exact ⟨rfl, rfl⟩
        · split
          · obtain ⟨hlevel, hpaid⟩ := admitFull_fst _ p h ‹MicroOp›
            exact ⟨hlevel, hpaid⟩
          · obtain ⟨hlevel, hpaid⟩ := admitStores_fst _ p h ‹MicroOp›
            exact ⟨hlevel, hpaid⟩
          · obtain ⟨hlevel, hpaid⟩ := admitWindow_fst _ p h ‹MicroOp›
            exact ⟨hlevel, hpaid⟩

end Serializer

namespace Core

variable {W : Type} {c d : Core W} {event : Option Event}

/-! ## The end of a recovery -/

theorem serializer_finishRecovery [Emulator W] (c : Core W) :
    c.finishRecovery.serializer =
      adapt c.config c.recovery.lastReplay c.recovery.replayPoint c.serializer := rfl

/-- `point` lies more than two thresholds behind `last`. -/
def Far (config : CoreConfig) (last point : Nat) : Prop :=
  min (last + 2 * config.progressThreshold) maxId < point

/-- `point` lies less than a threshold behind `last`. -/
def Near (config : CoreConfig) (last point : Nat) : Prop :=
  point < min (last + config.progressThreshold) maxId

section Adapt

variable {config : CoreConfig} {last point : Nat} {s : Serializer}

theorem not_far_of_near (hnear : Near config last point) : ¬ Far config last point := by
  unfold Near at hnear
  unfold Far
  omega

/-- Below the largest identifier it does not matter that the thresholds stop there. -/
theorem far_near_iff (hpoint : point < maxId) :
    (Far config last point ↔ last + 2 * config.progressThreshold < point) ∧
      (Near config last point ↔ point < last + config.progressThreshold) := by
  unfold Far Near
  constructor <;> omega

theorem adapt_far (hfar : Far config last point) : adapt config last point s = s.relax := by
  have hnear : ¬ Near config last point := fun hnear => not_far_of_near hnear hfar
  unfold Far at hfar
  unfold Near at hnear
  unfold adapt
  dsimp only
  rw [if_neg hnear, if_pos hfar]

theorem adapt_near (hnear : Near config last point) :
    adapt config last point s = s.tighten.arm config.serialize := by
  have hfar := not_far_of_near hnear
  unfold Far at hfar
  unfold Near at hnear
  unfold adapt
  dsimp only
  rw [if_pos hnear, if_neg hfar]

theorem adapt_between (hfar : ¬ Far config last point) (hnear : ¬ Near config last point) :
    adapt config last point s = s := by
  unfold Far at hfar
  unfold Near at hnear
  unfold adapt
  dsimp only
  rw [if_neg hnear, if_neg hfar]

end Adapt

/-! ## Steps -/

/-- What a step makes of the level and the budget. -/
inductive ThrottleStep (c : Core W) : Option Event → Nat → Nat → Prop
  | stays {event : Option Event} (hlasts : event ≠ some .recovered)
      (hadmissions : Event.admissions event.toList = []) :
      ThrottleStep c event c.serializer.level c.serializer.budget
  | armed (budget : Nat) :
      ThrottleStep c (some (.told (.arm budget))) c.serializer.level budget
  | admitted (a : Admission) :
      ThrottleStep c (some (.admitted a)) (min c.serializer.level maxSerializeLevel)
        (if c.recovery.recovering then c.serializer.budget else c.serializer.budget - 1)
  | ended {s : Serializer}
      (hs : s = adapt c.config c.recovery.lastReplay c.recovery.replayPoint c.serializer) :
      ThrottleStep c (some .recovered) s.level s.budget

theorem ThrottleStep.level_le {level budget : Nat} (h : ThrottleStep c event level budget)
    (hlevel : c.serializer.level ≤ maxSerializeLevel + 1) : level ≤ maxSerializeLevel + 1 := by
  cases h with
  | stays | armed => exact hlevel
  | admitted => omega
  | ended hs =>
      subst hs
      by_cases hfar : Far c.config c.recovery.lastReplay c.recovery.replayPoint
      · rw [adapt_far hfar]
        exact Nat.le_refl _
      · by_cases hnear : Near c.config c.recovery.lastReplay c.recovery.replayPoint
        · rw [adapt_near hnear]
          exact Nat.le_trans (Nat.sub_le _ _) hlevel
        · rw [adapt_between hfar hnear]
          exact hlevel

/-- Only the end of a recovery asks for level 3, and an admission no longer finds it
asked for. -/
theorem ThrottleStep.asked {level budget : Nat} (h : ThrottleStep c event level budget)
    (hbefore : c.serializer.level ≤ maxSerializeLevel + 1)
    (hlevel : level = maxSerializeLevel + 1) :
    c.serializer.level = maxSerializeLevel + 1 ∧ Event.admissions event.toList = [] ∨
      event = some .recovered ∧ Far c.config c.recovery.lastReplay c.recovery.replayPoint := by
  cases h with
  | stays hlasts hadmissions => exact .inl ⟨hlevel, hadmissions⟩
  | armed => exact .inl ⟨hlevel, rfl⟩
  | admitted => omega
  | ended hs =>
      subst hs
      by_cases hfar : Far c.config c.recovery.lastReplay c.recovery.replayPoint
      · exact .inr ⟨rfl, hfar⟩
      · refine .inl ⟨?_, rfl⟩
        by_cases hnear : Near c.config c.recovery.lastReplay c.recovery.replayPoint
        · rw [adapt_near hnear] at hlevel
          have htight : c.serializer.level - 1 = maxSerializeLevel + 1 := hlevel
          omega
        · rw [adapt_between hfar hnear] at hlevel
          exact hlevel

theorem serializer_replay [FrontEnd W] (c : Core W) (h : Handle) :
    (c.replay h).serializer = c.serializer := by
  obtain heq | ⟨op, -, heq⟩ := replay_cases c h <;> rw [heq]

variable [Surroundings W]

theorem throttle_step (hstep : Step c event d) :
    ThrottleStep c event d.serializer.level d.serializer.budget := by
  have hsilent : d.serializer = c.serializer →
      ThrottleStep c none d.serializer.level d.serializer.budget :=
    fun heq => heq ▸ .stays nofun rfl
  have htold : ∀ command, d.serializer = c.serializer →
      ThrottleStep c (some (.told command)) d.serializer.level d.serializer.budget :=
    fun command heq => heq ▸ .stays (by simp) rfl
  cases hstep with
  | rest | charge | refuse | sample | holdRob | promote | dropRob | holdRetiring
  | dropRetiring => exact hsilent rfl
  | fetch =>
      obtain ⟨_, _, _, heq⟩ := fetch_eq c
      exact hsilent (by rw [heq])
  | tick =>
      obtain ⟨_, _, _, _, heq⟩ := tick_eq c
      exact hsilent (by rw [heq])
  | decode =>
      obtain ⟨_, _, _, heq⟩ := decode_eq c
      exact hsilent (by rw [heq])
  | activate | deactivate | issued => exact htold _ rfl
  | executing h => exact htold _ (by rw [executing_eq])
  | executed h =>
      obtain ⟨-, heq⟩ | ⟨op, -, heq⟩ := executed_cases c h <;> exact htold _ (by rw [heq])
  | performed h =>
      obtain ⟨op, -, -, heq⟩ | ⟨-, heq⟩ := performed_cases c h <;> exact htold _ (by rw [heq])
  | replay h => exact htold _ (serializer_replay c h)
  | arm budget => exact .armed budget
  | recover => exact .ended (serializer_finishRecovery c)
  | @accept op world =>
      obtain ⟨hlevel, hbudget⟩ := Serializer.apply_fst c.serializer
        (c.pool.insert (({ c with world } : Core W).stamp op)).2
        (c.pool.insert (({ c with world } : Core W).stamp op)).1 c.recovery.recovering
      have hadmitted := ThrottleStep.admitted (c := c) (({ c with world } : Core W).admitOp op).1
      rw [← hlevel, ← hbudget] at hadmitted
      exact hadmitted
  | @commit h op world =>
      have hserializer := serializer_commit ({ c with world } : Core W) h op
      rw [hserializer]
      exact .stays (by simp) rfl

end Core

end OutOfOrder
