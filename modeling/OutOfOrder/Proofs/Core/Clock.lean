import OutOfOrder.Proofs.Core.Busy

/-!
# One tick a cycle

The clock of a core is its own: it counts the cycles in which the core was active, and
when it moves, `tick` does it, before the stages of the cycle. The lock detector is the
only thing that looks at the clock from there, and it looks in `tick` too. The stages
after it leave the detector what it knew and count their commits for it (`Unmoved`).
-/

namespace OutOfOrder.Core

variable {W : Type} [Surroundings W]

/-- After the tick of a cycle nothing is left to do for clock and detector but to count the
commits. -/
theorem unmoved_advance {c : Core W} (hactive : c.active = true) :
    Unmoved c.fetch.tick { c.advance.2 with busy := c.fetch.tick.busy }
      c.advance.1.committed.length := by
  rcases advance_cases hactive with ⟨-, heq⟩ | ⟨-, heq⟩ <;> rw [heq]
  · exact unmoved_busyCycle c.fetch.tick
  · exact .of_eq rfl rfl rfl rfl

theorem advance_of_inactive {c : Core W} (hactive : c.active = false) : c.advance = ({}, c) := by
  unfold advance
  rw [hactive]
  rfl

omit [Surroundings W] in
theorem clock_tick (c : Core W) : c.tick.clock = c.clock + 1 := by
  unfold tick
  dsimp only
  split <;> rfl

theorem clock_fetch_tick (c : Core W) : c.fetch.tick.clock = c.clock + 1 := by
  obtain ⟨_, _, _, hfetch⟩ := fetch_eq c
  rw [clock_tick, hfetch]

theorem active_fetch_tick (c : Core W) : c.fetch.tick.active = c.active := by
  obtain ⟨_, _, _, hfetch⟩ := fetch_eq c
  obtain ⟨_, _, _, _, htick⟩ := tick_eq c.fetch
  rw [htick, hfetch]

/-- A cycle of an active core moves the clock by one. -/
theorem clock_advance {c : Core W} (hactive : c.active = true) :
    c.advance.2.clock = c.clock + 1 := by
  exact (unmoved_advance hactive).clock.trans (clock_fetch_tick c)

/-- What the lock detector knows after a cycle is what the tick has told it, and the
commits. -/
theorem lock_advance {c : Core W} (hactive : c.active = true) :
    c.advance.2.lock = { c.fetch.tick.lock with
      commits := c.fetch.tick.lock.commits + c.advance.1.committed.length } :=
  (unmoved_advance hactive).lock

/-- No cycle turns the core on or off. -/
theorem active_advance (c : Core W) : c.advance.2.active = c.active := by
  cases hactive : c.active with
  | false => rw [advance_of_inactive hactive, hactive]
  | true =>
      exact (unmoved_advance hactive).active.trans ((active_fetch_tick c).trans hactive)

/-- Only a cycle moves the clock or has anything to do with the detector. -/
theorem perform_untimed (c : Core W) {command : Command} (hcommand : command ≠ .advance) :
    (c.perform command).2.clock = c.clock ∧ (c.perform command).2.lock = c.lock ∧
      Event.commits ((c.perform command).1.events command) = [] := by
  cases command with
  | advance => exact absurd rfl hcommand
  | activate | deactivate | issued | arm => exact ⟨rfl, rfl, rfl⟩
  | add op =>
      rcases add_cases c op with ⟨_, -, heq⟩ | ⟨_, _, -, -, heq⟩ | ⟨_, -, -, heq⟩ <;>
        rw [perform, heq] <;> exact ⟨rfl, rfl, rfl⟩
  | executing h =>
      show (c.executing h).clock = _ ∧ (c.executing h).lock = _ ∧ _
      rw [executing_eq]
      exact ⟨rfl, rfl, rfl⟩
  | executed h =>
      show (c.executed h).clock = _ ∧ (c.executed h).lock = _ ∧ _
      rcases executed_cases c h with ⟨-, heq⟩ | ⟨_, -, heq⟩ <;> rw [heq] <;> exact ⟨rfl, rfl, rfl⟩
  | performed h =>
      show (c.performed h).clock = _ ∧ (c.performed h).lock = _ ∧ _
      rcases performed_cases c h with ⟨_, -, -, heq⟩ | ⟨-, heq⟩ <;> rw [heq] <;>
        exact ⟨rfl, rfl, rfl⟩
  | replay h =>
      show (c.replay h).clock = _ ∧ (c.replay h).lock = _ ∧ _
      rcases replay_cases c h with heq | ⟨_, -, heq⟩ <;> rw [heq] <;> exact ⟨rfl, rfl, rfl⟩

end OutOfOrder.Core
