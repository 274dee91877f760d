import OutOfOrder.Proofs.Core.Consistency
import OutOfOrder.Proofs.Core.Recovery
import OutOfOrder.Proofs.Core.Stages
import OutOfOrder.Surroundings.Obliging

/-!
# A core with work in flight is busy

A core that is not busy neither decodes nor retires, so a core that stopped being busy
with operations in its buffers would keep them forever. Being busy is given up in one
place, the cycle that finds the instruction queue and both buffers empty, and `fetch`
only ever sets it. What remains is that nothing gets into an idle core, and that is
where the front end comes in: decoding is part of a busy cycle, so an operation that
comes through the queue finds the core busy. One that is handed in from outside need
not, and such runs are left out here.

The laws about single steps do not help, as a step does not know which cycle it is
part of. What the stages leave alone they leave alone here too (`Unmoved`), and what is
left is the order in which a cycle goes through them.
-/

namespace OutOfOrder.Core

variable {W : Type}

/-- The instruction queue or one of the buffers is not empty. -/
def HasWork (c : Core W) : Prop :=
  c.queue.isEmpty = false ∨ c.rob.isEmpty = false ∨ c.retiring.isEmpty = false

theorem not_hasWork_iff {c : Core W} :
    ¬ c.HasWork ↔ c.queue.isEmpty = true ∧ c.isDrained = true := by
  unfold HasWork isDrained
  simp [Bool.and_eq_true]

theorem busy_tick (c : Core W) : c.tick.busy = c.busy := by
  obtain ⟨_, _, _, _, heq⟩ := tick_eq c
  rw [heq]

variable [Surroundings W]

theorem busy_fetch {c : Core W} (hbusy : c.busy = true) : c.fetch.busy = true := by
  unfold fetch
  dsimp only
  split
  · rfl
  · split
    · exact hbusy
    · rfl

theorem hasWork_fetch_tick (c : Core W) : c.fetch.tick.HasWork ↔ c.HasWork := by
  obtain ⟨_, _, _, hfetch⟩ := fetch_eq c
  obtain ⟨_, _, _, _, htick⟩ := tick_eq c.fetch
  rw [htick, hfetch]
  exact Iff.rfl

theorem hasWork_decode {c : Core W} (hwork : c.HasWork) : c.decode.HasWork := by
  unfold decode
  split
  · exact hwork
  · split
    · refine .inl ?_
      simp [InstructionQueue.push, InstructionQueue.isEmpty]
    · exact hwork

/-! ## The work of a cycle -/

/-- What a cycle does between decode and the end is to retire what it has come to, if it
has anything to work on. -/
def EndsInRetire (c : Core W) (events : List Event) (result : CycleReport × Core W) : Prop :=
  ∃ d, Steps c events d ∧ d.busy = c.busy ∧ result.1.running = true ∧
    result.1.committed = d.retire.1 ∧ result.2 = d.retire.2

theorem endsInRetire_workCycle {c : Core W} (hwork : c.HasWork) :
    c.EndsInRetire (c.workCycle.1.admitted.map .admitted) c.workCycle := by
  unfold workCycle
  split
  · exact ⟨c.dispatch.2, steps_dispatch c, (unmoved_dispatch c).busy, rfl, rfl, rfl⟩
  · next hqueue =>
      split
      · next hdrained =>
          exact absurd hwork (not_hasWork_iff.2 ⟨by simpa using hqueue, hdrained⟩)
      · exact ⟨c, .refl c, rfl, rfl, rfl, rfl⟩

theorem workCycle_of_idle {c : Core W} (hidle : ¬ c.HasWork) :
    c.workCycle = ({ running := true }, { c with
      world := (FrontEnd.askOutstanding c.world).2
      busy := (FrontEnd.askOutstanding c.world).1 }) := by
  obtain ⟨hqueue, hdrained⟩ := not_hasWork_iff.1 hidle
  unfold workCycle
  rw [hqueue, hdrained]
  rfl

theorem endsInRetire_busyCycle {c : Core W} (hwork : c.decode.HasWork) :
    c.decode.EndsInRetire ((if c.busyCycle.1.recovered then [.recovered] else [])
      ++ c.busyCycle.1.admitted.map .admitted) c.busyCycle := by
  unfold busyCycle
  generalize c.decode = d at hwork
  dsimp only
  split
  · rw [recovered_workCycle]
    exact endsInRetire_workCycle hwork
  · next hrecovering =>
      split
      · next hdrained =>
          -- The cycle that ends a recovery goes on to work, and neither queue nor buffers moved.
          obtain ⟨e, hsteps, hends⟩ := endsInRetire_workCycle (c := d.finishRecovery) hwork
          exact ⟨e, .event (.recover (by simpa using hrecovering) hdrained) hsteps, hends⟩
      · exact ⟨_, .one_silent (.charge d .replays d.config.realisticWidth d.sampling),
          rfl, rfl, rfl, rfl⟩

theorem busyCycle_of_idle {c : Core W} (hidle : ¬ c.decode.HasWork) :
    c.busyCycle.1.running = true ∧ ¬ c.busyCycle.2.HasWork := by
  unfold busyCycle
  generalize c.decode = d at hidle
  have hdrained := (not_hasWork_iff.1 hidle).2
  have hended : ¬ d.finishRecovery.HasWork := hidle
  dsimp only
  split
  · rw [workCycle_of_idle hidle]
    exact ⟨rfl, hidle⟩
  · rw [workCycle_of_idle hended]
    exact ⟨rfl, hidle⟩

/-- A busy cycle gives up being busy only when nothing is left. -/
theorem busy_busyCycle {c : Core W} (hbusy : c.busy = true) :
    c.busyCycle.1.running = true ∧ (c.busyCycle.2.HasWork → c.busyCycle.2.busy = true) := by
  by_cases hwork : c.decode.HasWork
  · obtain ⟨d, -, hsame, hrunning, -, hresult⟩ := endsInRetire_busyCycle hwork
    refine ⟨hrunning, fun _ => ?_⟩
    rw [hresult, (unmoved_retire d).busy, hsame, (unmoved_decode c).busy, hbusy]
  · obtain ⟨hrunning, hidle⟩ := busyCycle_of_idle hwork
    exact ⟨hrunning, fun hleft => absurd hleft hidle⟩

/-! ## Runs -/

/-- The core is busy if it has work. -/
def Awake (c : Core W) : Prop := c.HasWork → c.busy = true

/-- A cycle of an active core is a busy one, or finds nothing to do and changes neither
the queue nor the buffers. -/
theorem advance_cases {c : Core W} (hactive : c.active = true) :
    c.fetch.tick.busy = true ∧ c.advance = c.fetch.tick.busyCycle ∨
      c.fetch.tick.busy = false ∧ c.advance = ({}, c.fetch.tick) := by
  unfold advance
  rw [hactive]
  dsimp only
  cases hbusy : c.fetch.tick.busy with
  | true => exact .inl ⟨rfl, rfl⟩
  | false => exact .inr ⟨rfl, rfl⟩

theorem Awake.busy_fetch_tick {c : Core W} (hc : c.Awake) (hwork : c.HasWork) :
    c.fetch.tick.busy = true := by
  rw [busy_tick]
  exact busy_fetch (hc hwork)

theorem Awake.advance {c : Core W} (hc : c.Awake) : c.advance.2.Awake := by
  cases hactive : c.active with
  | false =>
      unfold Core.advance
      rw [hactive]
      exact hc
  | true =>
      rcases advance_cases hactive with ⟨hbusy, heq⟩ | ⟨hidle, heq⟩ <;> rw [heq]
      · exact (busy_busyCycle hbusy).2
      · intro hwork
        exact hc.busy_fetch_tick ((hasWork_fetch_tick c).1 hwork)

theorem Awake.perform {c : Core W} (hc : c.Awake) {command : Command}
    (hfront : ∀ op, command ≠ .add op) : (c.perform command).2.Awake := by
  cases command with
  | activate | deactivate | issued | arm => exact hc
  | advance => exact hc.advance
  | add op => exact absurd rfl (hfront op)
  | executing h =>
      show (c.executing h).Awake
      rw [executing_eq]
      exact hc
  | executed h =>
      show (c.executed h).Awake
      rcases executed_cases c h with ⟨-, heq⟩ | ⟨op, -, heq⟩ <;> rw [heq] <;> exact hc
  | performed h =>
      show (c.performed h).Awake
      rcases performed_cases c h with ⟨op, -, -, heq⟩ | ⟨-, heq⟩ <;> rw [heq] <;> exact hc
  | replay h =>
      show (c.replay h).Awake
      rcases replay_cases c h with heq | ⟨op, -, heq⟩ <;> rw [heq] <;> exact hc

theorem Awake.run {c : Core W} (hc : c.Awake) {commands : List Command}
    (hfront : ∀ op, .add op ∉ commands) : (c.run commands).2.Awake := by
  induction commands generalizing c with
  | nil => exact hc
  | cons command rest ih =>
      simp only [List.mem_cons, not_or] at hfront
      exact ih (hc.perform fun op heq => (hfront op).1 heq.symm) fun op => (hfront op).2

/-- **A core with work in flight is busy.** Whatever surrounds a core and whatever is done
to it, if operations come in through the front end alone: as long as the instruction
queue or one of the buffers holds something, the core is busy. So a cycle of an active
core says that nothing is running only when all three are empty, before it and after.
And if there is work, the cycle decodes, and ends by retiring what ending a recovery
and dispatching have made of that; nothing commits in it before. -/
theorem busy_while_work_in_flight {config : CoreConfig} {hart : Nat} {world : W}
    {start : Core W} (hstart : create config hart world = .ok start) (commands : List Command)
    (hfront : ∀ op, .add op ∉ commands) :
    let c := (start.run commands).2
    (c.HasWork → c.busy = true) ∧
    (c.active = true → c.advance.1.running = false → ¬ c.HasWork ∧ ¬ c.advance.2.HasWork) ∧
    (c.active = true → c.HasWork → ∃ d,
      Steps c.fetch.tick.decode ((if c.advance.1.recovered then [.recovered] else [])
        ++ c.advance.1.admitted.map .admitted) d ∧
      c.advance.1.running = true ∧ c.advance.1.committed = d.retire.1 ∧
      c.advance.2 = d.retire.2) := by
  intro c
  have hc : c.Awake := by
    have hidle : ¬ start.HasWork := by
      obtain ⟨-, rfl⟩ := create_eq hstart
      exact not_hasWork_iff.2 ⟨rfl, rfl⟩
    exact Awake.run (fun hwork => absurd hwork hidle) hfront
  refine ⟨hc, fun hactive hstops => ?_, fun hactive hwork => ?_⟩
  · rcases advance_cases hactive with ⟨hbusy, heq⟩ | ⟨hidle, heq⟩
    · rw [heq, (busy_busyCycle hbusy).1] at hstops
      cases hstops
    · have hempty : ¬ c.HasWork := fun hwork => by
        rw [hc.busy_fetch_tick hwork] at hidle
        cases hidle
      rw [heq]
      exact ⟨hempty, fun hwork => hempty ((hasWork_fetch_tick c).1 hwork)⟩
  · rcases advance_cases hactive with ⟨-, heq⟩ | ⟨hidle, -⟩
    · rw [heq]
      obtain ⟨d, hsteps, -, hends⟩ :=
        endsInRetire_busyCycle (hasWork_decode ((hasWork_fetch_tick c).2 hwork))
      exact ⟨d, hsteps, hends⟩
    · rw [hc.busy_fetch_tick hwork] at hidle
      cases hidle

/-- A load waits for its execution, and a second one in the queue for a place. The core is
busy, and the next cycle ends in retiring. -/
theorem busy_with_two_loads :
    let load : Nat → MicroOp := fun id => { id, pc := 0, inst := { opcode := .load } }
    let config : CoreConfig := { maxRobSize := 2 }
    let world : Obliging := { buckets := [[load 1, load 2]] }
    let start : Core Obliging := .initial config 0 world
    let commands : List Command := [.activate, .advance, .replay ⟨0, 1⟩]
    create config 0 world = .ok start ∧ (∀ op, .add op ∉ commands) ∧
      (start.run commands).2.HasWork ∧ (start.run commands).2.busy = true ∧
      ∃ d : Core Obliging, (start.run commands).2.advance.2 = d.retire.2 := by
  intro load config world start commands
  have hstart : create config 0 world = .ok start := rfl
  have hfront : ∀ op, .add op ∉ commands := by simp [commands]
  have hwork : (start.run commands).2.HasWork := .inl (by decide +kernel)
  obtain ⟨hbusy, -, hcycle⟩ := busy_while_work_in_flight hstart commands hfront
  obtain ⟨d, -, -, -, hretires⟩ := hcycle (by decide +kernel) hwork
  exact ⟨hstart, hfront, hwork, hbusy hwork, d, hretires⟩

end OutOfOrder.Core
