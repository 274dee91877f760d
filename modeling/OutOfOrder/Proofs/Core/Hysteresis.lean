import OutOfOrder.Proofs.Core.Barrier
import OutOfOrder.Proofs.Core.Requests
import OutOfOrder.Proofs.Core.Throttle

/-!
# How far apart replays are decides how strict the core is

The level moves by the distance between the replay point of a recovery and that of
the one before. The one before is the last that has ended, whenever it started, so
what a recovery is compared with can be read off the run: `completed` lists the
replay points with which recoveries end, and the core remembers the last of them.

The cycle that ends a recovery goes on as usual, and what it admits takes level 3
for level 2 at once. What the recovery itself decided is therefore only to be seen
inside the cycle, and the statements below are about the core as it is between
`finishRecovery` and the rest of the cycle.
-/

namespace OutOfOrder

namespace Core

variable {W : Type} {c d : Core W}

theorem RecoveryStep.lastReplay_eq {event : Option Event} {r : Recovery}
    (hstep : RecoveryStep c event r) (hlasts : event ≠ some .recovered) :
    r.lastReplay = c.recovery.lastReplay := by
  cases hstep with
  | stays | requested => rfl
  | committed n =>
      unfold recoveryCommitting
      split <;> rfl
  | ended => exact absurd rfl hlasts

variable [Surroundings W] {events : List Event}

/-- The replay points of the recoveries that end while commands are carried out. -/
def completed (c : Core W) : List Command → List Nat
  | [] => []
  | command :: rest =>
    let (reply, d) := c.perform command
    (if .recovered ∈ reply.events command then [c.recovery.replayPoint] else [])
      ++ d.completed rest

theorem lastReplay_steps (hsteps : Steps c events d) (hlasts : .recovered ∉ events) :
    d.recovery.lastReplay = c.recovery.lastReplay := by
  refine hsteps.keeps (P := fun past e => .recovered ∉ past →
    e.recovery.lastReplay = c.recovery.lastReplay) (fun hpast hstep hlasts => ?_)
    (fun _ => rfl) hlasts
  rw [List.mem_append, not_or, Option.mem_toList] at hlasts
  rw [(recovery_step hstep).lastReplay_eq hlasts.2]
  exact hpast hlasts.1

/-! ## The cycle that ends a recovery -/

theorem lastReplay_advance (hended : c.advance.1.recovered = true) :
    c.advance.2.recovery.lastReplay = c.recovery.replayPoint := by
  have hwork := lastReplay_steps (steps_workCycle c.fetch.tick.decode.finishRecovery) (by simp)
  rw [(advance_of_recovered hended).2, hwork, ← (fetch_tick_decode c).1]
  rfl

theorem lastReplay_perform (c : Core W) (command : Command) :
    (c.perform command).2.recovery.lastReplay =
      (if .recovered ∈ (c.perform command).1.events command then [c.recovery.replayPoint]
        else []).getLast?.getD c.recovery.lastReplay := by
  split
  · next hended =>
      obtain ⟨report, hreply, hrecovered⟩ := Reply.cycle_of_recovered hended
      cases command with
      | advance => exact lastReplay_advance (Reply.cycle.inj hreply ▸ hrecovered)
      | activate | deactivate | add | issued | executing | executed | performed | replay | arm =>
          cases hreply
  · next hlasts => exact lastReplay_steps (steps_perform c command) hlasts

/-- The core remembers the replay point of the last recovery that has ended. -/
theorem lastReplay_run (c : Core W) (commands : List Command) :
    (c.run commands).2.recovery.lastReplay =
      (c.completed commands).getLast?.getD c.recovery.lastReplay := by
  induction commands generalizing c with
  | nil => rfl
  | cons command rest ih =>
      rw [snd_run_cons, ih, lastReplay_perform, completed, List.getLast?_append]
      cases ((c.perform command).2.completed rest).getLast? <;> rfl

/-! ## Level 3 -/

/-- A recovery asked for level 3 on the way to `e`, and nothing was admitted since. -/
def AskedBy (start : Core W) (past : List Event) (e : Core W) : Prop :=
  ∃ earlier later f, past = earlier ++ .recovered :: later ∧ Steps start earlier f ∧
    Step f (some .recovered) f.finishRecovery ∧
    f.finishRecovery.serializer = f.serializer.relax ∧ Steps f.finishRecovery later e ∧
    Event.admissions later = []

theorem AskedBy.snoc {start e e' : Core W} {past : List Event} {event : Option Event}
    (hasked : AskedBy start past e) (hstep : Step e event e')
    (hnone : Event.admissions event.toList = []) : AskedBy start (past ++ event.toList) e' := by
  obtain ⟨earlier, later, f, rfl, hearlier, hended, hrelaxed, hlater, hadmissions⟩ := hasked
  refine ⟨earlier, later ++ event.toList, f, by simp, hearlier, hended, hrelaxed,
    hlater.snoc hstep, ?_⟩
  rw [Event.admissions_append, hadmissions, hnone]
  rfl

theorem level_steps {start : Core W} {past : List Event} {e : Core W}
    (hlevel : start.serializer.level ≤ maxSerializeLevel) (hsteps : Steps start past e) :
    e.serializer.level ≤ maxSerializeLevel + 1 ∧
      (e.serializer.level = maxSerializeLevel + 1 → AskedBy start past e) := by
  -- The run so far is carried along, as `AskedBy` has to show the way to the recovery.
  refine (hsteps.keeps (P := fun past e => Steps start past e ∧
    e.serializer.level ≤ maxSerializeLevel + 1 ∧
      (e.serializer.level = maxSerializeLevel + 1 → AskedBy start past e)) ?_
    ⟨.refl start, by omega, fun heq => by omega⟩).2
  intro past e event e' hpast hstep
  obtain ⟨hpast, hle, hasked⟩ := hpast
  have hthrottle := throttle_step hstep
  refine ⟨hpast.snoc hstep, hthrottle.level_le hle, fun heq => ?_⟩
  rcases hthrottle.asked hle heq with ⟨hbefore, hnone⟩ | ⟨rfl, hfar⟩
  · exact (hasked hbefore).snoc hstep hnone
  · cases hstep with
    | recover hrecovering hdrained =>
        exact ⟨past, [], e, rfl, hpast, .recover hrecovering hdrained, adapt_far hfar, .refl _, rfl⟩

/-! ## Runs -/

/-- **The level follows the distance of replays.** Whatever surrounds a core and whatever
is done to it, its replay point is the largest identifier of the requests that were
heard, and never falls. The cycle that ends a recovery compares the replay point with
that of the last recovery that has ended: more than two thresholds behind it relaxes to
level 3, less than one threshold behind it tightens by one level and arms the budget,
and anything between leaves both alone. The level stays within 0 and 3, inside the
cycles as well as between them, and is 3 only until something is admitted. -/
theorem level_follows_distance_of_replays {config : CoreConfig} {hart : Nat} {world : W}
    {start : Core W} (hstart : create config hart world = .ok start) (commands : List Command) :
    let c := (start.run commands).2
    let point := c.recovery.replayPoint
    point = ((start.requests commands).map (·.handle.id)).max?.getD 0 ∧
    (∀ command, point ≤ (c.perform command).2.recovery.replayPoint) ∧
    (c.advance.1.recovered = true → point < maxId →
      let last := (start.completed commands).getLast?.getD 0
      let threshold := config.progressThreshold
      let before := c.serializer
      let after := c.fetch.tick.decode.finishRecovery.serializer
      c.advance.2 = c.fetch.tick.decode.finishRecovery.workCycle.2 ∧
      (last + 2 * threshold < point ∧ ¬ point < last + threshold ∧
          after.level = 3 ∧ after.budget = before.budget ∨
        point < last + threshold ∧ ¬ last + 2 * threshold < point ∧
          after.level = before.level - 1 ∧ after.budget = config.serialize ∨
        ¬ last + 2 * threshold < point ∧ ¬ point < last + threshold ∧
          after.level = before.level ∧ after.budget = before.budget)) ∧
    ∀ past e, Steps start past e →
      e.serializer.level ≤ 3 ∧ (e.serializer.level = 3 → AskedBy start past e) := by
  intro c point
  have hconfig : c.config = start.config := config_steps (steps_run start commands)
  have hpoint := replayPoint_run start commands
  have hlast := lastReplay_run start commands
  obtain ⟨hvalid, rfl⟩ := create_eq hstart
  refine ⟨?_, fun command => ?_, fun hended hid => ?_, fun past e hsteps => ?_⟩
  · exact hpoint.trans (List.foldl_max.trans (Nat.zero_max _))
  · rw [replayPoint_perform]
    cases c.heard command with
    | none => exact Nat.le_refl _
    | some n => exact Nat.le_max_left _ _
  · intro last threshold before after
    obtain ⟨hrecovery, hserializer, hconfigured⟩ := fetch_tick_decode c
    have hadapt : after = adapt config last point before := by
      refine (serializer_finishRecovery _).trans ?_
      rw [hrecovery, hserializer, hconfigured, hconfig, hlast]
      rfl
    obtain ⟨hfar, hnear⟩ : (Far config last point ↔ _) ∧ (Near config last point ↔ _) :=
      far_near_iff hid
    refine ⟨(advance_of_recovered hended).2, ?_⟩
    by_cases hcase : Far config last point
    · have hdistance := hfar.1 hcase
      rw [hadapt, adapt_far hcase]
      exact .inl ⟨hdistance, by omega, rfl, rfl⟩
    · by_cases hclose : Near config last point
      · have hdistance := hnear.1 hclose
        rw [hadapt, adapt_near hclose]
        exact .inr (.inl ⟨hdistance, by omega, rfl, rfl⟩)
      · rw [hadapt, adapt_between hcase hclose]
        exact .inr (.inr ⟨fun h => hcase (hfar.2 h), fun h => hclose (hnear.2 h), rfl, rfl⟩)
  · exact level_steps (serializeLevel_le_two hvalid) hsteps

/-- Two replays, at 5 and at 6, with a threshold of 2: the first relaxes the core, the
second tightens it again and arms the budget. -/
theorem relaxed_at_five_tightened_at_six :
    let op : Nat → MicroOp := fun id => { id, pc := 0, inst := { opcode := .load } }
    let config : CoreConfig :=
      { maxRobSize := 6, retireDelay := 0, serialize := 7, progressThreshold := 2 }
    let world : Obliging := { buckets := [[op 5], [op 6]] }
    let start : Core Obliging := .initial config 0 world
    let commands : List Command :=
      [.activate, .advance, .executed ⟨0, 5⟩, .replay ⟨0, 5⟩, .advance, .advance,
        .executed ⟨0, 6⟩, .replay ⟨0, 6⟩, .advance]
    let c := (start.run commands).2
    create config 0 world = .ok start ∧ c.advance.1.recovered = true ∧
      start.completed commands = [5] ∧ c.recovery.replayPoint = 6 ∧ c.serializer.level = 2 ∧
      c.fetch.tick.decode.finishRecovery.serializer.level = 2 - 1 ∧
      c.fetch.tick.decode.finishRecovery.serializer.budget = 7 := by
  intro op config world start commands
  have hstart : create config 0 world = .ok start := rfl
  have hcompleted : start.completed commands = [5] := by decide +kernel
  have hpoint : (start.run commands).2.recovery.replayPoint = 6 := by decide +kernel
  have hlevel : (start.run commands).2.serializer.level = 2 := by decide +kernel
  obtain ⟨-, -, hends, -⟩ := level_follows_distance_of_replays hstart commands
  obtain ⟨-, hcases⟩ := hends (by decide +kernel) (by decide +kernel)
  rw [hcompleted, hpoint, hlevel] at hcases
  refine ⟨hstart, by decide +kernel, hcompleted, hpoint, hlevel, ?_⟩
  obtain ⟨hfar, -⟩ | ⟨-, -, htight, harmed⟩ | ⟨-, hapart, -⟩ := hcases
  · exact absurd hfar (by decide)
  · exact ⟨htight, harmed⟩
  · exact absurd (by decide) hapart

end Core

end OutOfOrder
