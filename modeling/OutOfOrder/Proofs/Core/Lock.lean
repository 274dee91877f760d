import Mathlib.Data.List.Induction
import Mathlib.Data.List.Infix
import Mathlib.Data.Nat.Basic
import OutOfOrder.Proofs.Core.Clock
import OutOfOrder.Proofs.Core.CommitOrder
import OutOfOrder.Proofs.Core.Stream

/-!
# When retirement is found locked

The lock detector looks at retirement once in an interval, at the tick of a cycle. It sees
how many operations have committed and which are on top of the two buffers, and if it sees
the same twice in a row, with something on top of a buffer, it reports a lock for good.

It does not see what happens between two looks, and needs not. The commits are counted,
so equal counts mean that none happened; and nothing but a commit takes away the oldest
operation in flight, although promotion may carry it from one buffer to the other and
back out of sight. So a lock that is found is one. The other way round, a cycle that
commits anything commits the oldest operation in flight first, which was on top of one of
the buffers and is in neither when the cycle ends. So if both tops stay as they are,
nothing commits, and the second look from now on has to see what the first one saw.

Cycles of a core that is not active do not count, neither for the detector nor here: time
is measured by the clock of the core. Looks are numbered by the intervals that have passed.
-/

namespace OutOfOrder

/-- There is something on top of a buffer. -/
def RetireView.waiting (v : RetireView) : Bool := v.robTop.isSome || v.retiringTop.isSome

/-- What a cycle commits is what it says it commits. -/
theorem Reply.commits_events_cycle (report : Core.CycleReport) :
    Event.commits ((Reply.cycle report).events .advance) = report.committed := by
  rw [Reply.events, Event.commits_append, Event.commits_append, Event.commits_map_admitted,
    Event.commits_map_committed]
  cases report.recovered <;> rfl

namespace Core

variable {W : Type}

theorem lockCheckInterval_pos {config : CoreConfig} (h : config.validate = .ok ()) :
    0 < config.lockCheckInterval := by
  have hinterval := applies_eq_false_of_first h
    (config.lockCheckInterval == 0, .zeroWidth "lock_check_interval") (by simp)
  exact Nat.pos_of_ne_zero fun heq => by simp [heq] at hinterval

/-! ## Looks -/

/-- The next cycle looks at retirement. -/
def Looks (c : Core W) : Prop :=
  c.active = true ∧ (c.clock + 1) % c.config.lockCheckInterval = 0

instance (c : Core W) : Decidable c.Looks := inferInstanceAs (Decidable (_ ∧ _))

/-- How many intervals have passed, each with a look at its end. -/
def intervals (c : Core W) : Nat := c.clock / c.config.lockCheckInterval

/-- A look is the end of an interval. -/
theorem Looks.clock_eq {c : Core W} (h : c.Looks) :
    c.clock + 1 = c.config.lockCheckInterval * (c.intervals + 1) := by
  have hdvd : c.config.lockCheckInterval ∣ c.clock + 1 := Nat.dvd_of_mod_eq_zero h.2
  rw [intervals, ← Nat.succ_div_of_dvd hdvd, Nat.mul_div_cancel' hdvd]

variable [Surroundings W]

/-- What a command is to the detector: a look if it is a cycle that is due, and nothing
otherwise. -/
inductive Watch (c : Core W) : Command → Core W → Prop
  | unseen {command : Command} {d : Core W} (hlast : d.lock.last = c.lock.last)
      (hdetected : d.lock.detected = c.lock.detected) (hintervals : d.intervals = c.intervals) :
      Watch c command d
  | looks {d : Core W} (hlooks : c.Looks) (hlast : d.lock.last = some c.retireView)
      (hdetected : d.lock.detected =
        (c.lock.detected || (c.retireView.waiting && c.lock.last == some c.retireView)))
      (hintervals : d.intervals = c.intervals + 1) : Watch c .advance d

theorem lock_fetch_tick (c : Core W) : c.fetch.tick.lock =
    if (c.clock + 1) % c.config.lockCheckInterval = 0 then c.checkLock.lock else c.lock := by
  obtain ⟨_, _, _, hfetch⟩ := fetch_eq c
  rw [tick, hfetch]
  dsimp only
  split <;> rfl

theorem watch_advance (c : Core W) : Watch c .advance c.advance.2 := by
  cases hactive : c.active with
  | false =>
      rw [advance_of_inactive hactive]
      exact .unseen rfl rfl rfl
  | true =>
      have hlock := lock_advance hactive
      have hintervals : c.advance.2.intervals = (c.clock + 1) / c.config.lockCheckInterval := by
        rw [intervals, clock_advance hactive, config_steps (steps_advance c)]
      rw [lock_fetch_tick] at hlock
      split at hlock
      · next hdue =>
          exact .looks ⟨hactive, hdue⟩ (by rw [hlock]; rfl) (by rw [hlock]; rfl)
            (by rw [hintervals, Nat.succ_div_of_dvd (Nat.dvd_of_mod_eq_zero hdue), intervals])
      · next hdue =>
          exact .unseen (by rw [hlock]) (by rw [hlock]) (by
            rw [hintervals, Nat.succ_div_of_not_dvd fun h => hdue (Nat.mod_eq_zero_of_dvd h),
              intervals])

theorem watch_perform (c : Core W) (command : Command) :
    Watch c command (c.perform command).2 := by
  by_cases hcommand : command = .advance
  · subst hcommand
    exact watch_advance c
  · obtain ⟨hclock, hlock, -⟩ := perform_untimed c hcommand
    refine .unseen (by rw [hlock]) (by rw [hlock]) ?_
    rw [intervals, hclock, config_steps (steps_perform c command), intervals]

/-- Every commit is counted. -/
theorem lockCommits_perform (c : Core W) (command : Command) :
    (c.perform command).2.lock.commits =
      c.lock.commits + (Event.commits ((c.perform command).1.events command)).length := by
  by_cases hcommand : command = .advance
  · subst hcommand
    show c.advance.2.lock.commits = c.lock.commits +
      (Event.commits ((Reply.cycle c.advance.1).events .advance)).length
    rw [Reply.commits_events_cycle]
    cases hactive : c.active with
    | false =>
        rw [advance_of_inactive hactive]
        rfl
    | true =>
        have hcommits : c.fetch.tick.lock.commits = c.lock.commits := by
          rw [lock_fetch_tick]
          split <;> rfl
        rw [lock_advance hactive, hcommits]
  · obtain ⟨-, hlock, hcommits⟩ := perform_untimed c hcommand
    rw [hlock, hcommits]
    rfl

/-- A lock that was found stays found. -/
theorem detected_run {c : Core W} (hdetected : c.lock.detected = true) (commands : List Command) :
    (c.run commands).2.lock.detected = true := by
  induction commands generalizing c with
  | nil => exact hdetected
  | cons command rest ih =>
      have hkept : (c.perform command).2.lock.detected = true := by
        cases watch_perform c command with
        | unseen _ hsame => rw [hsame, hdetected]
        | looks _ _ hfound => rw [hfound, hdetected, Bool.true_or]
      exact ih hkept

/-! ## What was found -/

/-- The last look of a run saw `view`, and this many commits were counted and no interval
ended since. -/
def LastLook (start : Core W) (commands : List Command) (view : RetireView) : Prop :=
  ∃ before between, commands = before ++ .advance :: between ∧
    let e := (start.run before).2
    let c := (start.run commands).2
    e.Looks ∧ e.retireView = view ∧ c.intervals = e.intervals + 1 ∧
      c.lock.commits =
        e.lock.commits + (Event.commits (e.history (.advance :: between))).length

theorem lastLook_of_last {start : Core W} (hfresh : start.lock.last = none)
    (commands : List Command) {view : RetireView}
    (hview : (start.run commands).2.lock.last = some view) : LastLook start commands view := by
  induction commands using List.reverseRecOn with
  | nil =>
      rw [run, hfresh] at hview
      cases hview
  | append_singleton rest command ih =>
      have hcounted := lockCommits_perform (start.run rest).2 command
      rw [snd_run_snoc] at hview
      cases watch_perform (start.run rest).2 command with
      | unseen hlast _ hintervals =>
          obtain ⟨before, between, heq, hlooks, hview, hround, hcommits⟩ := ih (hlast ▸ hview)
          have hhistory : (start.run before).2.history (.advance :: (between ++ [command])) =
              (start.run before).2.history (.advance :: between) ++
                ((start.run rest).2.perform command).1.events command := by
            rw [← List.cons_append, history_snoc, heq, run_append]
          refine ⟨before, between ++ [command], by simp [heq], hlooks, hview, ?_, ?_⟩
          · rw [snd_run_snoc]
            exact hintervals.trans hround
          · rw [snd_run_snoc, hhistory, Event.commits_append, List.length_append,
              ← Nat.add_assoc, ← hcommits]
            exact hcounted
      | looks hlooks hlast _ hintervals =>
          refine ⟨rest, [], rfl, hlooks, Option.some.inj (hlast.symm.trans hview), ?_, ?_⟩
          · rw [snd_run_snoc]
            exact hintervals
          · have hhistory : (start.run rest).2.history [.advance] =
                ((start.run rest).2.perform .advance).1.events .advance := List.append_nil _
            rw [snd_run_snoc, hhistory, hcounted]

omit [Surroundings W] in
theorem head?_inFlight {c : Core W} (hc : c.Consistent) :
    c.inFlight.head? = c.retiring.top?.or c.rob.top? := by
  rw [inFlight, List.head?_append, RingBuffer.top?_eq_head? hc.retiring,
    RingBuffer.top?_eq_head? hc.rob]

omit [Surroundings W] in
/-- Something is on top of a buffer if anything is in flight. -/
theorem exists_oldest_of_waiting {c : Core W} (hc : c.Consistent)
    (hwaiting : c.retireView.waiting = true) : ∃ h, c.inFlight.head? = some h := by
  rw [head?_inFlight hc]
  simp only [RetireView.waiting, retireView, Option.isSome_map] at hwaiting
  cases hretiring : c.retiring.top? with
  | some h => exact ⟨h, rfl⟩
  | none =>
      rw [hretiring, Option.isSome_none, Bool.or_false] at hwaiting
      exact Option.isSome_iff_exists.1 hwaiting

/-- The oldest operation in flight stays the oldest as long as nothing commits. -/
theorem head?_inFlight_of_steps {c d : Core W} {events : List Event} {h : Handle}
    (hc : c.Consistent) (hsteps : Steps c events d) (hcommits : Event.commits events = [])
    (hhead : c.inFlight.head? = some h) : d.inFlight.head? = some h := by
  have hmoved := commits_append_inFlight hc hsteps
  rw [hcommits, List.map_nil, List.nil_append] at hmoved
  rw [hmoved, List.head?_append, hhead, Option.some_or]

/-! ## What has to be found -/

/-- The first operation that a cycle commits is the oldest in flight, if any was, and it is
not in flight again when the cycle ends. -/
theorem oldest_of_committed {c : Core W} (hc : c.Consistent) {n : NamedOp} {rest : List NamedOp}
    (hcommitted : c.advance.1.committed = n :: rest) {h : Handle}
    (hhead : c.inFlight.head? = some h) : n.handle = h ∧ h ∉ c.advance.2.inFlight := by
  have hevents : (Reply.cycle c.advance.1).events .advance =
      ((if c.advance.1.recovered then [.recovered] else []) ++
        c.advance.1.admitted.map .admitted) ++ .committed n :: rest.map .committed := by
    rw [Reply.events, hcommitted, List.map_cons]
  obtain ⟨e, e', hbefore, hstep, hafter⟩ := (steps_advance c).split hevents
  have he := hc.steps hbefore
  have hnone : Event.commits ((if c.advance.1.recovered then [.recovered] else []) ++
      c.advance.1.admitted.map .admitted) = [] := by
    rw [Event.commits_append, Event.commits_map_admitted]
    cases c.advance.1.recovered <;> rfl
  have hfirst : n.handle = h := by
    have hhead' := head?_inFlight_of_steps hc hbefore hnone hhead
    rw [he.inFlight_committed hstep] at hhead'
    exact Option.some.inj hhead'
  have hleft := commits_append_inFlight (he.step hstep) hafter
  rw [Event.admissions_map_committed, List.map_nil, List.append_nil] at hleft
  refine ⟨hfirst, fun hmem => he.not_mem_of_committed hstep ?_⟩
  rw [hfirst, ← hleft]
  exact List.mem_append_right _ hmem

/-- Both tops are those of `c`. -/
def SameTops (c d : Core W) : Prop := d.rob.top? = c.rob.top? ∧ d.retiring.top? = c.retiring.top?

instance (c d : Core W) : Decidable (SameTops c d) := inferInstanceAs (Decidable (_ ∧ _))

/-- A command that leaves both tops alone, one of them an operation, commits nothing. -/
theorem commits_of_sameTops {c : Core W} (hc : c.Consistent)
    (hwaiting : c.retireView.waiting = true) {command : Command}
    (htops : SameTops c (c.perform command).2) :
    Event.commits ((c.perform command).1.events command) = [] := by
  by_cases hcommand : command = .advance
  · subst hcommand
    obtain ⟨h, hhead⟩ := exists_oldest_of_waiting hc hwaiting
    rw [show ((c.perform .advance).1.events .advance) = (Reply.cycle c.advance.1).events .advance
      from rfl, Reply.commits_events_cycle]
    cases hcommitted : c.advance.1.committed with
    | nil => rfl
    | cons n rest =>
        have hsame : c.advance.2.inFlight.head? = some h := by
          rw [head?_inFlight (hc.steps (steps_advance c)), ← hhead, head?_inFlight hc]
          exact congrArg₂ Option.or htops.2 htops.1
        exact absurd (List.mem_of_head? hsame) (oldest_of_committed hc hcommitted hhead).2
  · exact (perform_untimed c hcommand).2.2

/-- So the next look sees what a look would have seen before. -/
theorem retireView_of_sameTops {c : Core W} (hc : c.Consistent)
    (hwaiting : c.retireView.waiting = true) {command : Command}
    (htops : SameTops c (c.perform command).2) :
    (c.perform command).2.retireView = c.retireView := by
  rw [retireView, lockCommits_perform, commits_of_sameTops hc hwaiting htops, htops.1, htops.2]
  rfl

/-- While the tops stay as they are, the first interval that ends puts down what is seen, and
the second finds the lock. -/
theorem found_or_seen_once {c : Core W} (hc : c.Consistent)
    (hwaiting : c.retireView.waiting = true) (during : List Command)
    (hstill : ∀ past, past <+: during → SameTops c (c.run past).2) :
    let d := (c.run during).2
    d.retireView = c.retireView ∧ (d.lock.detected = true ∨ d.intervals = c.intervals ∨
      d.lock.last = some c.retireView ∧ d.intervals = c.intervals + 1) := by
  induction during using List.reverseRecOn with
  | nil => exact ⟨rfl, .inr (.inl rfl)⟩
  | append_singleton rest command ih =>
      obtain ⟨hview, hpast⟩ := ih fun past hpast =>
        hstill past (hpast.trans (List.prefix_append _ _))
      have hrest := hstill rest (List.prefix_append _ _)
      have htops : SameTops (c.run rest).2 ((c.run rest).2.perform command).2 := by
        have hall := hstill (rest ++ [command]) (List.prefix_refl _)
        rw [snd_run_snoc] at hall
        exact ⟨hall.1.trans hrest.1.symm, hall.2.trans hrest.2.symm⟩
      rw [snd_run_snoc]
      have hsame := retireView_of_sameTops (hc.steps (steps_run c rest)) (hview ▸ hwaiting) htops
      refine ⟨hsame.trans hview, ?_⟩
      cases watch_perform (c.run rest).2 command with
      | unseen hlast hdetected hintervals =>
          rwa [hlast, hdetected, hintervals]
      | looks _ hlast hdetected hintervals =>
          rcases hpast with hfound | hnone | ⟨hseen, hone⟩
          · exact .inl (by rw [hdetected, hfound, Bool.true_or])
          · exact .inr (.inr ⟨by rw [hlast, hview], by rw [hintervals, hnone]⟩)
          · refine .inl ?_
            rw [hdetected, hview, hwaiting, hseen, beq_self_eq_true, Bool.and_true, Bool.or_true]

/-- Two intervals are enough. -/
theorem detected_of_sameTops {c : Core W} (hc : c.Consistent)
    (hinterval : 0 < c.config.lockCheckInterval) (hwaiting : c.retireView.waiting = true)
    {during : List Command}
    (hlong : c.clock + 2 * c.config.lockCheckInterval ≤ (c.run during).2.clock)
    (hstill : ∀ past, past <+: during → SameTops c (c.run past).2) :
    (c.run during).2.lock.detected = true := by
  have hpassed : c.intervals + 2 ≤ (c.run during).2.intervals := by
    rw [intervals, intervals, config_steps (steps_run c during),
      ← Nat.add_mul_div_right _ _ hinterval]
    exact Nat.div_le_div_right hlong
  rcases (found_or_seen_once hc hwaiting during hstill).2 with hfound | hnone | ⟨-, hone⟩
  · exact hfound
  · omega
  · omega

/-- What is found is what it is said to be. -/
theorem nothing_moved_of_found {start : Core W} (hs : start.Consistent)
    (hfresh : start.lock.last = none) (commands : List Command) {command : Command}
    (hbefore : (start.run commands).2.lock.detected = false)
    (hafter : ((start.run commands).2.perform command).2.lock.detected = true) :
    let c := (start.run commands).2
    command = .advance ∧ c.Looks ∧
      ∃ before between h, commands = before ++ .advance :: between ∧
        let e := (start.run before).2
        e.Looks ∧ c.clock = e.clock + start.config.lockCheckInterval ∧
        Event.commits (e.history (.advance :: between)) = [] ∧
        e.inFlight.head? = some h ∧ c.inFlight.head? = some h := by
  have hconfig := fun commands => config_steps (steps_run start commands)
  cases watch_perform (start.run commands).2 command with
  | unseen _ hsame =>
      rw [hsame, hbefore] at hafter
      cases hafter
  | looks hlooks _ hfound =>
      rw [hfound, hbefore, Bool.false_or, Bool.and_eq_true, beq_iff_eq] at hafter
      obtain ⟨hwaiting, hlast⟩ := hafter
      obtain ⟨before, between, hcommands, hlooked, hview, hintervals, hcounted⟩ :=
        lastLook_of_last hfresh commands hlast
      have he : (start.run before).2.Consistent := hs.steps (steps_run start before)
      have hsteps : Steps (start.run before).2
          ((start.run before).2.history (.advance :: between)) (start.run commands).2 := by
        rw [hcommands, run_append]
        exact steps_run _ _
      have hnone : Event.commits ((start.run before).2.history (.advance :: between)) = [] := by
        have hcommits : (start.run before).2.lock.commits = (start.run commands).2.lock.commits :=
          congrArg RetireView.commits hview
        exact List.eq_nil_of_length_eq_zero (by omega)
      obtain ⟨h, hhead⟩ := exists_oldest_of_waiting he (hview ▸ hwaiting)
      refine ⟨rfl, hlooks, before, between, h, hcommands, hlooked, ?_, hnone, hhead,
        head?_inFlight_of_steps he hsteps hnone hhead⟩
      have hnow := hlooks.clock_eq
      have hthen := hlooked.clock_eq
      rw [hconfig, hintervals, Nat.mul_succ] at hnow
      rw [hconfig] at hthen
      omega

/-- **A lock that is found is one, and a frozen retirement is found.** Whatever surrounds a
core and whatever is done to it:

A lock is found by a cycle that looks, and exactly one interval of active cycles after
another look. In the cycles since, from the one with the earlier look on, nothing has
committed, and the oldest operation in flight is the same at both looks.

If both tops stay the same for two intervals of active cycles, and one of them is an
operation, a lock is found by then, whatever else is done to the core meanwhile.

And what was found stays found. -/
theorem locks_are_real_and_found {config : CoreConfig} {hart : Nat} {world : W}
    {start : Core W} (hstart : create config hart world = .ok start) (commands : List Command) :
    let c := (start.run commands).2
    (∀ command, c.lock.detected = false → (c.perform command).2.lock.detected = true →
      command = .advance ∧ c.Looks ∧
        ∃ before between h, commands = before ++ .advance :: between ∧
          let e := (start.run before).2
          e.Looks ∧ c.clock = e.clock + config.lockCheckInterval ∧
          Event.commits (e.history (.advance :: between)) = [] ∧
          e.inFlight.head? = some h ∧ c.inFlight.head? = some h) ∧
    (∀ during, c.clock + 2 * config.lockCheckInterval ≤ (c.run during).2.clock →
      (∀ past, past <+: during → SameTops c (c.run past).2) → c.retireView.waiting = true →
      (c.run during).2.lock.detected = true) ∧
    ∀ later, c.lock.detected = true → (c.run later).2.lock.detected = true := by
  have hs := Consistent.of_create hstart
  obtain ⟨hvalid, rfl⟩ := create_eq hstart
  have hconfig : ((initial config hart world).run commands).2.config = config :=
    config_steps (steps_run _ commands)
  refine ⟨fun command => nothing_moved_of_found hs rfl commands,
    fun during hlong hstill hwaiting => ?_, fun later hdetected => detected_run hdetected later⟩
  have hc := hs.steps (steps_run _ commands)
  have hinterval : 0 < ((initial config hart world).run commands).2.config.lockCheckInterval := by
    rw [hconfig]
    exact lockCheckInterval_pos hvalid
  exact detected_of_sameTops hc hinterval hwaiting (by rwa [hconfig]) hstill

/-- A load that never executes stays on top of the reorder buffer. With an interval of two
cycles, the second cycle puts down what is seen and the fourth finds the lock; the queue
fills up meanwhile, and the cycle in which the core is not active does not count. -/
theorem lock_found_behind_load :
    let load : Nat → MicroOp := fun id => { id, pc := 0, inst := { opcode := .load } }
    let config : CoreConfig := { lockCheckInterval := 2 }
    let world : Obliging := { buckets := [[load 2], [load 3]] }
    let start : Core Obliging := .initial config 0 world
    let first : List Command := [.activate, .add (load 1)]
    let during : List Command :=
      [.advance, .advance, .deactivate, .advance, .activate, .advance, .advance]
    let commands := first ++ during.dropLast
    create config 0 world = .ok start ∧
      (start.run commands).2.lock.detected = false ∧
      ((start.run commands).2.perform .advance).2.lock.detected = true ∧
      (∃ h, (start.run commands).2.inFlight.head? = some h) ∧
      ((start.run first).2.run during).2.lock.detected = true := by
  intro load config world start first during commands
  have hstart : create config 0 world = .ok start := rfl
  have hbefore : (start.run commands).2.lock.detected = false := by decide +kernel
  have hafter : ((start.run commands).2.perform .advance).2.lock.detected = true := by
    decide +kernel
  obtain ⟨-, -, _, _, h, -, -, -, -, -, hhead⟩ :=
    (locks_are_real_and_found hstart commands).1 .advance hbefore hafter
  have hstill : ∀ past ∈ during.inits,
      SameTops (start.run first).2 ((start.run first).2.run past).2 := by decide +kernel
  have hlong : (start.run first).2.clock + 2 * config.lockCheckInterval ≤
      ((start.run first).2.run during).2.clock := by decide +kernel
  have hwaiting : (start.run first).2.retireView.waiting = true := by decide +kernel
  exact ⟨hstart, hbefore, hafter, ⟨h, hhead⟩,
    (locks_are_real_and_found hstart first).2.1 during hlong
      (fun past hpast => hstill past ((List.mem_inits past during).2 hpast)) hwaiting⟩

end Core

end OutOfOrder
