import OutOfOrder.Proofs.Core.CommitOrder
import OutOfOrder.Proofs.Core.Recovery

/-!
# A replay holds back what lies behind it

While a core recovers, the instruction queue stands still, and from outside
only operations up to the replay point are admitted. The recovery ends in a
cycle that finds both buffers empty, and in no other way. So everything that
was in flight when it started has committed by then, and what lies behind the
replay point comes in only afterwards.

The replay point may rise while the core drains. That does not hurt: it never
falls, so what was admitted below an earlier point lies below the last one.
The cycle that ends the recovery dispatches as well, but it ends the recovery
first, which is the order in which a history lists the two.
-/

namespace OutOfOrder

/-- Only a cycle that reports so ends a recovery. -/
theorem Reply.cycle_of_recovered {reply : Reply} {command : Command}
    (h : .recovered ∈ reply.events command) :
    ∃ report, reply = .cycle report ∧ report.recovered = true := by
  cases reply with
  | done => simp [events] at h
  | admission result => cases result <;> simp [events] at h
  | cycle report =>
      refine ⟨report, rfl, ?_⟩
      cases hrecovered : report.recovered with
      | true => rfl
      | false => simp [events, hrecovered] at h

namespace Core

variable {W : Type} {c d : Core W}

theorem SameFlight.isDrained (h : SameFlight c d) : d.isDrained = c.isDrained := by
  rw [Core.isDrained, Core.isDrained, h.rob, h.retiring]

variable [Surroundings W]

/-! ## While a recovery lasts -/

theorem id_le_of_room {op : MicroOp} (hp : c.pool.WellFormed)
    (hrecovering : c.recovery.recovering = true) (hroom : c.refusal? op = none) (world : W) :
    ({ c with world }.admitOp op).1.op.id ≤ c.recovery.replayPoint := by
  rw [id_admitOp (c := { c with world }) hp]
  exact (Consistent.of_refusal?_eq_none hroom).1 hrecovering

/-- As long as a recovery does not end, whatever is admitted lies at or before
the replay point. -/
theorem admitted_le_replayPoint {events : List Event} (hc : c.Consistent)
    (hrecovering : c.recovery.recovering = true) (h : Steps c events d)
    (hlasts : .recovered ∉ events) :
    d.recovery.recovering = true ∧
      ∀ a ∈ Event.admissions events, a.op.id ≤ d.recovery.replayPoint := by
  refine (h.keeps (P := fun past e => e.Consistent ∧ (.recovered ∉ past →
    e.recovery.recovering = true ∧
      ∀ a ∈ Event.admissions past, a.op.id ≤ e.recovery.replayPoint)) ?_
    ⟨hc, fun _ => ⟨hrecovering, fun _ ha => absurd ha List.not_mem_nil⟩⟩).2 hlasts
  intro past e event e' ⟨he, hpast⟩ hstep
  refine ⟨he.step hstep, fun hlasts => ?_⟩
  rw [List.mem_append, not_or, Option.mem_toList] at hlasts
  obtain ⟨hrecovering, hadmitted⟩ := hpast hlasts.1
  have hmoves := recovery_step hstep
  refine ⟨hmoves.recovering hrecovering hlasts.2, fun a ha => ?_⟩
  rw [Event.admissions_append, List.mem_append] at ha
  rcases ha with ha | ha
  · exact Nat.le_trans (hadmitted a ha) hmoves.replayPoint_le
  · obtain rfl := Event.eq_admitted_of_mem ha
    cases hstep with
    | accept hroom hanswer hqueue => exact id_le_of_room he.pool hrecovering hroom _

/-- From outside a recovering core only takes what lies at or before the replay point. -/
theorem id_le_of_add {op : MicroOp} {a : Admission} (hp : c.pool.WellFormed)
    (hrecovering : c.recovery.recovering = true) (hadd : (c.add op).1 = .ok a) :
    a.op.id ≤ c.recovery.replayPoint := by
  obtain ⟨cause, -, heq⟩ | ⟨cause, world, -, -, heq⟩ | ⟨world, hroom, -, heq⟩ := add_cases c op
  · rw [heq] at hadd
    cases hadd
  · rw [heq] at hadd
    cases hadd
  · rw [heq] at hadd
    exact Except.ok.inj hadd ▸ id_le_of_room hp hrecovering hroom world

/-- A cycle of a recovering core either finds the core drained and ends the
recovery, or dispatches nothing. -/
theorem advance_of_recovering (hrecovering : c.recovery.recovering = true) :
    c.isDrained ∧ c.advance.1.recovered = true ∨
      c.advance.1.admitted = [] ∧ c.advance.1.recovered = false := by
  have hdrained : c.fetch.tick.decode.isDrained = c.isDrained := by
    rw [(sameOps_decode _).isDrained, (sameOps_tick _).isDrained, (sameOps_fetch c).isDrained]
  have hstill : c.fetch.tick.decode.recovery.recovering = true := by
    rw [(fetch_tick_decode c).1]
    exact hrecovering
  rw [advance]
  split
  · exact .inr ⟨rfl, rfl⟩
  · dsimp only
    split
    · rw [busyCycle]
      dsimp only
      rw [hstill, hdrained]
      split
      · next hidle => cases hidle
      · split
        · next hempty => exact .inl ⟨hempty, rfl⟩
        · exact .inr ⟨rfl, rfl⟩
    · exact .inr ⟨rfl, rfl⟩

theorem busyCycle_of_recovered (hended : c.busyCycle.1.recovered = true) :
    c.decode.recovery.recovering = true ∧ c.decode.isDrained = true ∧
      c.busyCycle.2 = c.decode.finishRecovery.workCycle.2 := by
  unfold busyCycle at hended ⊢
  generalize c.decode = d at hended ⊢
  dsimp only at hended ⊢
  split at hended
  · rw [recovered_workCycle] at hended
    cases hended
  · next hrecovering =>
      split at hended
      · next hdrained =>
          rw [if_neg hrecovering, if_pos hdrained]
          exact ⟨by simpa using hrecovering, hdrained, rfl⟩
      · cases hended

/-- The cycle that ends a recovery goes on from there as usual. -/
theorem advance_of_recovered (hended : c.advance.1.recovered = true) :
    Step c.fetch.tick.decode (some .recovered) c.fetch.tick.decode.finishRecovery ∧
      c.advance.2 = c.fetch.tick.decode.finishRecovery.workCycle.2 := by
  unfold advance at hended ⊢
  split at hended
  · cases hended
  · next hactive =>
      rw [if_neg hactive]
      dsimp only at hended ⊢
      split at hended
      · next hbusy =>
          rw [if_pos hbusy]
          obtain ⟨hrecovering, hdrained, hwork⟩ := busyCycle_of_recovered hended
          exact ⟨.recover hrecovering hdrained, hwork⟩
      · cases hended

/-- Only a cycle that finds the core drained ends a recovery. -/
theorem drained_of_ended (hc : c.Consistent) (hrecovering : c.recovery.recovering = true)
    {command : Command} (hended : (c.perform command).2.recovery.recovering = false) :
    command = .advance ∧ c.isDrained ∧ c.advance.1.recovered = true := by
  have hevent : .recovered ∈ (c.perform command).1.events command := by
    refine Decidable.byContradiction fun hlasts => ?_
    have hstill := (admitted_le_replayPoint hc hrecovering (steps_perform c command) hlasts).1
    rw [hended] at hstill
    cases hstill
  obtain ⟨report, hreply, hrecovered⟩ := Reply.cycle_of_recovered hevent
  cases command with
  | advance =>
      obtain rfl : c.advance.1 = report := Reply.cycle.inj hreply
      obtain ⟨hdrained, -⟩ | ⟨-, hlasts⟩ := advance_of_recovering hrecovering
      · exact ⟨rfl, hdrained, hrecovered⟩
      · rw [hlasts] at hrecovered
        cases hrecovered
  | activate | deactivate | add | issued | executing | executed | performed | replay | arm =>
      cases hreply

/-! ## A recovery from its start to its end -/

/-- A request for `h` makes `c` recover, and the recovery ends in the cycle that
follows the commands `during`. -/
structure RecoversDuring (c : Core W) (h : Handle) (during : List Command) : Prop where
  idle : c.recovery.recovering = false
  starts : (c.replay h).recovery.recovering = true
  lasts : .recovered ∉ (c.replay h).history during
  ends : ((c.replay h).run during).2.advance.1.recovered = true

omit [Surroundings W] in
theorem inFlight_replay [FrontEnd W] (c : Core W) (h : Handle) :
    (c.replay h).inFlight = c.inFlight := by
  obtain heq | ⟨op, -, heq⟩ := replay_cases c h
  · rw [heq]
  · rw [heq]
    rfl

/-- The cycle that ends a recovery finds nothing in flight. -/
theorem RecoversDuring.inFlight_eq_nil {h : Handle} {during : List Command} (hc : c.Consistent)
    (hrecovers : c.RecoversDuring h during) : ((c.replay h).run during).2.inFlight = [] := by
  have hstart : (c.replay h).Consistent := hc.step (.replay c h)
  have hsteps := steps_run (c.replay h) during
  have hstill := (admitted_le_replayPoint hstart hrecovers.starts hsteps hrecovers.lasts).1
  refine (hstart.steps hsteps).isDrained_iff.1 ?_
  obtain ⟨hdrained, -⟩ | ⟨-, hlasts⟩ := advance_of_recovering hstill
  · exact hdrained
  · rw [hrecovers.ends] at hlasts
    cases hlasts

/-- By the end of a recovery everything that was in flight at its start has
committed, in order, and what was admitted lies at or before the replay point. -/
theorem RecoversDuring.drains {h : Handle} {during : List Command} (hc : c.Consistent)
    (hrecovers : c.RecoversDuring h during) :
    c.inFlight <+: (Event.commits ((c.replay h).history during)).map (·.handle) ∧
      ∀ a ∈ Event.admissions ((c.replay h).history during),
        a.op.id ≤ ((c.replay h).run during).2.recovery.replayPoint := by
  have hstart : (c.replay h).Consistent := hc.step (.replay c h)
  have hsteps := steps_run (c.replay h) during
  refine ⟨⟨(Event.admissions ((c.replay h).history during)).map (·.handle), ?_⟩,
    (admitted_le_replayPoint hstart hrecovers.starts hsteps hrecovers.lasts).2⟩
  rw [← inFlight_replay c h, ← commits_append_inFlight hstart hsteps,
    hrecovers.inFlight_eq_nil hc, List.append_nil]

/-- What is admitted behind the last replay point comes after the commits of everything
that was in flight when the recovery started. -/
theorem RecoversDuring.commits_before {h : Handle} {during after : List Command} (hc : c.Consistent)
    (hrecovers : c.RecoversDuring h during) {before later : List Event} {a : Admission}
    (hpast : (c.replay h).history (during ++ .advance :: after) = before ++ .admitted a :: later)
    (hbehind : ((c.replay h).run during).2.recovery.replayPoint < a.op.id) :
    c.inFlight <+: (Event.commits before).map (·.handle) := by
  obtain ⟨hcommitted, hadmitted⟩ := hrecovers.drains hc
  rw [history_append] at hpast
  -- The admission is none of those in `during`, since they lie at or before the point.
  obtain ⟨middle, hbefore, -⟩ | ⟨middle, hduring, hrest⟩ := List.append_eq_append_iff.1 hpast
  · rw [hbefore, Event.commits_append, List.map_append]
    exact hcommitted.trans (List.prefix_append _ _)
  · cases middle with
    | nil =>
        rw [List.append_nil] at hduring
        exact hduring ▸ hcommitted
    | cons first middle =>
        obtain rfl := (List.cons.inj hrest).1
        have hmem : a ∈ Event.admissions ((c.replay h).history during) := by
          rw [hduring, Event.admissions_append]
          exact List.mem_append_right _ List.mem_cons_self
        exact absurd (hadmitted a hmem) (Nat.not_le.2 hbehind)

/-- **The replay barrier.** While a core recovers, whatever is admitted from
outside lies at or before the replay point, a cycle that finds something in flight
dispatches nothing, and one that dispatches has ended the recovery before. Only a
cycle that finds both buffers empty ends it. So an operation behind the last replay
point of a recovery is admitted, if at all after its start, only when everything
that was in flight at its start has committed. -/
theorem nothing_behind_the_replay_point_overtakes {config : CoreConfig} {hart : Nat}
    {world : W} {start : Core W} (hstart : create config hart world = .ok start)
    (commands : List Command) :
    let c := (start.run commands).2
    (c.recovery.recovering = true →
      (∀ op a, (c.add op).1 = .ok a → a.op.id ≤ c.recovery.replayPoint) ∧
      (c.retiring.toList ++ c.rob.toList ≠ [] → c.advance.1.admitted = []) ∧
      (c.advance.1.admitted ≠ [] → c.advance.1.recovered = true) ∧
      ∀ command, (c.perform command).2.recovery.recovering = false →
        command = .advance ∧ c.rob.toList = [] ∧ c.retiring.toList = []) ∧
    ∀ h during, c.RecoversDuring h during →
      ∀ after before a later,
        (c.replay h).history (during ++ .advance :: after) = before ++ .admitted a :: later →
        ((c.replay h).run during).2.recovery.replayPoint < a.op.id →
        c.retiring.toList ++ c.rob.toList <+: (Event.commits before).map (·.handle) := by
  intro c
  have hc : c.Consistent := (Consistent.of_create hstart).steps (steps_run start commands)
  refine ⟨fun hrecovering => ⟨fun op a => id_le_of_add hc.pool hrecovering, fun hflight => ?_,
    fun hadmitted => ?_, fun command hended => ?_⟩,
    fun h during hrecovers after before a later hpast hbehind => ?_⟩
  · obtain ⟨hdrained, -⟩ | ⟨hnone, -⟩ := advance_of_recovering hrecovering
    · exact absurd (hc.isDrained_iff.1 hdrained) hflight
    · exact hnone
  · obtain ⟨-, hended⟩ | ⟨hnone, -⟩ := advance_of_recovering hrecovering
    · exact hended
    · exact absurd hnone hadmitted
  · obtain ⟨hcommand, hdrained, -⟩ := drained_of_ended hc hrecovering hended
    exact ⟨hcommand, (List.append_eq_nil_iff.1 (hc.isDrained_iff.1 hdrained)).symm⟩
  · exact hrecovers.commits_before hc hpast hbehind

/-- Two loads are in flight when the older one is replayed. The younger one raises
the replay point while the core drains, an operation from outside is kept out, and
the load that waits in the queue comes in after both have committed. -/
theorem third_load_after_two_replayed :
    let load : Nat → MicroOp := fun id => { id, pc := 0, inst := { opcode := .load } }
    let config : CoreConfig := { maxRobSize := 5, retireDelay := 0 }
    let world : Obliging := { buckets := [[load 3]] }
    let start : Core Obliging := .initial config 0 world
    let commands : List Command := [.activate, .add (load 1), .add (load 2)]
    let during : List Command :=
      [.executed ⟨0, 1⟩, .advance, .replay ⟨1, 2⟩, .add (load 9), .executed ⟨1, 2⟩, .advance]
    let c := (start.run commands).2
    let past := (c.replay ⟨0, 1⟩).history (during ++ [.advance])
    let a := (Event.admissions past).head?.getD default
    create config 0 world = .ok start ∧ c.RecoversDuring ⟨0, 1⟩ during ∧
      past = past.take 6 ++ .admitted a :: past.drop 7 ∧ a.op.id = 3 ∧
      ((c.replay ⟨0, 1⟩).run during).2.recovery.replayPoint = 2 ∧
      c.retiring.toList ++ c.rob.toList = [⟨0, 1⟩, ⟨1, 2⟩] ∧
      c.retiring.toList ++ c.rob.toList <+: (Event.commits (past.take 6)).map (·.handle) := by
  intro load config world start commands during c past a
  have hstart : create config 0 world = .ok start := rfl
  have hrecovers : c.RecoversDuring ⟨0, 1⟩ during :=
    ⟨by decide +kernel, by decide +kernel, by decide +kernel, by decide +kernel⟩
  have hpast : past = past.take 6 ++ .admitted a :: past.drop 7 := by decide +kernel
  obtain ⟨-, hbarrier⟩ := nothing_behind_the_replay_point_overtakes hstart commands
  exact ⟨hstart, hrecovers, hpast, by decide +kernel, by decide +kernel, by decide +kernel,
    hbarrier _ during hrecovers [] _ a _ hpast (by decide +kernel)⟩

end Core

end OutOfOrder
