import OutOfOrder.Proofs.Core.Requests
import OutOfOrder.Proofs.Core.Throttle
import OutOfOrder.Surroundings.Obliging

/-!
# Replays cannot feed on themselves

While any of the budget is left, a request is not heard, and only an admission pays.
It pays nothing while the core recovers. But a budget that the end of a recovery has
armed finds the core not recovering, and as long as some of it is left nothing makes
the core recover again. So every admission does pay, and `damped_steps` carries the
two facts together.

A recovery in progress does hear requests, if no budget is left. They mark what they
name and raise the replay point, and start nothing. What a run counts as replays is
what it started, one for each recovery that has ended and for the one in progress.
-/

namespace OutOfOrder

namespace Core

variable {W : Type}

theorem ThrottleStep.paid {c : Core W} {event : Option Event} {level budget : Nat}
    (h : ThrottleStep c event level budget) (hidle : c.recovery.recovering = false)
    (hleft : 0 < c.serializer.budget) (hlasts : event ≠ some .recovered)
    (hunset : ∀ b, event ≠ some (.told (.arm b))) :
    budget + (Event.admissions event.toList).length = c.serializer.budget := by
  cases h with
  | stays _ hadmissions => rw [hadmissions]; rfl
  | armed => exact absurd rfl (hunset _)
  | admitted a =>
      rw [hidle, if_neg Bool.false_ne_true]
      show c.serializer.budget - 1 + 1 = c.serializer.budget
      omega
  | ended => exact absurd rfl hlasts

variable [Surroundings W]

section Deaf

variable {c d : Core W} {event : Option Event}

theorem eq_of_deaf {h : Handle} (hstep : Step c (some (.told (.replay h))) d)
    (hleft : 0 < c.serializer.budget) : d = c := by
  cases hstep with
  | replay => exact replay_of_deaf fun hopen => by omega

theorem idle_step (hstep : Step c event d) (hidle : c.recovery.recovering = false)
    (hleft : 0 < c.serializer.budget) :
    event ≠ some .recovered ∧ d.recovery.recovering = false := by
  by_cases hrequest : ∃ h, event = some (.told (.replay h))
  · obtain ⟨h, rfl⟩ := hrequest
    rw [eq_of_deaf hstep hleft]
    exact ⟨nofun, hidle⟩
  · have hcount := (recovery_step hstep).count_recovered fun h heq => hrequest ⟨h, heq⟩
    rw [hidle] at hcount
    refine ⟨?_, ?_⟩
    · rintro rfl
      simp at hcount
    · cases hd : d.recovery.recovering with
      | false => rfl
      | true => simp [hd] at hcount

/-- As long as fewer operations were admitted than the budget allows for, the core does
not recover, and each has paid. -/
theorem damped_steps {events : List Event} (hidle : c.recovery.recovering = false)
    (hsteps : Steps c events d) (hunset : ∀ b, .told (.arm b) ∉ events)
    (hfew : (Event.admissions events).length < c.serializer.budget) :
    d.recovery.recovering = false ∧
      d.serializer.budget + (Event.admissions events).length = c.serializer.budget := by
  refine hsteps.keeps (P := fun past e => (∀ b, .told (.arm b) ∉ past) →
    (Event.admissions past).length < c.serializer.budget → e.recovery.recovering = false ∧
      e.serializer.budget + (Event.admissions past).length = c.serializer.budget) ?_
    (fun _ _ => ⟨hidle, rfl⟩) hunset hfew
  -- The bound counts this step's admission too, so some of the budget is left before it.
  intro past e event e' hpast hstep hunset hfew
  simp only [List.mem_append, not_or, Option.mem_toList] at hunset
  rw [Event.admissions_append, List.length_append] at hfew ⊢
  obtain ⟨he, hspent⟩ := hpast (fun b => (hunset b).1) (by omega)
  have hleft : 0 < e.serializer.budget := by omega
  obtain ⟨hlasts, he'⟩ := idle_step hstep he hleft
  have hpaid := (throttle_step hstep).paid he hleft hlasts fun b => (hunset b).2
  exact ⟨he', by omega⟩

/-- A recovery in progress is not started again before it ends. -/
theorem openings_of_recovering (hrecovering : c.recovery.recovering = true)
    {during : List Command} (hlasts : .recovered ∉ c.history during) :
    c.openings during = [] ∧ (c.run during).2.recovery.recovering = true := by
  have hcount := length_openings c during
  rw [hrecovering, List.count_eq_zero.2 hlasts] at hcount
  cases hd : (c.run during).2.recovery.recovering with
  | false => simp [hd] at hcount
  | true =>
      rw [hd] at hcount
      exact ⟨List.length_eq_zero_iff.1 (by omega), rfl⟩

end Deaf

variable {c d : Core (Recorded W)} {event : Option Event}

/-- An operation that is marked where no request is heard was marked before, or came in
marked. -/
theorem marked_of_deaf {h : Handle} {op : MicroOp} (hc : c.Consistent) (hstep : Step c event d)
    (hleft : 0 < c.serializer.budget) (hop : d.pool.get? h = some op)
    (hmark : op.replayed = true) :
    (∃ old, c.pool.get? h = some old ∧ old.replayed = true) ∨
      ∃ a, event = some (.admitted a) ∧ a.handle = h ∧ a.offered.replayed = true := by
  by_cases hrequest : ∃ k, event = some (.told (.replay k))
  · obtain ⟨k, rfl⟩ := hrequest
    rw [eq_of_deaf hstep hleft] at hop
    exact .inl ⟨op, hop, hmark⟩
  · rcases (turnover_step hc.pool hstep).get?_cases hop with ⟨a, rfl, hhandle, rfl⟩ |
      ⟨-, old, hold, rfl | ⟨e, rfl, hchange⟩⟩
    · exact .inr ⟨a, rfl, hhandle, (replayed_of_admitted hc hstep).symm.trans hmark⟩
    · exact .inl ⟨op, hold, hmark⟩
    · have hsame := hchange.replayed_eq fun hevent => hrequest ⟨h, congrArg some hevent⟩
      exact .inl ⟨old, hold, hsame.symm.trans hmark⟩

/-- **Replays cannot feed on themselves.** Whatever surrounds a core and whatever is done
to it: after a recovery that came too close to the one before and so armed the budget,
and as long as fewer operations than that were admitted and nobody sets the budget from
outside, the core does not recover, no operation gets a mark that it was not offered
with, and every admission pays one unit. And a recovery in progress stays the same one
until it ends, however many requests arrive: the recoveries that were started are those
that have ended and the one in progress, and each counts as one replay and one sample of
the waste, if the operation of the request that started it is sampled. -/
theorem replays_do_not_feed_on_themselves {config : CoreConfig} {hart : Nat} {world : W}
    {start : Core (Recorded W)} (hstart : create config hart ⟨world, []⟩ = .ok start) :
    (∀ past c d, Steps start past c → Step c (some .recovered) d →
      Near config c.recovery.lastReplay c.recovery.replayPoint →
      ∀ later e, Steps d later e → (∀ b, .told (.arm b) ∉ later) →
        (Event.admissions later).length < config.serialize →
        e.recovery.recovering = false ∧
        e.serializer.budget + (Event.admissions later).length = config.serialize ∧
        ∀ event f, Step e event f → (∀ b, event ≠ some (.told (.arm b))) →
          f.recovery.recovering = false ∧
          f.serializer.budget + (Event.admissions event.toList).length = e.serializer.budget ∧
          ∀ h op, f.pool.get? h = some op → op.replayed = true →
            (∃ old, e.pool.get? h = some old ∧ old.replayed = true) ∨
              ∃ a, event = some (.admitted a) ∧ a.handle = h ∧ a.offered.replayed = true) ∧
    ∀ commands,
      let c := (start.run commands).2
      (start.openings commands).length =
          (start.history commands).count .recovered + c.recovery.recovering.toNat ∧
      c.stats.replays = (start.openings commands).countP (·.op.sampled) ∧
      c.stats.replayWaste.count = (start.openings commands).countP (·.op.sampled) ∧
      ∀ during, c.recovery.recovering = true → .recovered ∉ c.history during →
        c.openings during = [] ∧ (c.run during).2.recovery.recovering = true := by
  have hconsistent := Consistent.of_create hstart
  refine ⟨?_, fun commands => ?_⟩
  · intro past c d hpast hended hnear later e hlater hunset hfew
    have hc := hconsistent.steps hpast
    have hconfig : c.config = config := by
      rw [config_steps hpast, (create_eq hstart).2]
      rfl
    have hd : d.recovery.recovering = false ∧ d.serializer.budget = config.serialize := by
      cases hended with
      | recover hrecovering hdrained =>
          refine ⟨rfl, ?_⟩
          rw [serializer_finishRecovery, hconfig, adapt_near hnear]
          rfl
    obtain ⟨hidle, hbudget⟩ := hd
    rw [← hbudget] at hfew
    obtain ⟨he, hspent⟩ := damped_steps hidle hlater hunset hfew
    refine ⟨he, hspent.trans hbudget, fun event f hstep hunset' => ?_⟩
    have hleft : 0 < e.serializer.budget := by omega
    obtain ⟨hlasts, hf⟩ := idle_step hstep he hleft
    exact ⟨hf, (throttle_step hstep).paid he hleft hlasts hunset', fun h op =>
      marked_of_deaf ((hc.step hended).steps hlater) hstep hleft⟩
  · intro c
    have hopened := length_openings start commands
    obtain ⟨hreplays, hwaste⟩ := replays_run start commands
    obtain ⟨-, rfl⟩ := create_eq hstart
    exact ⟨hopened, hreplays.trans (Nat.zero_add _), hwaste.trans (Nat.zero_add _),
      fun during hrecovering => openings_of_recovering hrecovering⟩

/-- A load is replayed at once and arms a budget of 3. The two loads behind it come in in
the cycle that ends the recovery, and a request for the first of them is not heard. -/
theorem deaf_after_two_of_three_admissions :
    let op : Nat → MicroOp := fun id => { id, pc := 0, inst := { opcode := .load } }
    let config : CoreConfig := { maxRobSize := 6, retireDelay := 0, serialize := 3 }
    let world : Recorded Obliging := ⟨{ buckets := [[op 1], [op 2], [op 3]] }, []⟩
    let start : Core (Recorded Obliging) := .initial config 0 world
    let commands : List Command :=
      [.activate, .advance, .executed ⟨0, 1⟩, .replay ⟨0, 1⟩, .advance]
    let c := (start.run commands).2.fetch.tick.decode
    let e := c.finishRecovery.workCycle.2
    create config 0 world = .ok start ∧ c.recovery.recovering = true ∧
      e.recovery.recovering = false ∧ e.serializer.budget + 2 = 3 ∧
      (e.replay ⟨0, 2⟩).recovery.recovering = false := by
  intro op config world start commands c e
  have hstart : create config 0 world = .ok start := rfl
  have hrecovering : c.recovery.recovering = true := by decide +kernel
  have hdrained : c.isDrained = true := by decide +kernel
  have hnear : Near config c.recovery.lastReplay c.recovery.replayPoint := by
    show _ < _
    decide +kernel
  have hpast : Steps start (start.history commands ++ []) c :=
    (steps_run start commands).append
      (.silent (.fetch _) (.silent (.tick _) (.one_silent (.decode _))))
  obtain ⟨hdamped, -⟩ := replays_do_not_feed_on_themselves hstart
  obtain ⟨hidle, hbudget, hlater⟩ := hdamped _ c _ hpast (.recover hrecovering hdrained) hnear
    _ e (steps_workCycle c.finishRecovery) (by simp) (by decide +kernel)
  have htwo : (Event.admissions (c.finishRecovery.workCycle.1.admitted.map .admitted ++
      c.finishRecovery.workCycle.1.committed.map .committed)).length = 2 := by decide +kernel
  rw [htwo] at hbudget
  obtain ⟨hdeaf, -⟩ := hlater _ (e.replay ⟨0, 2⟩) (.replay e ⟨0, 2⟩) (by simp)
  exact ⟨hstart, hrecovering, hidle, hbudget, hdeaf⟩

end Core

end OutOfOrder
