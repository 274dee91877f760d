import OutOfOrder.Proofs.Core.Barrier
import OutOfOrder.Proofs.Core.Flush

/-!
# A mark stays with its operation until it commits

A request for a replay marks the operation that its handle names. Three things can
keep it from having an effect on a commit: the request is not heard, the handle
names nothing, or it names an operation that has committed already and only waits
for its memory effect. What is left are the requests that `marks` names.

A mark that was set in flight is carried to the commit, as the operation that it was
set on: nothing takes it back, and nothing else brings one in. So over any run, the
operations that are marked in flight or have committed with a mark are those that
were so before and those that the run has marked, which is `carries_run`.
-/

namespace OutOfOrder

namespace Core

variable {W : Type}

/-- The operation in flight that a command marks, as it was before: a request has to be
heard for it. -/
def marks (c : Core W) : Command → List NamedOp
  | .replay h =>
    if c.serializer.budget = 0 ∧ c.config.memoryReplay = true ∧ h ∈ c.inFlight then
      (c.op? h).toList.map (⟨h, ·⟩)
    else []
  | _ => []

/-- The operations in flight that are marked while commands are carried out. -/
def marked [Surroundings W] (c : Core W) : List Command → List NamedOp
  | [] => []
  | command :: rest => c.marks command ++ (c.perform command).2.marked rest

/-- The operation of this origin is marked and in flight under `h`, or has committed
under it with a mark among `past`. -/
def Carries (past : List Event) (c : Core W) (h : Handle) (origin : MicroOp.Origin) : Prop :=
  (h ∈ c.inFlight ∧
      (c.pool.get? h).map (fun op => (op.replayed, op.origin)) = some (true, origin)) ∨
    ∃ n ∈ Event.commits past, n.handle = h ∧ n.op.replayed = true ∧ n.op.origin = origin

theorem handle_of_mem_marks {c : Core W} {h : Handle} {m : NamedOp}
    (hm : m ∈ c.marks (.replay h)) : m.handle = h := by
  rw [marks] at hm
  split at hm
  · obtain ⟨op, -, rfl⟩ := List.mem_map.1 hm
    rfl
  · cases hm

/-- A request that is not heard changes nothing. -/
theorem replay_of_deaf [FrontEnd W] {c : Core W} {h : Handle}
    (hdeaf : ¬ (c.serializer.budget = 0 ∧ c.config.memoryReplay = true)) : c.replay h = c := by
  rw [replay, if_pos]
  cases hreplay : c.config.memoryReplay with
  | false => exact Bool.or_true _
  | true => simpa [hreplay] using hdeaf

theorem pool_replay_of_heard [FrontEnd W] {c : Core W} {h : Handle}
    (hbudget : c.serializer.budget = 0) (hreplay : c.config.memoryReplay = true) :
    (c.replay h).pool = c.pool.modify h MicroOp.markReplayed := by
  rw [replay, hbudget, hreplay]
  cases hop : c.pool.get? h with
  | none => exact (Pool.modify_of_get?_eq_none hop).symm
  | some op =>
      dsimp only
      split
      · next hdeaf => cases hdeaf
      · split <;> rfl

variable [Surroundings W] {c d : Core (Recorded W)} {event : Option Event} {past : List Event}
variable {h : Handle} {origin : MicroOp.Origin}

/-- Only a request for the operation itself marks it. -/
theorem carries_step (hc : c.Consistent) (hstep : Step c event d)
    (hfresh : ∀ a ∈ Event.admissions event.toList, a.offered.replayed = false)
    (hother : event ≠ some (.told (.replay h))) :
    Carries (past ++ event.toList) d h origin ↔ Carries past c h origin := by
  have hkept : h ∈ c.inFlight → h ∈ d.inFlight →
      (d.pool.get? h).map (fun op => (op.replayed, op.origin)) =
        (c.pool.get? h).map fun op => (op.replayed, op.origin) := by
    intro hmem hmem'
    refine hc.kept_step hstep hmem hmem' fun hevent hchange => Prod.ext ?_ hchange.origin_eq
    exact hchange.replayed_eq fun heq => hother (heq ▸ hevent)
  have hcommits : ∀ n, event = some (.committed n) → h = n.handle →
      h ∈ c.inFlight ∧ c.pool.get? h = some n.op := by
    rintro n rfl rfl
    exact ⟨hc.inFlight_committed hstep ▸ List.mem_cons_self, get?_of_committed hstep⟩
  constructor
  · rintro (⟨hmem, hmark⟩ | ⟨n, hn, hhandle, hmark, horigin⟩)
    · obtain hold | ⟨a, rfl, rfl⟩ := hc.mem_inFlight_of_step hstep hmem
      · exact .inl ⟨hold, hkept hold hmem ▸ hmark⟩
      · rw [hc.get?_of_admitted hstep, Option.map_some, replayed_of_admitted hc hstep,
          hfresh a List.mem_cons_self] at hmark
        cases hmark
    · rw [Event.commits_append, List.mem_append] at hn
      obtain hn | hn := hn
      · exact .inr ⟨n, hn, hhandle, hmark, horigin⟩
      · obtain ⟨hmem, hop⟩ := hcommits n (Event.eq_committed_of_mem hn) hhandle.symm
        exact .inl ⟨hmem, by rw [hop, Option.map_some, hmark, horigin]⟩
  · rintro (⟨hmem, hmark⟩ | ⟨n, hn, hnamed⟩)
    · obtain hstays | ⟨n, hevent, hhandle⟩ := hc.mem_inFlight_step hstep hmem
      · exact .inl ⟨hstays, (hkept hmem hstays).trans hmark⟩
      · rw [(hcommits n hevent hhandle.symm).2, Option.map_some, Option.some.injEq,
          Prod.mk.injEq] at hmark
        refine .inr ⟨n, ?_, hhandle, hmark⟩
        rw [hevent, Event.commits_append]
        exact List.mem_append_right _ List.mem_cons_self
    · refine .inr ⟨n, ?_, hnamed⟩
      rw [Event.commits_append]
      exact List.mem_append_left _ hn

/-- A request that is heard marks the operation if it is in flight. -/
theorem carries_replay (hc : c.Consistent) (k : Handle) :
    Carries (past ++ [.told (.replay k)]) (c.replay k) h origin ↔
      Carries past c h origin ∨
        ∃ m ∈ c.marks (.replay k), m.handle = h ∧ m.op.origin = origin := by
  have hcommits : Event.commits (past ++ [.told (.replay k)]) = Event.commits past := by
    rw [Event.commits_append]
    exact List.append_nil _
  by_cases hk : k = h
  · subst hk
    rw [Carries, hcommits, inFlight_replay]
    by_cases hheard : c.serializer.budget = 0 ∧ c.config.memoryReplay = true ∧ k ∈ c.inFlight
    · obtain ⟨hbudget, hreplay, hmem⟩ := hheard
      obtain ⟨op, hop, -⟩ := hc.live k hmem
      have hmarked : (c.replay k).pool.get? k = some op.markReplayed := by
        rw [pool_replay_of_heard hbudget hreplay,
          Pool.get?_modify_self (f := MicroOp.markReplayed) fun _ => rfl, hop, Option.map_some]
      have hmarks : c.marks (.replay k) = [⟨k, op⟩] := by
        rw [marks, if_pos ⟨hbudget, hreplay, hmem⟩, op?, hop]
        rfl
      rw [hmarked, hmarks]
      constructor
      · rintro (⟨-, hmark⟩ | hcommitted)
        · exact .inr ⟨⟨k, op⟩, List.mem_singleton_self _, rfl,
            (Prod.mk.inj (Option.some.inj hmark)).2⟩
        · exact .inl (.inr hcommitted)
      · rintro ((⟨-, hmark⟩ | hcommitted) | ⟨m, hm, -, rfl⟩)
        · rw [hop, Option.map_some] at hmark
          rw [← (Prod.mk.inj (Option.some.inj hmark)).2]
          exact .inl ⟨hmem, rfl⟩
        · exact .inr hcommitted
        · rw [List.mem_singleton.1 hm]
          exact .inl ⟨hmem, rfl⟩
    · have hmarks : c.marks (.replay k) = [] := by rw [marks, if_neg hheard]
      have hsame : k ∈ c.inFlight → c.replay k = c := fun hmem =>
        replay_of_deaf fun hopen => hheard ⟨hopen.1, hopen.2, hmem⟩
      rw [hmarks]
      constructor
      · rintro (⟨hmem, hmark⟩ | hcommitted)
        · rw [hsame hmem] at hmark
          exact .inl (.inl ⟨hmem, hmark⟩)
        · exact .inl (.inr hcommitted)
      · rintro ((⟨hmem, hmark⟩ | hcommitted) | ⟨m, hm, -⟩)
        · exact .inl ⟨hmem, by rw [hsame hmem]; exact hmark⟩
        · exact .inr hcommitted
        · cases hm
  · have hnone : ∀ a ∈ Event.admissions [.told (.replay k)], a.offered.replayed = false :=
      fun a ha => absurd ha List.not_mem_nil
    refine (carries_step hc (.replay c k) hnone fun heq => hk ?_).trans (or_iff_left ?_).symm
    · exact Command.replay.inj (Event.told.inj (Option.some.inj heq))
    · rintro ⟨m, hm, hhandle, -⟩
      exact hk ((handle_of_mem_marks hm).symm.trans hhandle)

/-- Steps without a request neither mark anything nor take a mark back. -/
theorem carries_steps {events : List Event} (hc : c.Consistent) (hsteps : Steps c events d)
    (hsilent : ∀ k, .told (.replay k) ∉ events)
    (hfresh : ∀ a ∈ Event.admissions events, a.offered.replayed = false) :
    Carries (past ++ events) d h origin ↔ Carries past c h origin := by
  refine (hsteps.keeps (P := fun now e => e.Consistent ∧
    ((∀ k, .told (.replay k) ∉ now) → (∀ a ∈ Event.admissions now, a.offered.replayed = false) →
      (Carries (past ++ now) e h origin ↔ Carries past c h origin))) ?_ ⟨hc, ?_⟩).2 hsilent hfresh
  · intro now e event e' ⟨he, hnow⟩ hstep
    refine ⟨he.step hstep, fun hsilent hfresh => ?_⟩
    rw [Event.admissions_append] at hfresh
    rw [← List.append_assoc, carries_step he hstep
      (fun a ha => hfresh a (List.mem_append_right _ ha))
      (fun heq => hsilent h (List.mem_append_right _ (Option.mem_toList.2 heq)))]
    exact hnow (fun k hk => hsilent k (List.mem_append_left _ hk))
      fun a ha => hfresh a (List.mem_append_left _ ha)
  · intro _ _
    rw [List.append_nil]

theorem carries_perform (hc : c.Consistent) (command : Command)
    (hfresh : ∀ a ∈ Event.admissions ((c.perform command).1.events command),
      a.offered.replayed = false) :
    Carries (past ++ (c.perform command).1.events command) (c.perform command).2 h origin ↔
      Carries past c h origin ∨ ∃ m ∈ c.marks command, m.handle = h ∧ m.op.origin = origin := by
  obtain ⟨k, rfl⟩ | ⟨hother, hsilent⟩ := request_or_silent c command
  · exact carries_replay hc k
  · have hmarks : c.marks command = [] := by
      cases command with
      | replay k => exact absurd rfl (hother k)
      | activate | deactivate | advance | add | issued | executing | executed | performed
      | arm => rfl
    rw [hmarks, carries_steps hc (steps_perform c command) hsilent hfresh]
    exact (or_iff_left (by simp)).symm

/-- What is marked in flight or has committed with a mark is what was so before the run
and what the run has marked. -/
theorem carries_run (hc : c.Consistent) (commands : List Command)
    (hfresh : ∀ a ∈ Event.admissions (c.history commands), a.offered.replayed = false) :
    Carries (past ++ c.history commands) (c.run commands).2 h origin ↔
      Carries past c h origin ∨ ∃ m ∈ c.marked commands, m.handle = h ∧ m.op.origin = origin := by
  induction commands generalizing c past with
  | nil =>
      rw [history, List.append_nil, marked]
      exact (or_iff_left (by simp)).symm
  | cons command rest ih =>
      rw [history, Event.admissions_append] at hfresh
      rw [history, ← List.append_assoc, run, marked, ih (hc.steps (steps_perform c command))
        (fun a ha => hfresh a (List.mem_append_right _ ha)),
        carries_perform hc command fun a ha => hfresh a (List.mem_append_left _ ha), or_assoc]
      simp only [List.mem_append, or_and_right, exists_or]

end Core

end OutOfOrder
