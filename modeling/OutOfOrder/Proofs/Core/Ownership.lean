import OutOfOrder.Proofs.Core.Turnover
import OutOfOrder.Surroundings.Obliging

/-!
# Every operation has one owner

An admitted operation belongs to the core until it is handed back to the
emulator, and two paths lead there: its commit, if its memory effect is
complete by then, and otherwise the report that completes it afterwards. Slots
are given to new operations meanwhile and identifiers may repeat, so a handle
alone does not say whose an operation is.

What does is the place of an operation among the admissions. An `Account` reads
the departures in order and gives each release the place of the operation it
is about. It can be kept for every run, and the places it has not used are
exactly those of the operations that are still in the pool, each under its own
handle.
-/

namespace OutOfOrder

/-- An account of departures in the order in which they happened. The places of
the operations that were released are listed in the order of their release. -/
inductive Account (admitted : List Admission) : List Departure → List Nat → Prop
  | nil : Account admitted [] []
  /-- Operations commit in the order of their admission. -/
  | commit {past : List Departure} {places : List Nat} {op : MicroOp} {a : Admission}
      (hpast : Account admitted past places)
      (hnext : admitted[(past.filterMap Departure.committed?).length]? = some a)
      (horigin : op.origin = a.offered.origin) :
      Account admitted (past ++ [.committed op]) places
  /-- An operation is released once, after it has committed, and with its memory
  effect complete. -/
  | release {past : List Departure} {places : List Nat} {op : MicroOp} {i : Nat} {a : Admission}
      (hpast : Account admitted past places) (hfirst : i ∉ places)
      (hcommitted : i < (past.filterMap Departure.committed?).length)
      (hadmitted : admitted[i]? = some a) (horigin : op.origin = a.offered.origin)
      (hdone : op.performed = true) :
      Account admitted (past ++ [.released op]) (places ++ [i])

namespace Account

variable {admitted : List Admission} {past : List Departure} {places : List Nat}

theorem append (h : Account admitted past places) (more : List Admission) :
    Account (admitted ++ more) past places := by
  have hkeep : ∀ {i : Nat} {a : Admission}, admitted[i]? = some a →
      (admitted ++ more)[i]? = some a := by
    intro i a ha
    rw [List.getElem?_append_left (List.getElem?_eq_some_iff.1 ha).1, ha]
  induction h with
  | nil => exact .nil
  | commit _ hnext horigin ih => exact .commit ih (hkeep hnext) horigin
  | release _ hfirst hcommitted hadmitted horigin hdone ih =>
      exact .release ih hfirst hcommitted (hkeep hadmitted) horigin hdone

theorem lt_of_mem (h : Account admitted past places) :
    ∀ i ∈ places, i < (past.filterMap Departure.committed?).length := by
  induction h with
  | nil => nofun
  | commit _ _ _ ih =>
      intro i hi
      rw [List.filterMap_append, List.length_append]
      exact Nat.lt_add_right _ (ih i hi)
  | release _ _ hcommitted _ _ _ ih =>
      intro i hi
      rw [List.filterMap_append, List.length_append]
      rcases List.mem_append.1 hi with hi | hi
      · exact Nat.lt_add_right _ (ih i hi)
      · exact Nat.lt_add_right _ (List.mem_singleton.1 hi ▸ hcommitted)

theorem nodup (h : Account admitted past places) : places.Nodup := by
  induction h with
  | nil => exact List.nodup_nil
  | commit _ _ _ ih => exact ih
  | release _ hfirst _ _ _ _ ih =>
      refine List.nodup_append.2 ⟨ih, by simp, fun i hi j hj heq => hfirst ?_⟩
      rw [← List.mem_singleton.1 hj, ← heq]
      exact hi

end Account

/-- The operation at a place among the admissions has not been released. -/
def Outstanding (admitted : List Admission) (places : List Nat) (i : Nat) (a : Admission) : Prop :=
  admitted[i]? = some a ∧ i ∉ places

namespace Outstanding

variable {admitted : List Admission} {places : List Nat} {i j : Nat} {a b : Admission}

/-- One more admission is outstanding itself, and those before it are if they were. -/
theorem append_iff (hnew : admitted.length ∉ places) :
    Outstanding (admitted ++ [a]) places i b ↔
      Outstanding admitted places i b ∨ i = admitted.length ∧ b = a := by
  rw [Outstanding, Outstanding]
  rcases Nat.lt_trichotomy i admitted.length with hlt | rfl | hgt
  · rw [List.getElem?_append_left hlt]
    exact ⟨.inl, fun h => h.resolve_right fun heq => Nat.ne_of_lt hlt heq.1⟩
  · rw [List.getElem?_concat_length, List.getElem?_eq_none (Nat.le_refl _)]
    simp [hnew, eq_comm]
  · have hend : (admitted ++ [a]).length ≤ i := by
      rw [List.length_append]
      exact hgt
    rw [List.getElem?_eq_none hend, List.getElem?_eq_none (Nat.le_of_lt hgt)]
    simp [Nat.ne_of_gt hgt]

/-- A release ends it for one place. -/
theorem release_iff :
    Outstanding admitted (places ++ [i]) j b ↔ Outstanding admitted places j b ∧ j ≠ i := by
  rw [Outstanding, Outstanding, List.mem_append, List.mem_singleton, not_or, and_assoc]

end Outstanding

/-- The operation `op` is that of one outstanding admission, and of those the only one under
the handle `h`. -/
def HasOwner (admitted : List Admission) (places : List Nat) (h : Handle) (op : MicroOp) : Prop :=
  ∃ i a, Outstanding admitted places i a ∧ a.handle = h ∧ op.origin = a.offered.origin ∧
    ∀ j b, Outstanding admitted places j b → b.handle = h → j = i

namespace Core

variable {W : Type} {c d : Core (Recorded W)} {past : List Event} {places : List Nat}

/-- The operations that a core has and those that it had are accounted for. -/
structure Owned (past : List Event) (c : Core (Recorded W)) (places : List Nat) : Prop where
  consistent : c.Consistent
  inFlight : (Event.commits past).map (·.handle) ++ c.inFlight =
    (Event.admissions past).map (·.handle)
  account : Account (Event.admissions past) c.world.departures places
  commits : c.world.departures.filterMap Departure.committed? = (Event.commits past).map (·.op)
  live : ∀ i a, Outstanding (Event.admissions past) places i a → c.pool.get? a.handle ≠ none
  owner : ∀ h op, c.pool.get? h = some op → HasOwner (Event.admissions past) places h op
  contents : (c.world.released.map MicroOp.origin ++ c.pool.ops.map MicroOp.origin).Perm
    ((Event.admissions past).map (·.offered.origin))

theorem inFlight_past_step [Surroundings W] {event : Option Event} (hc : c.Consistent)
    (hpast : (Event.commits past).map (·.handle) ++ c.inFlight =
      (Event.admissions past).map (·.handle)) (h : Step c event d) :
    (Event.commits (past ++ event.toList)).map (·.handle) ++ d.inFlight =
      (Event.admissions (past ++ event.toList)).map (·.handle) := by
  rw [Event.commits_append, Event.admissions_append, List.map_append, List.map_append,
    List.append_assoc, hc.inFlight_step h, ← List.append_assoc, hpast]

namespace Owned

theorem of_create {config : CoreConfig} {hart : Nat} {world : W}
    (h : create config hart ⟨world, []⟩ = .ok c) : Owned [] c [] := by
  have hc := Consistent.of_create h
  obtain ⟨-, rfl⟩ := create_eq h
  exact {
    consistent := hc
    inFlight := rfl
    account := .nil
    commits := rfl
    live := fun i a hout => by cases hout.1
    owner := fun h op hop => by
      rw [initial, Pool.get?_withCapacity] at hop
      cases hop
    contents := by
      rw [initial, Pool.ops_withCapacity]
      exact .refl _ }

theorem length_commits (ho : Owned past c places) :
    (c.world.departures.filterMap Departure.committed?).length = (Event.commits past).length := by
  rw [ho.commits, List.length_map]

theorem lt_length_commits {i : Nat} {a : Admission}
    (hflight : (Event.commits past).map (·.handle) ++ c.inFlight =
      (Event.admissions past).map (·.handle))
    (ha : (Event.admissions past)[i]? = some a) (hnot : a.handle ∉ c.inFlight) :
    i < (Event.commits past).length := by
  have hhandle : ((Event.admissions past).map (·.handle))[i]? = some a.handle := by
    rw [List.getElem?_map, ha, Option.map_some]
  refine Nat.lt_of_not_le fun hle => hnot ?_
  rw [← hflight, List.getElem?_append_right (by rw [List.length_map]; exact hle)] at hhandle
  exact List.mem_of_getElem? hhandle

variable [Surroundings W]

/-- The account goes on with the commit that an event is. -/
theorem account_commitDepartures (ho : Owned past c places) {event : Event}
    (hstep : Step c (some event) d)
    (hop : ∀ n, event = .committed n → c.pool.get? n.handle = some n.op) :
    Account (Event.admissions past) (c.world.departures ++ commitDepartures event) places := by
  have hnone : ∀ {event : Event}, commitDepartures event = [] →
      Account (Event.admissions past) (c.world.departures ++ commitDepartures event) places := by
    intro event hevent
    rw [hevent, List.append_nil]
    exact ho.account
  cases event with
  | told command => exact hnone rfl
  | recovered => exact hnone rfl
  | admitted a => exact hnone rfl
  | committed n =>
      obtain ⟨i, a, hout, hhandle, horigin, hunique⟩ := ho.owner n.handle n.op (hop n rfl)
      -- The operation at the front of what is in flight is the next to commit.
      have hfront := ho.consistent.inFlight_committed hstep
      have hnext : ∃ b, (Event.admissions past)[(Event.commits past).length]? = some b ∧
          b.handle = n.handle := by
        refine Option.map_eq_some_iff (f := fun b : Admission => b.handle).1 ?_
        have hlength : ((Event.commits past).map (·.handle)).length ≤ (Event.commits past).length :=
          Nat.le_of_eq (List.length_map _)
        rw [← List.getElem?_map, ← ho.inFlight, hfront, List.getElem?_append_right hlength,
          List.length_map, Nat.sub_self, List.getElem?_cons_zero]
      obtain ⟨b, hb, hbhandle⟩ := hnext
      have hfresh : (Event.commits past).length ∉ places := fun hmem =>
        Nat.lt_irrefl _ (ho.length_commits ▸ ho.account.lt_of_mem _ hmem)
      obtain rfl := hunique _ b ⟨hb, hfresh⟩ hbhandle
      refine .commit ho.account (ho.length_commits ▸ hout.1) horigin

theorem quiet (ho : Owned past c places) {event : Option Event} (hstep : Step c event d)
    (hadmissions : Event.admissions event.toList = [])
    (hcommits : Event.commits event.toList = []) (hpool : d.pool = c.pool)
    (hdepartures : d.world.departures = c.world.departures) :
    Owned (past ++ event.toList) d places := by
  have hpast : Event.admissions (past ++ event.toList) = Event.admissions past := by
    rw [Event.admissions_append, hadmissions, List.append_nil]
  have hreleased : d.world.released = c.world.released := Recorded.released_congr hdepartures
  exact {
    consistent := ho.consistent.step hstep
    inFlight := inFlight_past_step ho.consistent ho.inFlight hstep
    account := by
      rw [hpast, hdepartures]
      exact ho.account
    commits := by
      rw [hdepartures, ho.commits, Event.commits_append, hcommits, List.append_nil]
    live := by
      rw [hpast, hpool]
      exact ho.live
    owner := by
      rw [hpast, hpool]
      exact ho.owner
    contents := by
      rw [hpast, hpool, hreleased]
      exact ho.contents }

/-! ### An operation comes

Its place is the one after all others, and nothing has been released from there. -/

omit [Surroundings W] in
theorem length_not_mem (ho : Owned past c places) : (Event.admissions past).length ∉ places := by
  intro hmem
  have hlt := ho.account.lt_of_mem _ hmem
  have hlength := congrArg List.length ho.inFlight
  rw [ho.length_commits] at hlt
  rw [List.length_append, List.length_map, List.length_map] at hlength
  omega

omit [Surroundings W] in
theorem live_comes (ho : Owned past c places) {a : Admission}
    (hpool : c.pool.Replaced d.pool a.handle none (some a.op)) {i : Nat} {b : Admission}
    (hout : Outstanding (Event.admissions past ++ [a]) places i b) :
    d.pool.get? b.handle ≠ none := by
  rcases (Outstanding.append_iff ho.length_not_mem).1 hout with hout | ⟨-, rfl⟩
  · have hlive := ho.live i b hout
    have hne : b.handle ≠ a.handle := fun heq => hlive (heq ▸ hpool.before)
    rwa [hpool.others _ hne]
  · rw [hpool.after]
    exact Option.some_ne_none _

omit [Surroundings W] in
theorem owner_comes (ho : Owned past c places) {a : Admission}
    (hpool : c.pool.Replaced d.pool a.handle none (some a.op))
    (horigin : a.op.origin = a.offered.origin) {h : Handle} {op : MicroOp}
    (hop : d.pool.get? h = some op) : HasOwner (Event.admissions past ++ [a]) places h op := by
  simp only [HasOwner, Outstanding.append_iff ho.length_not_mem]
  by_cases hh : h = a.handle
  · subst hh
    obtain rfl := Option.some.inj (hpool.after.symm.trans hop)
    refine ⟨_, a, .inr ⟨rfl, rfl⟩, rfl, horigin, fun j e hout he => ?_⟩
    -- The handle named nothing before, so no older operation has it.
    rcases hout with hout | ⟨hj, -⟩
    · exact absurd hpool.before (he ▸ ho.live j e hout)
    · exact hj
  · rw [hpool.others h hh] at hop
    obtain ⟨i, b, hout, hhandle, heq, hunique⟩ := ho.owner h op hop
    refine ⟨i, b, .inl hout, hhandle, heq, fun j e hout he => ?_⟩
    rcases hout with hout | ⟨-, rfl⟩
    · exact hunique j e hout he
    · exact absurd he.symm hh

omit [Surroundings W] in
theorem contents_comes (ho : Owned past c places) {a : Admission}
    (hpool : c.pool.Replaced d.pool a.handle none (some a.op))
    (horigin : a.op.origin = a.offered.origin) :
    (c.world.released.map MicroOp.origin ++ d.pool.ops.map MicroOp.origin).Perm
      ((Event.admissions past ++ [a]).map (·.offered.origin)) := by
  obtain ⟨rest, hbefore, hafter⟩ := hpool.ops
  rw [List.map_append]
  refine .trans ?_ (ho.contents.append_right [a.offered.origin])
  rw [List.append_assoc]
  refine List.Perm.append_left _ (((hafter.map _).trans ?_).trans List.perm_append_comm)
  rw [Option.toList_some, List.map_append, List.map_singleton, horigin]
  exact (hbefore.map _).symm.append_left [_]

theorem comes (ho : Owned past c places) {a : Admission} (hstep : Step c (some (.admitted a)) d)
    (hpool : c.pool.Replaced d.pool a.handle none (some a.op))
    (horigin : a.op.origin = a.offered.origin)
    (hdepartures : d.world.departures = c.world.departures) :
    Owned (past ++ [.admitted a]) d places := by
  have hpast : Event.admissions (past ++ [.admitted a]) = Event.admissions past ++ [a] :=
    Event.admissions_append _ _
  have hcommits : Event.commits (past ++ [.admitted a]) = Event.commits past :=
    (Event.commits_append _ _).trans (List.append_nil _)
  exact {
    consistent := ho.consistent.step hstep
    inFlight := inFlight_past_step ho.consistent ho.inFlight hstep
    account := by
      rw [hpast, hdepartures]
      exact ho.account.append [a]
    commits := by
      rw [hdepartures, hcommits, ho.commits]
    live := by
      rw [hpast]
      exact fun _ _ => ho.live_comes hpool
    owner := by
      rw [hpast]
      exact fun _ _ => ho.owner_comes hpool horigin
    contents := by
      rw [hpast, Recorded.released_congr hdepartures]
      exact ho.contents_comes hpool horigin }

/-! ### An operation changes -/

omit [Surroundings W] in
theorem owner_changes (ho : Owned past c places) {event : Event} {h : Handle} {op op' : MicroOp}
    (hchange : Change c.config.lateAlloc h op event op')
    (hpool : c.pool.Replaced d.pool h (some op) (some op')) {k : Handle} {left : MicroOp}
    (hleft : d.pool.get? k = some left) : HasOwner (Event.admissions past) places k left := by
  by_cases hk : k = h
  · subst hk
    obtain rfl := Option.some.inj (hpool.after.symm.trans hleft)
    rw [HasOwner, hchange.origin_eq]
    exact ho.owner k op hpool.before
  · rw [hpool.others k hk] at hleft
    exact ho.owner k left hleft

omit [Surroundings W] in
theorem contents_changes (ho : Owned past c places) {event : Event} {h : Handle}
    {op op' : MicroOp} (hchange : Change c.config.lateAlloc h op event op')
    (hpool : c.pool.Replaced d.pool h (some op) (some op')) :
    (c.world.released.map MicroOp.origin ++ d.pool.ops.map MicroOp.origin).Perm
      ((Event.admissions past).map (·.offered.origin)) := by
  obtain ⟨rest, hbefore, hafter⟩ := hpool.ops
  have hsame : (op' :: rest).map MicroOp.origin = (op :: rest).map MicroOp.origin := by
    rw [List.map_cons, hchange.origin_eq, List.map_cons]
  refine .trans (List.Perm.append_left _ ?_) ho.contents
  exact (hafter.map _).trans (hsame ▸ (hbefore.map _).symm)

theorem changes (ho : Owned past c places) {event : Event} {h : Handle} {op op' : MicroOp}
    (hstep : Step c (some event) d) (hchange : Change c.config.lateAlloc h op event op')
    (hpool : c.pool.Replaced d.pool h (some op) (some op'))
    (hdepartures : d.world.departures = c.world.departures ++ commitDepartures event) :
    Owned (past ++ [event]) d places := by
  have hpast : Event.admissions (past ++ [event]) = Event.admissions past := by
    rw [Event.admissions_append]
    cases hchange <;> exact List.append_nil _
  have hcommit : ∀ n, event = .committed n → c.pool.get? n.handle = some n.op := by
    rintro n rfl
    cases hchange
    exact hpool.before
  exact {
    consistent := ho.consistent.step hstep
    inFlight := inFlight_past_step ho.consistent ho.inFlight hstep
    account := by
      rw [hpast, hdepartures]
      exact ho.account_commitDepartures hstep hcommit
    commits := by
      rw [hdepartures, List.filterMap_append, committed_commitDepartures, ho.commits,
        Event.commits_append, List.map_append]
    live := by
      rw [hpast]
      intro i a hout
      by_cases ha : a.handle = h
      · rw [ha, hpool.after]
        exact Option.some_ne_none _
      · rw [hpool.others _ ha]
        exact ho.live i a hout
    owner := by
      rw [hpast]
      exact fun _ _ => ho.owner_changes hchange hpool
    contents := by
      rw [hpast, released_of_commitDepartures hdepartures]
      exact ho.contents_changes hchange hpool }

/-! ### An operation goes

It leaves from its place, which is the only one that its handle has. -/

omit [Surroundings W] in
theorem outstanding_goes (ho : Owned past c places) {h : Handle} {op : MicroOp}
    (hop : c.pool.get? h = some op) {i : Nat} {a : Admission}
    (hout : Outstanding (Event.admissions past) places i a) (hhandle : a.handle = h) {j : Nat}
    {b : Admission} : Outstanding (Event.admissions past) (places ++ [i]) j b ↔
      Outstanding (Event.admissions past) places j b ∧ b.handle ≠ h := by
  obtain ⟨l, -, -, -, -, hunique⟩ := ho.owner h op hop
  rw [Outstanding.release_iff]
  refine and_congr_right fun hb => not_congr ⟨?_, fun heq => ?_⟩
  · rintro rfl
    obtain rfl := Option.some.inj (hout.1.symm.trans hb.1)
    exact hhandle
  · exact (hunique j b hb heq).trans (hunique i a hout hhandle).symm

/-- What is not in the pool any more is not in flight, so it has committed. -/
theorem account_goes (ho : Owned past c places) {event : Event} {h : Handle} {op gone : MicroOp}
    (hstep : Step c (some event) d) (hleave : Leave h op event gone)
    (hpool : c.pool.Replaced d.pool h (some op) none)
    (hpast : Event.admissions (past ++ [event]) = Event.admissions past) {i : Nat}
    {a : Admission} (hout : Outstanding (Event.admissions past) places i a)
    (hhandle : a.handle = h) (horigin : op.origin = a.offered.origin) :
    Account (Event.admissions past)
      (c.world.departures ++ commitDepartures event ++ [.released gone]) (places ++ [i]) := by
  have hcommit : ∀ n, event = .committed n → c.pool.get? n.handle = some n.op := by
    rintro n rfl
    cases hleave
    exact hpool.before
  have hcommitted : i < (Event.commits (past ++ [event])).length :=
    lt_length_commits (inFlight_past_step ho.consistent ho.inFlight hstep) (hpast ▸ hout.1)
      ((ho.consistent.step hstep).not_mem_of_get?_eq_none (hhandle ▸ hpool.after))
  refine .release (ho.account_commitDepartures hstep hcommit) hout.2 ?_ hout.1
    (hleave.origin_eq.trans horigin) hleave.performed_eq
  rw [List.filterMap_append, committed_commitDepartures, List.length_append, List.length_map,
    ho.length_commits, ← List.length_append, ← Event.commits_append]
  exact hcommitted

omit [Surroundings W] in
theorem contents_goes (ho : Owned past c places) {event : Event} {h : Handle} {op gone : MicroOp}
    (hleave : Leave h op event gone) (hpool : c.pool.Replaced d.pool h (some op) none) :
    (c.world.released.map MicroOp.origin ++ gone.origin :: d.pool.ops.map MicroOp.origin).Perm
      ((Event.admissions past).map (·.offered.origin)) := by
  obtain ⟨rest, hbefore, hafter⟩ := hpool.ops
  refine .trans (List.Perm.append_left _ ?_) ho.contents
  refine .trans ?_ (hbefore.map _).symm
  rw [hleave.origin_eq]
  exact (hafter.map _).cons _

theorem goes (ho : Owned past c places) {event : Event} {h : Handle} {op gone : MicroOp}
    (hstep : Step c (some event) d) (hleave : Leave h op event gone)
    (hpool : c.pool.Replaced d.pool h (some op) none)
    (hdepartures : d.world.departures =
      c.world.departures ++ commitDepartures event ++ [.released gone]) :
    ∃ i, Owned (past ++ [event]) d (places ++ [i]) := by
  have hpast : Event.admissions (past ++ [event]) = Event.admissions past := by
    rw [Event.admissions_append]
    cases hleave <;> exact List.append_nil _
  obtain ⟨i, a, hout, hhandle, horigin, -⟩ := ho.owner h op hpool.before
  have hplaces {j : Nat} {b : Admission} :=
    ho.outstanding_goes hpool.before hout hhandle (j := j) (b := b)
  exact ⟨i, {
    consistent := ho.consistent.step hstep
    inFlight := inFlight_past_step ho.consistent ho.inFlight hstep
    account := by
      rw [hpast, hdepartures]
      exact ho.account_goes hstep hleave hpool hpast hout hhandle horigin
    commits := by
      rw [hdepartures, List.filterMap_append, List.filterMap_append,
        committed_commitDepartures, ho.commits, Event.commits_append, List.map_append]
      exact List.append_nil _
    live := by
      rw [hpast]
      intro j b hout
      obtain ⟨hout, hne⟩ := hplaces.1 hout
      rw [hpool.others _ hne]
      exact ho.live j b hout
    owner := by
      rw [hpast]
      intro k left hleft
      have hk : k ≠ h := by
        rintro rfl
        rw [hpool.after] at hleft
        cases hleft
      rw [hpool.others k hk] at hleft
      obtain ⟨j, b, hb, hbk, heq, honly⟩ := ho.owner k left hleft
      exact ⟨j, b, hplaces.2 ⟨hb, hbk ▸ hk⟩, hbk, heq, fun e x hx => honly e x (hplaces.1 hx).1⟩
    contents := by
      rw [hpast, released_of_departures hdepartures, List.map_append, List.append_assoc]
      exact ho.contents_goes hleave hpool }⟩

/-! ### Steps and runs -/

theorem step (ho : Owned past c places) {event : Option Event} (hstep : Step c event d) :
    ∃ places', Owned (past ++ event.toList) d places' := by
  cases turnover_step ho.consistent.pool hstep with
  | quiet hadmissions hcommits hidle hpool hregs hdepartures =>
      exact ⟨places, ho.quiet hstep hadmissions hcommits hpool hdepartures⟩
  | comes hpool horigin hregs hlate hdepartures =>
      exact ⟨places, ho.comes hstep hpool horigin hdepartures⟩
  | changes hchange hpool hregs hdepartures =>
      exact ⟨places, ho.changes hstep hchange hpool hdepartures⟩
  | goes hleave hpool hregs hdepartures =>
      obtain ⟨i, hd⟩ := ho.goes hstep hleave hpool hdepartures
      exact ⟨places ++ [i], hd⟩

theorem of_run {config : CoreConfig} {hart : Nat} {world : W} {start : Core (Recorded W)}
    (hstart : create config hart ⟨world, []⟩ = .ok start) (commands : List Command) :
    ∃ places, Owned (start.history commands) (start.run commands).2 places :=
  (steps_run start commands).keeps (P := fun past c => ∃ places, Owned past c places)
    (fun ⟨_, ho⟩ hstep => ho.step hstep) ⟨[], of_create hstart⟩

end Owned

/-- **Ownership.** Whatever surrounds a core and whatever is done to it, what it
was given is what it has handed back and what is in its pool. The departures
that its surroundings saw can be accounted for: each operation is handed back at
most once, after its commit, with its memory effect complete and as what it was
offered; the operations that were not handed back are in the pool under their
handles. And at no point between two steps of any run is there a handle in the
buffers twice, or one that names nothing. -/
theorem released_and_live_are_admitted [Surroundings W] {config : CoreConfig} {hart : Nat}
    {world : W} {start : Core (Recorded W)}
    (hstart : create config hart ⟨world, []⟩ = .ok start) (commands : List Command) :
    let past := start.history commands
    let c := (start.run commands).2
    let admitted := Event.admissions past
    (c.world.released.map MicroOp.origin ++ c.pool.ops.map MicroOp.origin).Perm
        (admitted.map (·.offered.origin)) ∧
      (∃ places, Account admitted c.world.departures places ∧ places.Nodup ∧
        ∀ (i : Nat) (a : Admission), admitted[i]? = some a → i ∉ places →
          ∃ op, c.op? a.handle = some op ∧ op.origin = a.offered.origin) ∧
      c.world.departures.filterMap Departure.committed? = (Event.commits past).map (·.op) ∧
      ∀ events e, Steps start events e →
        e.inFlight.Nodup ∧ ∀ h ∈ e.inFlight, ∃ op, e.op? h = some op := by
  intro past c admitted
  obtain ⟨places, ho⟩ := Owned.of_run hstart commands
  refine ⟨ho.contents, ⟨places, ho.account, ho.account.nodup, fun i a ha hi => ?_⟩, ho.commits,
    fun events e hsteps => ?_⟩
  · obtain ⟨op, hop⟩ := Option.ne_none_iff_exists'.1 (ho.live i a ⟨ha, hi⟩)
    obtain ⟨j, b, hout, hhandle, horigin, hunique⟩ := ho.owner a.handle op hop
    obtain rfl := hunique i a ⟨ha, hi⟩ rfl
    obtain rfl := Option.some.inj (hout.1.symm.trans ha)
    exact ⟨op, hop, horigin⟩
  · have he := (Consistent.of_create hstart).steps hsteps
    refine ⟨he.nodup, fun h hmem => ?_⟩
    obtain ⟨op, hop, -⟩ := he.live h hmem
    exact ⟨op, hop⟩

/-- Four operations with one identifier. The second is handed back when it
commits and the first only when its store is complete, by then with the fourth
in the slot of the second. -/
theorem owners_of_one_identifier :
    let op : Opcode → MicroOp := fun opcode => { id := 1, pc := 0, inst := { opcode } }
    let config : CoreConfig := { maxRobSize := 5, retireDelay := 0 }
    let world : Recorded Obliging := ⟨{ buckets := [[op .load]] }, []⟩
    let start : Core (Recorded Obliging) := .initial config 0 world
    let commands : List Command :=
      [.activate, .add (op .store), .add (op .alu), .executed ⟨0, 1⟩, .executed ⟨1, 1⟩,
        .advance, .add (op .mult), .performed ⟨0, 1⟩]
    let c := (start.run commands).2
    let admitted := Event.admissions (start.history commands)
    create config 0 world = .ok start ∧
      admitted.map (·.handle) = [⟨0, 1⟩, ⟨1, 1⟩, ⟨2, 1⟩, ⟨1, 1⟩] ∧
      c.world.released.map (·.inst.opcode) = [.alu, .store] ∧
      c.pool.ops.map (·.inst.opcode) = [.mult, .load] ∧
      (c.world.released.map MicroOp.origin ++ c.pool.ops.map MicroOp.origin).Perm
        (admitted.map (·.offered.origin)) := by
  intro op config world start commands c admitted
  have hstart : create config 0 world = .ok start := rfl
  exact ⟨hstart, by decide +kernel, by decide +kernel, by decide +kernel,
    (released_and_live_are_admitted hstart commands).1⟩

end Core

end OutOfOrder
