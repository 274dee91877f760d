import OutOfOrder.Proofs.Core.Admission
import OutOfOrder.Proofs.Core.Report
import OutOfOrder.Proofs.Core.Step
import OutOfOrder.RingBuffer.Lemmas

/-!
# The buffers and the pool fit together

Much in the core looks as if it could go wrong without anyone noticing. A push
into a full buffer drops a handle, promotion pushes without looking, and a
handle that names nothing is popped and forgotten. None of it ever happens, and
the reason is one invariant over both buffers and the pool: together they hold
fewer handles than either has room for, and every handle in them is there once
and names an operation that has not retired.

The last part is what protects the operations in flight. The only report that
takes an operation out of the pool is the one that its memory effect is
complete, and it does so for retired operations alone.

`inFlight_step` is what the invariant is for: a step appends what it admits to
the handles in flight, takes what it commits from their front, and does nothing
else to them.
-/

namespace OutOfOrder

namespace Event

/-- A step whose event has an admission admits just that. -/
theorem eq_admitted_of_mem {event : Option Event} {a : Admission}
    (h : a ∈ admissions event.toList) : event = some (.admitted a) := by
  obtain ⟨e, he, hadmission⟩ := List.mem_filterMap.1 h
  rw [Option.mem_toList.1 he]
  cases e with
  | admitted b => rw [Option.some.inj hadmission]
  | told | recovered | committed => cases hadmission

theorem eq_committed_of_mem {event : Option Event} {n : NamedOp}
    (h : n ∈ commits event.toList) : event = some (.committed n) := by
  obtain ⟨e, he, hcommit⟩ := List.mem_filterMap.1 h
  rw [Option.mem_toList.1 he]
  cases e with
  | committed m => rw [Option.some.inj hcommit]
  | told | recovered | admitted => cases hcommit

end Event

namespace Core

variable {W : Type}

/-- The handles in flight, oldest first. -/
def inFlight (c : Core W) : List Handle := c.retiring.toList ++ c.rob.toList

/-- What holds of the buffers and the pool between any two steps. -/
structure Consistent (c : Core W) : Prop where
  pool : c.pool.WellFormed
  rob : c.rob.WellFormed
  retiring : c.retiring.WellFormed
  rob_capacity : c.rob.capacity = c.config.maxRobSize
  retiring_capacity : c.retiring.capacity = c.config.maxRobSize
  /-- One place of the shared capacity stays spare. -/
  length_lt : c.inFlight.length < c.config.maxRobSize
  nodup : c.inFlight.Nodup
  live : ∀ h ∈ c.inFlight, ∃ op, c.pool.get? h = some op ∧ op.stage ≠ .retired

variable {c d : Core W}

theorem SameFlight.inFlight (h : SameFlight c d) : d.inFlight = c.inFlight := by
  rw [Core.inFlight, Core.inFlight, h.retiring, h.rob]

theorem inFlight_performed [Emulator W] (c : Core W) (h : Handle) :
    (c.performed h).inFlight = c.inFlight := by
  obtain ⟨op, -, -, heq⟩ | ⟨-, heq⟩ := performed_cases c h <;> rw [heq] <;> rfl

theorem applies_eq_false_of_first {checks : List (Bool × ConfigError)}
    (h : ConfigError.first checks = .ok ()) : ∀ check ∈ checks, check.1 = false := by
  induction checks with
  | nil => intro check hcheck; cases hcheck
  | cons check rest ih =>
      obtain ⟨applies, error⟩ := check
      cases applies with
      | true => cases h
      | false => exact List.forall_mem_cons.2 ⟨rfl, ih h⟩

theorem two_le_maxRobSize {config : CoreConfig} (h : config.validate = .ok ()) :
    2 ≤ config.maxRobSize := by
  have hsize := applies_eq_false_of_first h (config.maxRobSize < 2, .robTooSmall config.maxRobSize)
    (by simp)
  exact Nat.le_of_not_lt (of_decide_eq_false hsize)

theorem serializeLevel_le_two {config : CoreConfig} (h : config.validate = .ok ()) :
    config.serializeLevel ≤ 2 := by
  have hlevel := applies_eq_false_of_first h
    (2 < config.serializeLevel, .serializeLevel config.serializeLevel) (by simp)
  exact Nat.le_of_not_lt (of_decide_eq_false hlevel)

theorem create_eq {config : CoreConfig} {hart : Nat} {world : W}
    (h : create config hart world = .ok c) :
    config.validate = .ok () ∧ c = initial config hart world := by
  rw [create] at h
  cases hvalid : config.validate with
  | error e => rw [hvalid] at h; cases h
  | ok u => rw [hvalid] at h; exact ⟨rfl, (Except.ok.inj h).symm⟩

namespace Consistent

theorem of_create {config : CoreConfig} {hart : Nat} {world : W}
    (h : create config hart world = .ok c) : c.Consistent := by
  obtain ⟨hvalid, rfl⟩ := create_eq h
  have hsize := two_le_maxRobSize hvalid
  exact {
    pool := Pool.wellFormed_withCapacity _
    rob := RingBuffer.wellFormed_withCapacity _
    retiring := RingBuffer.wellFormed_withCapacity _
    rob_capacity := RingBuffer.capacity_withCapacity _
    retiring_capacity := RingBuffer.capacity_withCapacity _
    length_lt := by show 0 < config.maxRobSize; omega
    nodup := List.nodup_nil
    live := fun h hmem => by cases hmem }

theorem length_inFlight (hc : c.Consistent) : c.inFlight.length = c.occupancy := by
  rw [inFlight, List.length_append, RingBuffer.length_toList hc.retiring,
    RingBuffer.length_toList hc.rob, occupancy, Nat.add_comm]

theorem isDrained_iff (hc : c.Consistent) : c.isDrained ↔ c.inFlight = [] := by
  rw [isDrained, Bool.and_eq_true, RingBuffer.isEmpty_iff hc.rob,
    RingBuffer.isEmpty_iff hc.retiring, inFlight, List.append_eq_nil_iff, and_comm]

theorem of_sameFlight (hc : c.Consistent) (h : SameFlight c d) : d.Consistent where
  pool := h.pool ▸ hc.pool
  rob := h.rob ▸ hc.rob
  retiring := h.retiring ▸ hc.retiring
  rob_capacity := by rw [h.rob, h.config]; exact hc.rob_capacity
  retiring_capacity := by rw [h.retiring, h.config]; exact hc.retiring_capacity
  length_lt := by rw [h.inFlight, h.config]; exact hc.length_lt
  nodup := h.inFlight ▸ hc.nodup
  live := by rw [h.inFlight, h.pool]; exact hc.live

theorem of_world (hc : c.Consistent) (world : W) : Consistent { c with world } :=
  hc.of_sameFlight ⟨rfl, rfl, rfl, rfl⟩

/-- The pool is free to change as long as it keeps what is in flight. -/
theorem of_pool (hc : c.Consistent) {p : Pool} (hp : p.WellFormed)
    (hlive : ∀ h ∈ c.inFlight, ∃ op, p.get? h = some op ∧ op.stage ≠ .retired) :
    Consistent { c with pool := p } :=
  { hc with pool := hp, live := hlive }

/-! ## The tops of the buffers -/

theorem mem_of_rob_top? (hc : c.Consistent) {h : Handle} (htop : c.rob.top? = some h) :
    h ∈ c.inFlight := by
  rw [RingBuffer.top?_eq_head? hc.rob] at htop
  exact List.mem_append_right _ (List.mem_of_head? htop)

theorem mem_of_retiring_top? (hc : c.Consistent) {h : Handle}
    (htop : c.retiring.top? = some h) : h ∈ c.inFlight := by
  rw [RingBuffer.top?_eq_head? hc.retiring] at htop
  exact List.mem_append_left _ (List.mem_of_head? htop)

/-- A handle in flight names something. -/
theorem get?_ne_none (hc : c.Consistent) {h : Handle} (hmem : h ∈ c.inFlight) :
    c.pool.get? h ≠ none := by
  obtain ⟨op, hop, -⟩ := hc.live h hmem
  rw [hop]
  exact Option.some_ne_none op

/-- So no handle is ever popped for naming nothing. -/
theorem get?_rob_top? (hc : c.Consistent) {h : Handle} (htop : c.rob.top? = some h) :
    c.pool.get? h ≠ none :=
  hc.get?_ne_none (hc.mem_of_rob_top? htop)

theorem get?_retiring_top? (hc : c.Consistent) {h : Handle}
    (htop : c.retiring.top? = some h) : c.pool.get? h ≠ none :=
  hc.get?_ne_none (hc.mem_of_retiring_top? htop)

/-- The handle of a new operation is not in flight yet. -/
theorem not_mem_of_get?_eq_none (hc : c.Consistent) {h : Handle}
    (hop : c.pool.get? h = none) : h ∉ c.inFlight :=
  fun hmem => hc.get?_ne_none hmem hop

theorem toList_eq_cons {r : RingBuffer Handle} (hr : r.WellFormed) {h : Handle}
    (htop : r.top? = some h) : r.toList = h :: r.pop.toList := by
  rw [RingBuffer.top?_eq_head? hr, List.head?_eq_some_iff] at htop
  obtain ⟨rest, hrest⟩ := htop
  rw [RingBuffer.toList_pop hr, hrest, List.tail_cons]

/-! ## Admission -/

/-- What is not refused finds room in the reorder buffer, a register, and no
recovery that it would have to wait for. -/
theorem of_refusal?_eq_none {op : MicroOp} (h : c.refusal? op = none) :
    (c.recovery.recovering = true → op.id ≤ c.recovery.replayPoint) ∧
      c.occupancy + 1 < c.config.maxRobSize ∧ 0 < c.freeRegs := by
  rw [refusal?] at h
  split at h
  · cases h
  · next hreplay =>
      split at h
      · cases h
      · next hroom =>
          split at h
          · cases h
          · next hregs =>
              refine ⟨fun hrecovering => ?_, by omega, by omega⟩
              simp only [hrecovering, Bool.true_and, decide_eq_true_eq] at hreplay
              omega

variable [Surroundings W]

/-- An admitted operation goes to the end of what is in flight. -/
theorem inFlight_admitOp (hc : c.Consistent) {op : MicroOp} (hroom : c.refusal? op = none) :
    (c.admitOp op).2.inFlight = c.inFlight ++ [(c.admitOp op).1.handle] := by
  have hoccupancy := (of_refusal?_eq_none hroom).2.1
  have hfree : c.rob.size < c.rob.capacity := by
    rw [hc.rob_capacity]
    rw [occupancy] at hoccupancy
    omega
  show c.retiring.toList ++ (c.rob.push (c.admitOp op).1.handle).toList = _
  rw [RingBuffer.toList_push hc.rob _ hfree, ← List.append_assoc]
  rfl

theorem admitOp (hc : c.Consistent) {op : MicroOp} (hroom : c.refusal? op = none) :
    (c.admitOp op).2.Consistent where
  pool := wellFormed_admitOp hc.pool op
  rob := RingBuffer.wellFormed_push hc.rob _
  retiring := hc.retiring
  rob_capacity := (RingBuffer.capacity_push _ _).trans hc.rob_capacity
  retiring_capacity := hc.retiring_capacity
  length_lt := by
    rw [hc.inFlight_admitOp hroom, List.length_append, hc.length_inFlight]
    exact (of_refusal?_eq_none hroom).2.1
  nodup := by
    have hfresh := hc.not_mem_of_get?_eq_none (get?_admitOp_fresh hc.pool op)
    rw [hc.inFlight_admitOp hroom]
    refine List.nodup_append.2 ⟨hc.nodup, by simp, fun a ha b hb heq => hfresh ?_⟩
    rw [← List.mem_singleton.1 hb, ← heq]
    exact ha
  live := by
    rw [hc.inFlight_admitOp hroom]
    intro h hmem
    by_cases hnew : h = (c.admitOp op).1.handle
    · obtain ⟨order, window, hop⟩ := op_admitOp hc.pool op
      refine ⟨_, hnew ▸ get?_admitOp_self hc.pool op, ?_⟩
      rw [hop]
      exact Stage.noConfusion
    · have hold : h ∈ c.inFlight := by
        rcases List.mem_append.1 hmem with hmem | hmem
        · exact hmem
        · exact absurd (List.mem_singleton.1 hmem) hnew
      rw [get?_admitOp_of_ne hc.pool op hnew]
      exact hc.live h hold

/-! ## Promotion and commit -/

omit [Surroundings W] in
/-- A promoted handle keeps its place in the order: it leaves the front of one
buffer for the back of the one before it. -/
theorem inFlight_promote (hc : c.Consistent) {h : Handle} (htop : c.rob.top? = some h)
    (world : W) :
    inFlight { c with world, rob := c.rob.pop, retiring := c.retiring.push h }
      = c.inFlight := by
  have hroom : c.retiring.size < c.retiring.capacity := by
    have hlen := hc.length_lt
    rw [hc.length_inFlight, occupancy] at hlen
    rw [hc.retiring_capacity]
    omega
  show (c.retiring.push h).toList ++ c.rob.pop.toList = c.retiring.toList ++ c.rob.toList
  rw [RingBuffer.toList_push hc.retiring h hroom, toList_eq_cons hc.rob htop,
    List.append_assoc, List.singleton_append]

omit [Surroundings W] in
theorem promote (hc : c.Consistent) {h : Handle} (htop : c.rob.top? = some h) (world : W) :
    Consistent { c with world, rob := c.rob.pop, retiring := c.retiring.push h } where
  pool := hc.pool
  rob := RingBuffer.wellFormed_pop hc.rob
  retiring := RingBuffer.wellFormed_push hc.retiring h
  rob_capacity := (RingBuffer.capacity_pop hc.rob).trans hc.rob_capacity
  retiring_capacity := (RingBuffer.capacity_push _ _).trans hc.retiring_capacity
  length_lt := by rw [hc.inFlight_promote htop]; exact hc.length_lt
  nodup := by rw [hc.inFlight_promote htop]; exact hc.nodup
  live := by rw [hc.inFlight_promote htop]; exact hc.live

/-- A commit takes the front of what is in flight. -/
theorem inFlight_commit (hc : c.Consistent) {h : Handle} (op : MicroOp)
    (htop : c.retiring.top? = some h) : c.inFlight = h :: (c.commit h op).inFlight := by
  show c.retiring.toList ++ c.rob.toList = _
  rw [inFlight, retiring_commit, rob_commit, toList_eq_cons hc.retiring htop,
    List.cons_append]

theorem commit (hc : c.Consistent) {h : Handle} (op : MicroOp)
    (htop : c.retiring.top? = some h) : (c.commit h op).Consistent := by
  have horder := hc.inFlight_commit op htop
  have hnodup : h ∉ (c.commit h op).inFlight ∧ (c.commit h op).inFlight.Nodup :=
    List.nodup_cons.1 (horder ▸ hc.nodup)
  exact {
    pool := by rw [pool_commit]; exact wellFormed_poolCommitting hc.pool h op
    rob := by rw [rob_commit]; exact hc.rob
    retiring := by rw [retiring_commit]; exact RingBuffer.wellFormed_pop hc.retiring
    rob_capacity := by rw [rob_commit, config_commit]; exact hc.rob_capacity
    retiring_capacity := by
      rw [retiring_commit, config_commit, RingBuffer.capacity_pop hc.retiring]
      exact hc.retiring_capacity
    length_lt := by
      have hlen := hc.length_lt
      rw [horder, List.length_cons] at hlen
      rw [config_commit]
      omega
    nodup := hnodup.2
    live := by
      intro k hk
      have hne : k ≠ h := fun heq => hnodup.1 (heq ▸ hk)
      rw [pool_commit, get?_poolCommitting_of_ne hne]
      exact hc.live k (horder ▸ List.mem_cons_of_mem h hk) }

/-! ## Reports -/

omit [Surroundings W] in
/-- A change of one operation that keeps its identifier and does not retire it
leaves the invariant alone. -/
theorem modify (hc : c.Consistent) (h : Handle) {f : MicroOp → MicroOp}
    (hid : ∀ op, (f op).id = op.id)
    (hstage : ∀ op, op.stage ≠ .retired → (f op).stage ≠ .retired) :
    Consistent { c with pool := c.pool.modify h f } := by
  refine hc.of_pool (Pool.wellFormed_modify hc.pool h f) fun k hk => ?_
  obtain ⟨op, hop, hlive⟩ := hc.live k hk
  by_cases heq : k = h
  · subst heq
    exact ⟨f op, by rw [Pool.get?_modify_self hid, hop, Option.map_some], hstage op hlive⟩
  · exact ⟨op, by rw [Pool.get?_modify_of_ne hid heq]; exact hop, hlive⟩

omit [Surroundings W] in
/-- So does the release of an operation that has retired. -/
theorem erase (hc : c.Consistent) {h : Handle} {op : MicroOp}
    (hop : c.pool.get? h = some op) (hretired : op.stage = .retired) :
    Consistent { c with pool := c.pool.erase h } := by
  refine hc.of_pool (Pool.wellFormed_erase hc.pool h) fun k hk => ?_
  obtain ⟨op', hop', hlive⟩ := hc.live k hk
  have hne : k ≠ h := by
    rintro rfl
    rw [hop] at hop'
    exact hlive (Option.some.inj hop' ▸ hretired)
  exact ⟨op', by rw [Pool.get?_erase_of_ne hne]; exact hop', hlive⟩

theorem performed (hc : c.Consistent) (h : Handle) : (c.performed h).Consistent := by
  obtain ⟨op, hop, hretired, heq⟩ | ⟨-, heq⟩ := performed_cases c h
  · rw [heq]
    exact (hc.erase hop hretired).of_sameFlight ⟨rfl, rfl, rfl, rfl⟩
  · rw [heq]
    exact hc.modify h (f := MicroOp.markPerformed) (fun _ => rfl) fun _ hstage => hstage

/-! ## Steps -/

/-- Every step keeps the invariant. -/
theorem step {event : Option Event} (hc : c.Consistent) (h : Step c event d) :
    d.Consistent := by
  cases h with
  | activate | deactivate | arm | rest | recover | charge | refuse | holdRob | sample
  | holdRetiring => exact hc.of_sameFlight ⟨rfl, rfl, rfl, rfl⟩
  | fetch => exact hc.of_sameFlight (sameOps_fetch c).toSameFlight
  | tick => exact hc.of_sameFlight (sameOps_tick c).toSameFlight
  | decode => exact hc.of_sameFlight (sameOps_decode c).toSameFlight
  | issued h =>
      exact hc.modify h (f := MicroOp.markIssued) (fun _ => rfl) fun _ hstage =>
        Stage.later_ne hstage Stage.noConfusion
  | executing h =>
      rw [executing_eq]
      exact (hc.modify h (f := MicroOp.markExecuting c.config.lateAlloc) (fun _ => rfl)
        fun _ hstage => Stage.later_ne hstage Stage.noConfusion).of_sameFlight
          ⟨rfl, rfl, rfl, rfl⟩
  | executed h =>
      obtain ⟨-, heq⟩ | ⟨op, -, heq⟩ := executed_cases c h
      · rw [heq]
        exact hc
      · rw [heq]
        exact (hc.modify h (f := MicroOp.markExecuted c.clock) (fun _ => rfl)
          fun _ _ => Stage.noConfusion).of_sameFlight ⟨rfl, rfl, rfl, rfl⟩
  | performed h => exact hc.performed h
  | replay h =>
      obtain ⟨world, recovery, stats, heq | heq⟩ := replay_eq c h
      · rw [heq]
        exact hc.of_sameFlight ⟨rfl, rfl, rfl, rfl⟩
      · rw [heq]
        exact (hc.modify h (f := MicroOp.markReplayed) (fun _ => rfl)
          fun _ hstage => hstage).of_sameFlight ⟨rfl, rfl, rfl, rfl⟩
  | @accept op world queue hroom hanswer hqueue =>
      exact ((hc.of_world world).admitOp hroom).of_sameFlight ⟨rfl, rfl, rfl, rfl⟩
  | promote htop hop hanswer => exact hc.promote htop _
  | dropRob htop hop => exact absurd hop (hc.get?_rob_top? htop)
  | @commit h op world htop hop hdelay hanswer =>
      exact (hc.of_world world).commit op htop
  | dropRetiring htop hop => exact absurd hop (hc.get?_retiring_top? htop)

/-- Every state that steps lead to has the invariant. -/
theorem steps {events : List Event} (hc : c.Consistent) (h : Steps c events d) :
    d.Consistent :=
  h.keeps (P := fun _ c => c.Consistent) (fun hc hstep => hc.step hstep) hc

/-- What a step does to the handles in flight: those it commits leave at the
front, those it admits come in at the end. -/
theorem inFlight_step {event : Option Event} (hc : c.Consistent) (h : Step c event d) :
    (Event.commits event.toList).map (·.handle) ++ d.inFlight =
      c.inFlight ++ (Event.admissions event.toList).map (·.handle) := by
  -- Most steps neither admit nor commit, and leave both buffers as they are.
  have hsame : ∀ {event : Option Event} {d : Core W}, Event.commits event.toList = [] →
      Event.admissions event.toList = [] → d.inFlight = c.inFlight →
      (Event.commits event.toList).map (·.handle) ++ d.inFlight =
        c.inFlight ++ (Event.admissions event.toList).map (·.handle) := by
    intro event d hcommits hadmissions heq
    rw [hcommits, hadmissions, heq, List.map_nil, List.nil_append, List.map_nil,
      List.append_nil]
  cases h with
  | activate | deactivate | arm | rest | recover | charge | refuse | holdRob | sample
  | holdRetiring | issued => exact hsame rfl rfl rfl
  | fetch => exact hsame rfl rfl (sameOps_fetch c).inFlight
  | tick => exact hsame rfl rfl (sameOps_tick c).inFlight
  | decode => exact hsame rfl rfl (sameOps_decode c).inFlight
  | executing h => exact hsame rfl rfl (by rw [executing_eq]; rfl)
  | executed h =>
      obtain ⟨-, heq⟩ | ⟨op, -, heq⟩ := executed_cases c h
      · exact hsame rfl rfl (by rw [heq])
      · exact hsame rfl rfl (by rw [heq]; rfl)
  | performed h => exact hsame rfl rfl (inFlight_performed c h)
  | replay h =>
      obtain ⟨world, recovery, stats, heq | heq⟩ := replay_eq c h <;>
        exact hsame rfl rfl (by rw [heq]; rfl)
  | @accept op world queue hroom hanswer hqueue =>
      exact (hc.of_world world).inFlight_admitOp hroom
  | promote htop hop hanswer =>
      exact hsame rfl rfl (hc.inFlight_promote htop _)
  | dropRob htop hop => exact absurd hop (hc.get?_rob_top? htop)
  | @commit h op world htop hop hdelay hanswer =>
      have horder := (hc.of_world world).inFlight_commit op htop
      show h :: inFlight _ = c.inFlight ++ []
      rw [← horder, List.append_nil]
      rfl
  | dropRetiring htop hop => exact absurd hop (hc.get?_retiring_top? htop)

/-- What commits was in flight, and is not any more. -/
theorem inFlight_committed {n : NamedOp} (hc : c.Consistent)
    (h : Step c (some (.committed n)) d) : c.inFlight = n.handle :: d.inFlight := by
  have hstep : n.handle :: d.inFlight = c.inFlight ++ [] := hc.inFlight_step h
  rw [hstep, List.append_nil]

theorem not_mem_of_committed {n : NamedOp} (hc : c.Consistent)
    (h : Step c (some (.committed n)) d) : n.handle ∉ d.inFlight :=
  (List.nodup_cons.1 (hc.inFlight_committed h ▸ hc.nodup)).1

/-- What is admitted is in flight. -/
theorem mem_of_admitted {a : Admission} (hc : c.Consistent)
    (h : Step c (some (.admitted a)) d) : a.handle ∈ d.inFlight := by
  have hstep : d.inFlight = c.inFlight ++ [a.handle] := hc.inFlight_step h
  rw [hstep]
  exact List.mem_append_right _ (List.mem_singleton_self _)

/-- It was not before. -/
theorem not_mem_of_admitted {a : Admission} (hc : c.Consistent)
    (h : Step c (some (.admitted a)) d) : a.handle ∉ c.inFlight := by
  cases h with
  | @accept op world queue hroom hanswer hqueue =>
      exact hc.not_mem_of_get?_eq_none (get?_admitOp_fresh (c := { c with world }) hc.pool op)

/-- What is admitted is what its handle names from then on. -/
theorem get?_of_admitted {a : Admission} (hc : c.Consistent)
    (h : Step c (some (.admitted a)) d) : d.pool.get? a.handle = some a.op := by
  cases h with
  | @accept op world queue hroom hanswer hqueue =>
      exact get?_admitOp_self (c := { c with world }) hc.pool op

/-- What is in flight after a step was in flight before or has just been
admitted. -/
theorem mem_inFlight_of_step {event : Option Event} {k : Handle} (hc : c.Consistent)
    (h : Step c event d) (hk : k ∈ d.inFlight) :
    k ∈ c.inFlight ∨ ∃ a, event = some (.admitted a) ∧ a.handle = k := by
  have hmem : k ∈ c.inFlight ++ (Event.admissions event.toList).map (·.handle) :=
    hc.inFlight_step h ▸ List.mem_append_right _ hk
  refine (List.mem_append.1 hmem).imp id fun hmem => ?_
  obtain ⟨a, ha, rfl⟩ := List.mem_map.1 hmem
  exact ⟨a, Event.eq_admitted_of_mem ha, rfl⟩

/-- What was in flight before a step still is or has just committed. -/
theorem mem_inFlight_step {event : Option Event} {k : Handle} (hc : c.Consistent)
    (h : Step c event d) (hk : k ∈ c.inFlight) :
    k ∈ d.inFlight ∨ ∃ n, event = some (.committed n) ∧ n.handle = k := by
  have hmem : k ∈ (Event.commits event.toList).map (·.handle) ++ d.inFlight :=
    hc.inFlight_step h ▸ List.mem_append_left _ hk
  refine (List.mem_append.1 hmem).symm.imp id fun hmem => ?_
  obtain ⟨n, hn, rfl⟩ := List.mem_map.1 hmem
  exact ⟨n, Event.eq_committed_of_mem hn, rfl⟩

end Consistent

/-! ## What no step changes -/

variable [Surroundings W]

theorem config_step {event : Option Event} (h : Step c event d) : d.config = c.config := by
  cases h with
  | fetch => exact (sameOps_fetch c).config
  | tick => exact (sameOps_tick c).config
  | decode => exact (sameOps_decode c).config
  | executing h => rw [executing_eq]
  | executed h => obtain ⟨-, heq⟩ | ⟨op, -, heq⟩ := executed_cases c h <;> rw [heq]
  | performed h => obtain ⟨op, -, -, heq⟩ | ⟨-, heq⟩ := performed_cases c h <;> rw [heq]
  | replay h => obtain ⟨world, recovery, stats, heq | heq⟩ := replay_eq c h <;> rw [heq]
  | commit => exact config_commit _ _ _
  | activate | deactivate | arm | issued | rest | recover | charge | refuse | accept
  | holdRob | promote | dropRob | sample | holdRetiring | dropRetiring => rfl

theorem config_steps {events : List Event} (h : Steps c events d) : d.config = c.config :=
  h.keeps (P := fun _ e => e.config = c.config)
    (fun he hstep => (config_step hstep).trans he) rfl

end Core

end OutOfOrder
