import OutOfOrder.Proofs.Core.OrderEdge
import OutOfOrder.Proofs.Core.Throttle
import OutOfOrder.Proofs.Core.Trail

/-!
# Who comes before whom at the levels 0 and 1

Below level 2 the serializer keeps two pointers: to the last memory operation, and to the
last store. Two levels share them and use them differently. Level 0 chains every memory
operation to the last one. Level 1 chains loads and stores to the last store, and still
moves the other pointer with every load. So the pointer to the last memory operation means
at level 0 what it should only if nothing is left in it from level 1.

Nothing is, because the level only changes at the end of a recovery. By then the core has
drained, and a pointer names what is in flight. Budgets that run out and are armed again do
not matter either: while nothing is serialized no pointer moves but by a commit.

`Serializer.recording` is what an admission does to the pointers at the level that applies
to it, `ChainStep` what a step does, and `LastSerialized` what the two pointers stand for.
-/

namespace OutOfOrder

theorem Opcode.not_isStore_of_isLoad (o : Opcode) (h : o.isLoad = true) : ¬ o.isStore = true := by
  cases o <;> simp_all [isLoad, isStore]

namespace Serializer

/-- The level that applies to an admission, if any does: none while the core recovers, and
none without a budget. -/
def inForce? (s : Serializer) (recovering : Bool) : Option Nat :=
  if s.budget == 0 || recovering then none else some (min s.level maxSerializeLevel)

/-- What the serializer remembers after the admission of a fresh operation at a level. -/
def recording (s : Serializer) (h : Handle) (op : MicroOp) : Option Nat → Serializer
  | none => s
  | some 0 => if op.inst.opcode.isMemory then { s with lastMemory := some h } else s
  | some 1 =>
    if op.inst.opcode.isLoad then { s with lastMemory := some h }
    else if op.inst.opcode.isStore then { s with lastStore := some h }
    else s
  | some _ => { s with
      windows :=
        match s.nextWindow op with
        | none => s.windows
        | some window =>
          if op.inst.opcode.isMemory then s.windows.set window h
          else s.windows.clearAll op.inst.dsts
      window := s.nextWindow op
      lastPc := some op.pc }

variable {s : Serializer} {p : Pool} {h : Handle} {op : MicroOp}

/-- What is remembered depends neither on the level by then nor on the budget. -/
theorem recording_with (level budget : Nat) (inForce : Option Nat) :
    recording { s with level, budget } h op inForce =
      { s.recording h op inForce with level, budget } := by
  unfold recording
  split
  · rfl
  · split <;> rfl
  · split
    · rfl
    · split <;> rfl
  · rfl

theorem admitFull_eq (hfree : op.isUnordered = true) :
    (s.admitFull p h op).1 = s.recording h op (some 0) := by
  rw [admitFull, recording, hfree, Bool.and_true]
  split <;> rfl

theorem admitStores_eq (hfree : op.isUnordered = true) :
    (s.admitStores p h op).1 = s.recording h op (some 1) := by
  rw [admitStores, recording, hfree, Bool.and_true, Bool.and_true]
  split
  · rfl
  · split <;> rfl

theorem admitWindow_eq (n : Nat) : (s.admitWindow p h op).1 = s.recording h op (some (n + 2)) := by
  unfold admitWindow recording
  dsimp only
  cases s.nextWindow op with
  | none => rfl
  | some window =>
      dsimp only
      split <;> rfl

/-- An admission pays, and records the operation at the level that applies. -/
theorem apply_eq (hop : p.get? h = some op) (hunordered : op.edges.order = none)
    (recovering : Bool) : ∃ level budget, (s.apply p h recovering).1 =
      { s.recording h op (s.inForce? recovering) with level, budget } := by
  have hfree : op.isUnordered = true := by rw [MicroOp.isUnordered, hunordered]; rfl
  unfold apply inForce?
  dsimp only
  cases s.budget == 0 || recovering with
  | true => exact ⟨min s.level maxSerializeLevel, s.budget, rfl⟩
  | false =>
      refine ⟨min s.level maxSerializeLevel, s.budget - 1, ?_⟩
      rw [if_neg Bool.false_ne_true, if_neg Bool.false_ne_true, hop, ← recording_with]
      cases min s.level maxSerializeLevel with
      | zero => exact admitFull_eq hfree
      | succ below =>
          cases below with
          | zero => exact admitStores_eq hfree
          | succ n => exact admitWindow_eq n

/-- Stamping an operation does not change how it is recorded. -/
theorem recording_congr {op' : MicroOp} (hinst : op'.inst = op.inst) (hpc : op'.pc = op.pc)
    (level : Option Nat) : s.recording h op' level = s.recording h op level := by
  have hcurrent : s.nextWindow op' = s.nextWindow op := by rw [nextWindow, nextWindow, hinst, hpc]
  unfold recording
  rw [hinst, hpc, hcurrent]

theorem inForce?_eq_some {recovering : Bool} {level : Nat} :
    s.inForce? recovering = some level ↔
      s.budget ≠ 0 ∧ recovering = false ∧ min s.level maxSerializeLevel = level := by
  unfold inForce?
  cases recovering <;> simp [and_comm]

theorem lastStore_recording {inForce : Option Nat} : (s.recording h op inForce).lastStore =
    if inForce = some 1 ∧ op.inst.opcode.isStore = true then some h else s.lastStore := by
  unfold recording
  split
  · rfl
  · split <;> rfl
  · by_cases hload : op.inst.opcode.isLoad = true
    · rw [if_pos hload, if_neg fun hstore => op.inst.opcode.not_isStore_of_isLoad hload hstore.2]
    · rw [if_neg hload]
      by_cases hstore : op.inst.opcode.isStore = true
      · rw [if_pos hstore, if_pos ⟨rfl, hstore⟩]
      · rw [if_neg hstore, if_neg fun h => hstore h.2]
  · next level hzero hone => rw [if_neg fun h => hone (Option.some.inj h.1)]

/-- Level 1 moves the pointer to the last memory operation too. -/
theorem lastMemory_recording {inForce : Option Nat}
    (hlevel : ∀ level, inForce = some level → level = 0) :
    (s.recording h op inForce).lastMemory =
      if inForce = some 0 ∧ op.inst.opcode.isMemory = true then some h else s.lastMemory := by
  cases inForce with
  | none => rfl
  | some level =>
      obtain rfl := hlevel level rfl
      by_cases hmemory : op.inst.opcode.isMemory = true <;> simp [recording, hmemory]

end Serializer

namespace Core

variable {W : Type}

/-- The level that applies to an admission now, if any does. -/
def serializing? (c : Core W) : Option Nat := c.serializer.inForce? c.recovery.recovering

/-! ## Steps -/

/-- What a step does to the pointers of the serializer. -/
inductive ChainStep (c : Core W) : Option Event → Serializer → Prop
  | stays {event : Option Event} (level budget : Nat)
      (hadmissions : Event.admissions event.toList = [])
      (hcommits : Event.commits event.toList = []) :
      ChainStep c event { c.serializer with level, budget }
  | admitted (a : Admission) (level budget : Nat) :
      ChainStep c (some (.admitted a))
        { c.serializer.recording a.handle a.offered c.serializing? with level, budget }
  | committed (n : NamedOp) :
      ChainStep c (some (.committed n)) (c.serializer.release n.handle n.op.window)

/-- Only the end of a recovery makes it level 0. -/
theorem ThrottleStep.level_eq_zero {c : Core W} {event : Option Event} {level budget : Nat}
    (h : ThrottleStep c event level budget) (hlasts : event ≠ some .recovered)
    (hlevel : level = 0) : c.serializer.level = 0 := by
  cases h with
  | stays | armed => exact hlevel
  | admitted a => rw [maxSerializeLevel] at hlevel; omega
  | ended => exact absurd rfl hlasts

theorem adapt_eq (config : CoreConfig) (last point : Nat) (s : Serializer) :
    ∃ level budget, adapt config last point s = { s with level, budget } := by
  by_cases hfar : Far config last point
  · exact ⟨_, _, adapt_far hfar⟩
  · by_cases hnear : Near config last point
    · exact ⟨_, _, adapt_near hnear⟩
    · exact ⟨_, _, adapt_between hfar hnear⟩

variable [Surroundings W] {c d : Core W} {event : Option Event}

theorem chain_step (hp : c.pool.WellFormed) (hstep : Step c event d)
    (hunordered : ∀ a ∈ Event.admissions event.toList, a.offered.edges.order = none) :
    ChainStep c event d.serializer := by
  have hsame : ∀ {event : Option Event}, Event.admissions event.toList = [] →
      Event.commits event.toList = [] → d.serializer = c.serializer →
      ChainStep c event d.serializer := by
    intro event hadmissions hcommits heq
    rw [heq]
    exact .stays c.serializer.level c.serializer.budget hadmissions hcommits
  cases hstep with
  | activate | deactivate | issued | rest | charge | refuse | sample | holdRob | promote
  | dropRob | holdRetiring | dropRetiring => exact hsame rfl rfl rfl
  | arm budget => exact .stays c.serializer.level budget rfl rfl
  | recover =>
      obtain ⟨level, budget, heq⟩ :=
        adapt_eq c.config c.recovery.lastReplay c.recovery.replayPoint c.serializer
      rw [serializer_finishRecovery, heq]
      exact .stays level budget rfl rfl
  | fetch =>
      obtain ⟨_, _, _, heq⟩ := fetch_eq c
      exact hsame rfl rfl (by rw [heq])
  | tick =>
      obtain ⟨_, _, _, _, heq⟩ := tick_eq c
      exact hsame rfl rfl (by rw [heq])
  | decode =>
      obtain ⟨_, _, _, heq⟩ := decode_eq c
      exact hsame rfl rfl (by rw [heq])
  | executing h => exact hsame rfl rfl (by rw [executing_eq])
  | executed h =>
      rcases executed_cases c h with ⟨-, heq⟩ | ⟨op, -, heq⟩ <;> exact hsame rfl rfl (by rw [heq])
  | performed h =>
      rcases performed_cases c h with ⟨op, -, -, heq⟩ | ⟨-, heq⟩ <;>
        exact hsame rfl rfl (by rw [heq])
  | replay h => exact hsame rfl rfl (serializer_replay c h)
  | @accept op world queue hroom hanswer hqueue =>
      have hop : op.edges.order = none := hunordered _ List.mem_cons_self
      obtain ⟨level, budget, heq⟩ := Serializer.apply_eq (s := c.serializer)
        (Pool.get?_insert_self hp (({ c with world } : Core W).stamp op)) hop c.recovery.recovering
      have hrecorded : c.serializer.recording (({ c with world } : Core W).admitOp op).1.handle
            (({ c with world } : Core W).stamp op) c.serializing? =
          c.serializer.recording (({ c with world } : Core W).admitOp op).1.handle op
            c.serializing? := Serializer.recording_congr rfl rfl _
      have hserializer : ({ (({ c with world } : Core W).admitOp op).2 with queue }).serializer =
          { c.serializer.recording (({ c with world } : Core W).admitOp op).1.handle op
              c.serializing? with level, budget } :=
        heq.trans (congrArg (fun s : Serializer => { s with level, budget }) hrecorded)
      rw [hserializer]
      exact .admitted (({ c with world } : Core W).admitOp op).1 level budget
  | @commit h op world htop hop hdelay hanswer =>
      rw [serializer_commit]
      exact .committed ⟨h, op⟩

end Core

/-! ## What was serialized last -/

theorem Event.cases_of_quiet {event : Option Event} (hadmissions : admissions event.toList = [])
    (hcommits : commits event.toList = []) :
    event = none ∨ event = some .recovered ∨ ∃ command, event = some (.told command) := by
  cases event with
  | none => exact .inl rfl
  | some event =>
      cases event with
      | told command => exact .inr (.inr ⟨command, rfl⟩)
      | recovered => exact .inr (.inl rfl)
      | admitted => cases hadmissions
      | committed => cases hcommits

/-- What an event makes of a pointer. An admission moves it to what `moves` says, if that is
anything, and a commit takes it away from what commits. -/
def pointerAfter (moves : Admission → Option (Option Handle)) (pointer : Option Handle) :
    Option Event → Option Handle
  | some (.admitted a) => (moves a).getD pointer
  | some (.committed n) => pointer.filter (· != n.handle)
  | _ => pointer

namespace Moment

variable {W : Type}

def Commits (h : Handle) (m : Moment W) : Prop := ∃ n, m.event = .committed n ∧ n.handle = h

/-- An operation of a kind was admitted as `h` while a level applied. -/
def Serializes (level : Nat) (kind : Opcode → Bool) (h : Handle) (m : Moment W) : Prop :=
  ∃ a, m.event = .admitted a ∧ m.core.serializing? = some level ∧
    kind a.offered.inst.opcode = true ∧ a.handle = h

end Moment

/-- Of the operations of a kind that were serialized at a level, `h` names the last, and it
has not committed. -/
def LastSerialized {W : Type} (level : Nat) (kind : Opcode → Bool) (past : List (Moment W))
    (h : Handle) : Prop :=
  Lasts (Moment.Serializes level kind h)
    (fun m => (∃ k, m.Serializes level kind k) ∨ m.Commits h) past

section Pointers

variable {W : Type} {c : Core W} {event : Option Event} {s : Serializer}
  {moves : Admission → Option (Option Handle)}

/-- A pointer stands for what moved it there if nothing has moved it since. -/
theorem pointerAfter_eq_some {past : List (Moment W)} {pointer : Option Handle}
    {begins : Handle → Moment W → Prop} {ends : Moment W → Prop}
    (hbegins : ∀ p event, begins p ⟨c, event⟩ ↔
      ∃ a, event = .admitted a ∧ moves a = some (some p))
    (hends : ∀ event, ends ⟨c, event⟩ ↔ ∃ a, event = .admitted a ∧ moves a ≠ none)
    (hpointer : ∀ p, pointer = some p ↔
      Lasts (begins p) (fun m => ends m ∨ m.Commits p) past)
    (event : Option Event) (p : Handle) :
    pointerAfter moves pointer event = some p ↔
      Lasts (begins p) (fun m => ends m ∨ m.Commits p) (past ++ Moment.of c event) := by
  cases event with
  | none =>
      rw [Moment.append_of_none]
      exact hpointer p
  | some event =>
      show _ ↔ Lasts _ _ (past ++ [⟨c, event⟩])
      rw [lasts_append, hbegins, hends, ← hpointer, Moment.Commits]
      cases event with
      | told | recovered => simp [pointerAfter]
      | admitted a => cases hmoves : moves a <;> simp [pointerAfter, hmoves]
      | committed n =>
          rw [pointerAfter, Option.filter_eq_some_iff, bne_iff_ne, ne_comm]
          simp

theorem pointerAfter_of_stays (pointer : Option Handle)
    (hadmissions : Event.admissions event.toList = [])
    (hcommits : Event.commits event.toList = []) : pointerAfter moves pointer event = pointer := by
  rcases Event.cases_of_quiet hadmissions hcommits with rfl | rfl | ⟨command, rfl⟩ <;> rfl

namespace Core

/-- How an admission moves the pointer to the last operation of a kind that was serialized
at a level. -/
def moveSerialized (c : Core W) (level : Nat) (kind : Opcode → Bool) (a : Admission) :
    Option (Option Handle) :=
  if c.serializing? = some level ∧ kind a.offered.inst.opcode = true then some (some a.handle)
  else none

theorem lastSerialized_append {past : List (Moment W)} {pointer : Option Handle} {level : Nat}
    {kind : Opcode → Bool}
    (hpointer : ∀ p, pointer = some p ↔ LastSerialized level kind past p)
    (event : Option Event) (p : Handle) :
    pointerAfter (c.moveSerialized level kind) pointer event = some p ↔
      LastSerialized level kind (past ++ Moment.of c event) p := by
  refine pointerAfter_eq_some (fun p event => ?_) (fun event => ?_) hpointer event p
  · simp [Moment.Serializes, moveSerialized, and_assoc]
  · constructor
    · rintro ⟨k, a, heq, hkind⟩
      exact ⟨a, heq, by simp [moveSerialized, hkind]⟩
    · rintro ⟨a, heq, hmoves⟩
      refine ⟨a.handle, a, heq, ?_⟩
      simpa [moveSerialized] using hmoves

/-- At any level the pointer to the last store moves with the stores of level 1. -/
theorem ChainStep.lastStore_eq (h : ChainStep c event s) :
    s.lastStore =
      pointerAfter (c.moveSerialized 1 Opcode.isStore) c.serializer.lastStore event := by
  cases h with
  | stays level budget hadmissions hcommits =>
      exact (pointerAfter_of_stays _ hadmissions hcommits).symm
  | admitted a level budget =>
      show (c.serializer.recording a.handle a.offered c.serializing?).lastStore =
        (c.moveSerialized 1 Opcode.isStore a).getD c.serializer.lastStore
      rw [Serializer.lastStore_recording, moveSerialized]
      split <;> rfl
  | committed n => rfl

/-- At level 0 the pointer to the last memory operation moves with those of level 0. -/
theorem ChainStep.lastMemory_eq (h : ChainStep c event s) (hlevel : c.serializer.level = 0) :
    s.lastMemory =
      pointerAfter (c.moveSerialized 0 Opcode.isMemory) c.serializer.lastMemory event := by
  cases h with
  | stays level budget hadmissions hcommits =>
      exact (pointerAfter_of_stays _ hadmissions hcommits).symm
  | admitted a level budget =>
      have hzero : ∀ level, c.serializing? = some level → level = 0 := by
        intro level hforce
        rw [← (Serializer.inForce?_eq_some.1 hforce).2.2, hlevel]
        rfl
      show (c.serializer.recording a.handle a.offered c.serializing?).lastMemory =
        (c.moveSerialized 0 Opcode.isMemory a).getD c.serializer.lastMemory
      rw [Serializer.lastMemory_recording hzero, moveSerialized]
      split <;> rfl
  | committed n => rfl

end Core

end Pointers

namespace Core

section Flight

variable {W : Type} [Surroundings W] {start c d : Core W} {past : List (Moment W)}

/-- What was admitted and has not committed is in flight. -/
theorem Trail.mem_inFlight_of_lasts {begins ends : Moment W → Prop} {h : Handle}
    (htrail : Trail start past c) (hstart : start.Consistent)
    (hbegins : ∀ m, begins m → ∃ a, m.event = .admitted a ∧ a.handle = h)
    (hends : ∀ m, m.Commits h → ends m) (hlasts : Lasts begins ends past) : h ∈ c.inFlight := by
  induction htrail with
  | start => exact absurd hlasts not_lasts_nil
  | @step past c d event htrail hstep ih =>
      have hc : c.Consistent := hstart.steps htrail.steps
      cases event with
      | none =>
          rw [Moment.append_of_none] at hlasts
          exact (hc.mem_inFlight_step hstep (ih hlasts)).resolve_right (by simp)
      | some event =>
          rcases (lasts_append past _).1 hlasts with hnew | ⟨hold, hnot⟩
          · obtain ⟨a, heq, rfl⟩ := hbegins _ hnew
            obtain rfl : event = .admitted a := heq
            exact hc.mem_of_admitted hstep
          · refine (hc.mem_inFlight_step hstep (ih hold)).resolve_right ?_
            rintro ⟨n, heq, hn⟩
            obtain rfl := Option.some.inj heq
            exact hnot (hends _ ⟨n, rfl, hn⟩)

theorem Trail.mem_inFlight_of_lastSerialized {level : Nat} {kind : Opcode → Bool} {h : Handle}
    (htrail : Trail start past c) (hstart : start.Consistent)
    (hlast : LastSerialized level kind past h) : h ∈ c.inFlight :=
  htrail.mem_inFlight_of_lasts hstart (fun _ ⟨a, heq, _, _, hh⟩ => ⟨a, heq, hh⟩)
    (fun _ hcommits => .inr hcommits) hlast

/-- A recovery ends with nothing in flight. -/
theorem Consistent.inFlight_recovered (hc : c.Consistent) (hstep : Step c (some .recovered) d) :
    d.inFlight = [] := by
  cases hstep with
  | recover hrecovering hdrained => exact hc.isDrained_iff.1 hdrained

end Flight

/-! ## Runs -/

variable {W : Type} [Surroundings W] {start c d : Core (Recorded W)}
  {past : List (Moment (Recorded W))}

/-- The pointer to the last store is what it should be at every level, and the pointer to
the last memory operation is at level 0. -/
structure Chained (past : List (Moment (Recorded W))) (c : Core (Recorded W)) : Prop where
  store : ∀ p, c.serializer.lastStore = some p ↔ LastSerialized 1 Opcode.isStore past p
  memory : c.serializer.level = 0 → ∀ p, c.serializer.lastMemory = some p ↔
    LastSerialized 0 Opcode.isMemory past p

/-- The level comes down to 0 when a recovery ends, where there is nothing to point at. -/
theorem Chained.step {event : Option Event} (h : Chained past c) (hstep : Step c event d)
    (hc : c.Consistent)
    (hunordered : ∀ a ∈ Event.admissions event.toList, a.offered.edges.order = none)
    (hanchored : d.Anchored)
    (hlast : ∀ p, LastSerialized 0 Opcode.isMemory (past ++ Moment.of c event) p → p ∈ d.inFlight) :
    Chained (past ++ Moment.of c event) d := by
  have hchain := chain_step hc.pool hstep hunordered
  refine ⟨?_, fun hlevel => ?_⟩
  · rw [hchain.lastStore_eq]
    exact lastSerialized_append h.store event
  · by_cases hended : event = some .recovered
    · subst hended
      have hnone := hc.inFlight_recovered hstep
      intro p
      have hgone : p ∉ d.inFlight := by rw [hnone]; exact List.not_mem_nil
      exact ⟨fun hp => absurd (hanchored p none (.inl hp)).1 hgone,
        fun hp => absurd (hlast p hp) hgone⟩
    · have hbefore : c.serializer.level = 0 := (throttle_step hstep).level_eq_zero hended hlevel
      rw [hchain.lastMemory_eq hbefore]
      exact lastSerialized_append (h.memory hbefore) event

theorem Chained.of_trail {config : CoreConfig} {hart : Nat} {world : W}
    (hstart : create config hart ⟨world, []⟩ = .ok start) (htrail : Trail start past c)
    (hfresh : ∀ a ∈ Event.admissions (past.map Moment.event), a.offered.edges.order = none) :
    Chained past c := by
  have hc := Consistent.of_create hstart
  have hnever : ∀ {level kind} (p : Handle),
      none = some p ↔ LastSerialized level kind ([] : List (Moment (Recorded W))) p :=
    fun p => ⟨nofun, fun h => absurd h not_lasts_nil⟩
  have hempty : Chained [] start := by
    obtain ⟨-, rfl⟩ := create_eq hstart
    exact ⟨hnever, fun _ => hnever⟩
  refine (htrail.keeps_of_admissions (P := fun past e => e.Consistent ∧ e.Anchored ∧
    Chained past e) ?_ hfresh ⟨hc, anchored_create hstart, hempty⟩).2.2
  rintro past e event e' hpast ⟨he, hanchored, hchained⟩ hstep hnew
  have hanchored' := hanchored.step he hstep hnew
  exact ⟨he.step hstep, hanchored', hchained.step hstep he hnew hanchored'
    fun p => (hpast.step hstep).mem_inFlight_of_lastSerialized hc⟩

/-- At the level that applies, a memory operation waits for the operation that the level
names, below level 2 unless that one has been issued. -/
theorem Sequenced.order_eq_some {past : List Event} {a : Admission} (ho : Sequenced past c)
    (hstep : Step c (some (.admitted a)) d) (hunordered : a.offered.edges.order = none)
    {level : Nat} (hlevel : c.serializing? = some level)
    (hmemory : a.offered.inst.opcode.isMemory = true) (p : Handle) :
    a.op.edges.order = some p ↔ c.serializer.candidate? a.offered = some p ∧
      (level < maxSerializeLevel → Event.issued past p = false) := by
  obtain ⟨hbudget, hquiet, hmin⟩ := Serializer.inForce?_eq_some.1 hlevel
  have hnamed : c.serializer.predecessor? a.offered c.recovery.recovering =
      c.serializer.candidate? a.offered := by
    simp [Serializer.predecessor?, hbudget, hquiet, hmemory]
  rw [ho.consistent.order_of_admitted ho.anchored hstep hunordered, Option.filter_eq_some_iff,
    hnamed]
  refine and_congr_right fun hp => ?_
  obtain ⟨w, hw⟩ := Serializer.records_of_predecessor? (hnamed.trans hp)
  rw [ho.mayPrecede_eq (ho.anchored p w hw).1, Bool.or_eq_true, decide_eq_true_iff,
    Bool.not_eq_true']
  constructor
  · rintro (hhigh | hopen) hlow
    · omega
    · exact hopen
  · intro hopen
    by_cases hhigh : maxSerializeLevel ≤ c.serializer.level
    · exact .inl hhigh
    · exact .inr (hopen (by omega))

/-- And nothing else is ordered. -/
theorem Sequenced.order_eq_none {past : List Event} {a : Admission} (ho : Sequenced past c)
    (hstep : Step c (some (.admitted a)) d) (hunordered : a.offered.edges.order = none)
    (hnone : c.serializing? = none ∨ a.offered.inst.opcode.isMemory = false) :
    a.op.edges.order = none := by
  have hnamed : c.serializer.predecessor? a.offered c.recovery.recovering = none := by
    rcases hnone with hnone | hother
    · by_cases hbudget : c.serializer.budget = 0
      · simp [Serializer.predecessor?, hbudget]
      · have hrecovering : c.recovery.recovering = true := by
          simpa [serializing?, Serializer.inForce?, hbudget] using hnone
        simp [Serializer.predecessor?, hrecovering]
    · simp [Serializer.predecessor?, hother]
  rw [ho.consistent.order_of_admitted ho.anchored hstep hunordered, hnamed]
  rfl

/-- **Levels 0 and 1 order after what was serialized last.** Whatever surrounds a core and
whatever is done to it, if operations are offered without an ordering edge, then the run can
be retraced, and however it is retraced: a memory operation admitted while level 0 applies
is ordered after the last memory operation that level 0 serialized, and while level 1
applies after the last store that level 1 serialized, in both cases only if that one has
neither committed nor been reported issued, executing or executed since its admission.
Otherwise it gets no ordering edge; nor does any other operation, nor anything that is
admitted without a budget or during a recovery. The edges are those of what the new handle
names once the operation is admitted. -/
theorem ordered_after_last_serialized {config : CoreConfig} {hart : Nat} {world : W}
    (hstart : create config hart ⟨world, []⟩ = .ok start) (commands : List Command)
    (hfresh : ∀ a ∈ Event.admissions (start.history commands), a.offered.edges.order = none) :
    (∃ moments, Retraces start commands moments) ∧
      ∀ moments, Retraces start commands moments →
        ∀ earlier c a later, moments = earlier ++ ⟨c, .admitted a⟩ :: later →
          (∃ d, Step c (some (.admitted a)) d ∧ d.op? a.handle = some a.op) ∧
          (c.serializing? = some 0 → a.offered.inst.opcode.isMemory = true → ∀ p,
            a.op.edges.order = some p ↔ LastSerialized 0 Opcode.isMemory earlier p ∧
              Event.issued (earlier.map Moment.event) p = false) ∧
          (c.serializing? = some 1 → a.offered.inst.opcode.isMemory = true → ∀ p,
            a.op.edges.order = some p ↔ LastSerialized 1 Opcode.isStore earlier p ∧
              Event.issued (earlier.map Moment.event) p = false) ∧
          (c.serializing? = none ∨ a.offered.inst.opcode.isMemory = false →
            a.op.edges.order = none) := by
  refine ⟨exists_retraces start commands, ?_⟩
  intro moments hretraces earlier c a later hsplit
  obtain ⟨hbefore, ⟨d, hstep⟩, hunordered, hearlier⟩ := hretraces.admitted hfresh hsplit
  have ho := Sequenced.of_steps hstart hbefore.steps hearlier
  have hchained := Chained.of_trail hstart hbefore hearlier
  refine ⟨⟨d, hstep, ho.consistent.get?_of_admitted hstep⟩, fun hlevel hmemory p => ?_,
    fun hlevel hmemory p => ?_, ho.order_eq_none hstep hunordered⟩
  · have hmin := (Serializer.inForce?_eq_some.1 hlevel).2.2
    have hzero : c.serializer.level = 0 := by rw [maxSerializeLevel] at hmin; omega
    have hnamed : c.serializer.candidate? a.offered = c.serializer.lastMemory := by
      simp only [Serializer.candidate?, hmin]
    rw [ho.order_eq_some hstep hunordered hlevel hmemory, hnamed, hchained.memory hzero]
    exact and_congr_right fun _ => forall_prop_of_true (by decide)
  · have hmin := (Serializer.inForce?_eq_some.1 hlevel).2.2
    have hnamed : c.serializer.candidate? a.offered = c.serializer.lastStore := by
      simp only [Serializer.candidate?, hmin]
    rw [ho.order_eq_some hstep hunordered hlevel hmemory, hnamed, hchained.store]
    exact and_congr_right fun _ => forall_prop_of_true (by decide)

/-- A load and then a store at level 0: the store is ordered after the load. -/
theorem store_ordered_after_load_before_it :
    let op : Nat → Opcode → MicroOp := fun id opcode =>
      { id, pc := 0, inst := { opcode, src1 := some 5 } }
    let config : CoreConfig := { maxRobSize := 6, serializeLevel := 0 }
    let start : Core (Recorded Obliging) := .initial config 0 ⟨{}, []⟩
    let before : List Command := [.arm 9, .add (op 1 .load)]
    let c := (start.run before).2
    let commands : List Command := before ++ [.add (op 2 .store)]
    create config 0 ⟨{}, []⟩ = .ok start ∧
      (∀ a ∈ Event.admissions (start.history commands), a.offered.edges.order = none) ∧
      Retraces start commands (start.retrace commands) ∧ c.serializing? = some 0 ∧
      ∃ a, start.retrace commands = start.retrace before ++ [⟨c, .admitted a⟩] ∧
        (∃ d, Step c (some (.admitted a)) d ∧ d.op? a.handle = some a.op) ∧
        a.offered.inst.opcode.isMemory = true ∧ a.op.edges.order = some ⟨0, 1⟩ ∧
        LastSerialized 0 Opcode.isMemory (start.retrace before) ⟨0, 1⟩ ∧
        Event.issued ((start.retrace before).map Moment.event) ⟨0, 1⟩ = false := by
  intro op config start before c commands
  have hstart : create config 0 ⟨({} : Obliging), []⟩ = .ok start := rfl
  have hfresh : ∀ a ∈ Event.admissions (start.history commands), a.offered.edges.order = none := by
    decide +kernel
  have hretraces : Retraces start commands (start.retrace commands) :=
    retraces_retrace start (by decide)
  have hlevel : ((start.run before).2).serializing? = some 0 := by decide +kernel
  obtain ⟨a, ⟨hmemory, horder⟩, hsplit⟩ := retrace_add start (op 2 .store) before []
    (fun a => a.offered.inst.opcode.isMemory = true ∧ a.op.edges.order = some ⟨0, 1⟩)
    (by decide +kernel)
  obtain ⟨hnamed, hlaw, -⟩ := (ordered_after_last_serialized hstart commands hfresh).2 _ hretraces
    (start.retrace before) (start.run before).2 a [] hsplit
  exact ⟨hstart, hfresh, hretraces, hlevel, a, hsplit, hnamed, hmemory, horder,
    (hlaw hlevel hmemory ⟨0, 1⟩).1 horder⟩

end Core

end OutOfOrder
