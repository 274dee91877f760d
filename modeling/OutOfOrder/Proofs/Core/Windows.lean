import OutOfOrder.Proofs.Core.Chains

/-!
# Who comes before whom in a register window

At level 2 a memory operation waits for the last one of its window, and the window is the
register that its address comes from. The table of windows is kept like an alias table,
with two ways out of it: what commits leaves its window, and an operation that is no memory
operation and overwrites a register ends the window of that register, since the next
address formed from it is another one.

It does so only if it belongs to a window itself. The serializer looks for the window of an
operation first and does nothing for one that has none, so an operation without a source
that overwrites a register may leave its window as it was. `Moment.Closes` says which
operations end a window, and `Moment.Overwrites` which ones one would expect to.
-/

namespace OutOfOrder

/-! ## The window of an operation -/

namespace Serializer

variable {p : Pool} {h : Handle} {op : MicroOp}

/-- An admission that the windows apply to is paid for, and that is all that comes before. -/
theorem apply_eq_admitWindow (s : Serializer) (hop : p.get? h = some op) {recovering : Bool}
    (hlevel : s.inForce? recovering = some maxSerializeLevel) :
    s.apply p h recovering =
      { s with level := maxSerializeLevel, budget := s.budget - 1 }.admitWindow p h op := by
  obtain ⟨hbudget, rfl, hmin⟩ := inForce?_eq_some.1 hlevel
  unfold apply
  dsimp only
  rw [Bool.or_false, if_neg (by simpa using hbudget), hop, hmin]
  rfl

/-- A memory operation that they apply to comes out in its window. -/
theorem window_apply (s : Serializer) (hop : p.get? h = some op)
    (hunordered : op.edges.order = none) {recovering : Bool}
    (hlevel : s.inForce? recovering = some maxSerializeLevel)
    (hmemory : op.inst.opcode.isMemory = true) (hwindow : op.window = none) :
    ((s.apply p h recovering).2.get? h).map (·.window) = some (s.nextWindow op) := by
  have hsame : nextWindow { s with level := maxSerializeLevel, budget := s.budget - 1 } op =
      s.nextWindow op := rfl
  rw [apply_eq_admitWindow s hop hlevel, admitWindow]
  dsimp only
  rw [hsame]
  cases s.nextWindow op with
  | none =>
      show (p.get? h).map (·.window) = some none
      rw [hop, Option.map_some, hwindow]
  | some window =>
      obtain ⟨op', hop', hown, -⟩ :=
        get?_chainInWindow hop hunordered window (s.windows.producer window)
      dsimp only
      rw [if_pos hmemory]
      exact Option.map_eq_some_iff.2 ⟨op', hop', hown⟩

/-- Below level 2 nothing is recorded about windows. -/
theorem recording_below (s : Serializer) (h : Handle) (op : MicroOp) {inForce : Option Nat}
    (hlow : ∀ level, inForce = some level → level < maxSerializeLevel) :
    (s.recording h op inForce).windows = s.windows ∧
      (s.recording h op inForce).window = s.window ∧
      (s.recording h op inForce).lastPc = s.lastPc := by
  unfold recording
  split
  · exact ⟨rfl, rfl, rfl⟩
  · split <;> exact ⟨rfl, rfl, rfl⟩
  · split
    · exact ⟨rfl, rfl, rfl⟩
    · split <;> exact ⟨rfl, rfl, rfl⟩
  · next level hzero hone =>
      have hlevel := hlow level rfl
      rw [maxSerializeLevel] at hlevel
      exact ((show level = 0 ∨ level = 1 by omega).elim hzero hone).elim

/-- At level 2 a memory operation of a window becomes its last, and any other operation of
a window clears the windows of what it writes. -/
theorem windowProducer_recording (s : Serializer) (h : Handle) (op : MicroOp) {w : Nat}
    (hpos : 0 < w) (hlt : w < registerCount) :
    (s.recording h op (some maxSerializeLevel)).windowProducer w =
      if op.inst.opcode.isMemory = true then
        if s.nextWindow op = some w then some h else s.windowProducer w
      else if w ∈ op.inst.dsts ∧ s.nextWindow op ≠ none then none
      else s.windowProducer w := by
  cases hnext : s.nextWindow op with
  | none =>
      have hrecorded : (s.recording h op (some maxSerializeLevel)).windows = s.windows := by
        simp only [recording, maxSerializeLevel, hnext]
      rw [windowProducer, hrecorded]
      by_cases hmemory : op.inst.opcode.isMemory = true <;> simp [hmemory, windowProducer]
  | some window =>
      have hrecorded : (s.recording h op (some maxSerializeLevel)).windows =
          if op.inst.opcode.isMemory then s.windows.set window h
          else s.windows.clearAll op.inst.dsts := by
        simp only [recording, maxSerializeLevel, hnext]
      rw [windowProducer, hrecorded]
      by_cases hmemory : op.inst.opcode.isMemory = true
      · rw [if_pos hmemory, if_pos hmemory, AliasTable.producer_set]
        by_cases hown : window = w
        · subst hown
          rw [if_pos ⟨rfl, hpos, hlt⟩, if_pos rfl]
        · rw [if_neg fun h => hown h.1.symm, if_neg (by simpa using hown)]
          rfl
      · rw [if_neg hmemory, if_neg hmemory, AliasTable.producer_clearAll]
        simp [windowProducer]

end Serializer

namespace Core

theorem serializing?_lt {W : Type} {c : Core W} (hlevel : c.serializing? ≠ some maxSerializeLevel)
    (level : Nat) (hforce : c.serializing? = some level) : level < maxSerializeLevel := by
  have hmin := (Serializer.inForce?_eq_some.1 hforce).2.2
  have hne : level ≠ maxSerializeLevel := by
    rintro rfl
    exact hlevel hforce
  omega

section Admission

variable {W : Type} [Surroundings W] {c d : Core W}

theorem window_admitOp (hp : c.pool.WellFormed) {op : MicroOp}
    (hunordered : op.edges.order = none) (hwindow : op.window = none)
    (hlevel : c.serializing? = some maxSerializeLevel)
    (hmemory : op.inst.opcode.isMemory = true) :
    (c.admitOp op).1.op.window = c.serializer.nextWindow op := by
  obtain ⟨entered, hentered, hown⟩ := Option.map_eq_some_iff.1 <|
    Serializer.window_apply c.serializer (Pool.get?_insert_self hp (c.stamp op)) hunordered hlevel
      hmemory hwindow
  rw [op_admitOp_of_entered hentered]
  exact hown

theorem window_of_admitted {a : Admission} (hp : c.pool.WellFormed)
    (hstep : Step c (some (.admitted a)) d) (hunordered : a.offered.edges.order = none)
    (hwindow : a.offered.window = none) (hlevel : c.serializing? = some maxSerializeLevel)
    (hmemory : a.offered.inst.opcode.isMemory = true) :
    a.op.window = c.serializer.nextWindow a.offered := by
  cases hstep with
  | @accept op world queue hroom hanswer hqueue =>
      exact window_admitOp (c := { c with world }) hp hunordered hwindow hlevel hmemory

end Admission

end Core

/-! ## What windows are left open, and for whom -/

/-- What an admission to which the windows apply leaves behind: its program counter, and the
window it belongs to. -/
structure OpenWindow where
  pc : Option UInt64 := none
  window : Option Nat := none

/-- The window that an operation belongs to after the one that left `o` behind. -/
def MicroOp.windowAfter (op : MicroOp) (o : OpenWindow) : Option Nat :=
  match op.inst.src1 with
  | some reg => some reg
  | none => if o.pc = some op.pc then o.window else none

namespace Moment

variable {W : Type}

def leavesOpen (o : OpenWindow) (m : Moment W) : OpenWindow :=
  match m.event with
  | .admitted a =>
    if m.core.serializing? = some maxSerializeLevel then
      ⟨some a.offered.pc, a.offered.windowAfter o⟩
    else o
  | _ => o

/-- A memory operation was admitted as `h`, with the windows applying to it, and recorded in
the window `w`. -/
def Enters (w : Nat) (h : Handle) (m : Moment W) : Prop :=
  ∃ a, m.event = .admitted a ∧ m.core.serializing? = some maxSerializeLevel ∧
    a.offered.inst.opcode.isMemory = true ∧ a.op.window = some w ∧ a.handle = h

/-- An operation was admitted, with the windows applying to it, that is no memory operation
and writes the register `w`. -/
def Overwrites (w : Nat) (m : Moment W) : Prop :=
  ∃ a, m.event = .admitted a ∧ m.core.serializing? = some maxSerializeLevel ∧
    a.offered.inst.opcode.isMemory = false ∧ w ∈ a.offered.inst.dsts

/-- And it belongs to a window, be it another one. -/
def Closes (w : Nat) (m : Moment W) : Prop :=
  m.Overwrites w ∧ ∃ a, m.event = .admitted a ∧ m.core.serializer.nextWindow a.offered ≠ none

end Moment

/-- The program counter and the window of the last admission to which the windows applied. -/
def openWindow {W : Type} (past : List (Moment W)) : OpenWindow :=
  past.foldl Moment.leavesOpen {}

/-- Of the memory operations recorded in the window `w`, `h` names the last. It has not
committed, and nothing that came later closes the window. -/
def LastInWindow {W : Type} (closes : Nat → Moment W → Prop) (w : Nat) (past : List (Moment W))
    (h : Handle) : Prop :=
  Lasts (Moment.Enters w h) (fun m => ((∃ k, m.Enters w k) ∨ closes w m) ∨ m.Commits h) past

namespace Core

section Pointers

variable {W : Type} {c : Core W} {event : Option Event} {s : Serializer}

/-- How an admission moves the pointer to the last operation of a window. -/
def moveInWindow (c : Core W) (w : Nat) (a : Admission) : Option (Option Handle) :=
  if c.serializing? = some maxSerializeLevel then
    if a.offered.inst.opcode.isMemory = true then
      if a.op.window = some w then some (some a.handle) else none
    else if w ∈ a.offered.inst.dsts ∧ c.serializer.nextWindow a.offered ≠ none then some none
    else none
  else none

theorem lastInWindow_append {past : List (Moment W)} {pointer : Option Handle} {w : Nat}
    (hpointer : ∀ p, pointer = some p ↔ LastInWindow Moment.Closes w past p)
    (event : Option Event) (p : Handle) :
    pointerAfter (c.moveInWindow w) pointer event = some p ↔
      LastInWindow Moment.Closes w (past ++ Moment.of c event) p := by
  refine pointerAfter_eq_some (fun p event => ?_) (fun event => ?_) hpointer event p
  · cases event with
    | told | recovered | committed => simp [Moment.Enters]
    | admitted a =>
        by_cases hlevel : c.serializing? = some maxSerializeLevel <;>
          by_cases hmemory : a.offered.inst.opcode.isMemory = true <;>
            simp [Moment.Enters, moveInWindow, hlevel, hmemory]
  · cases event with
    | told | recovered | committed => simp [Moment.Enters, Moment.Closes]
    | admitted a =>
        by_cases hlevel : c.serializing? = some maxSerializeLevel <;>
          by_cases hmemory : a.offered.inst.opcode.isMemory = true <;>
            simp [Moment.Enters, Moment.Closes, Moment.Overwrites, moveInWindow, hlevel, hmemory]

/-- What the serializer knows of the admission before is what that one left open. -/
theorem ChainStep.open_eq {past : List (Moment W)} (h : ChainStep c event s)
    (hopen : openWindow past = ⟨c.serializer.lastPc, c.serializer.window⟩) :
    openWindow (past ++ Moment.of c event) = ⟨s.lastPc, s.window⟩ := by
  rw [openWindow, List.foldl_append, ← openWindow, hopen]
  cases h with
  | stays level budget hadmissions hcommits =>
      rcases Event.cases_of_quiet hadmissions hcommits with rfl | rfl | ⟨command, rfl⟩ <;> rfl
  | admitted a level budget =>
      by_cases hlevel : c.serializing? = some maxSerializeLevel
      · show (if c.serializing? = some maxSerializeLevel then _ else _) = _
        rw [if_pos hlevel, hlevel]
        rfl
      · obtain ⟨-, hwindow, hpc⟩ :=
          c.serializer.recording_below a.handle a.offered (serializing?_lt hlevel)
        show (if c.serializing? = some maxSerializeLevel then _ else _) = _
        rw [if_neg hlevel]
        dsimp only
        rw [hwindow, hpc]
  | committed n => rfl

theorem ChainStep.windowProducer_eq (h : ChainStep c event s) {w : Nat} (hpos : 0 < w)
    (hlt : w < registerCount)
    (hentered : ∀ a, event = some (.admitted a) → c.serializing? = some maxSerializeLevel →
      a.offered.inst.opcode.isMemory = true → a.op.window = c.serializer.nextWindow a.offered)
    (hcarried : ∀ n, event = some (.committed n) → c.serializer.windowProducer w = some n.handle →
      n.op.window = some w) :
    s.windowProducer w = pointerAfter (c.moveInWindow w) (c.serializer.windowProducer w) event := by
  cases h with
  | stays level budget hadmissions hcommits =>
      exact (pointerAfter_of_stays _ hadmissions hcommits).symm
  | admitted a level budget =>
      show (c.serializer.recording a.handle a.offered c.serializing?).windowProducer w =
        (c.moveInWindow w a).getD (c.serializer.windowProducer w)
      by_cases hlevel : c.serializing? = some maxSerializeLevel
      · have hentered := hentered a rfl hlevel
        rw [hlevel, Serializer.windowProducer_recording _ _ _ hpos hlt, moveInWindow, if_pos hlevel]
        by_cases hmemory : a.offered.inst.opcode.isMemory = true
        · rw [if_pos hmemory, if_pos hmemory, hentered hmemory]
          split <;> rfl
        · rw [if_neg hmemory, if_neg hmemory]
          split <;> rfl
      · obtain ⟨hwindows, -, -⟩ :=
          c.serializer.recording_below a.handle a.offered (serializing?_lt hlevel)
        rw [moveInWindow, if_neg hlevel, Serializer.windowProducer, hwindows]
        rfl
  | committed n =>
      show (c.serializer.windows.release n.op.window.toList n.handle).producer w =
        (c.serializer.windows.producer w).filter (· != n.handle)
      have hcarried := hcarried n rfl
      rw [Serializer.windowProducer] at hcarried
      rw [AliasTable.producer_release]
      cases hproducer : c.serializer.windows.producer w with
      | none => simp
      | some k =>
          by_cases hk : k = n.handle
          · subst hk
            simp [hcarried hproducer, Option.filter_some]
          · simp [hk, Option.filter_some]

end Pointers

/-! ## Runs -/

variable {W : Type} [Surroundings W] {start c d : Core (Recorded W)}
  {past : List (Moment (Recorded W))}

/-- The serializer knows what the admission before left open, and the last operation of
every window. -/
structure Windowed (past : List (Moment (Recorded W))) (c : Core (Recorded W)) : Prop where
  opened : openWindow past = ⟨c.serializer.lastPc, c.serializer.window⟩
  last : ∀ w, 0 < w → w < registerCount → ∀ p, c.serializer.windowProducer w = some p ↔
    LastInWindow Moment.Closes w past p

theorem Windowed.step {event : Option Event} (h : Windowed past c) (hstep : Step c event d)
    (hc : c.Consistent) (hanchored : c.Anchored)
    (hfresh : ∀ a ∈ Event.admissions event.toList,
      a.offered.edges.order = none ∧ a.offered.window = none) :
    Windowed (past ++ Moment.of c event) d := by
  have hchain := chain_step hc.pool hstep fun a ha => (hfresh a ha).1
  refine ⟨hchain.open_eq h.opened, fun w hpos hlt => ?_⟩
  rw [hchain.windowProducer_eq hpos hlt]
  · exact lastInWindow_append (h.last w hpos hlt) event
  · rintro a rfl hlevel hmemory
    obtain ⟨hunordered, hwindow⟩ := hfresh a List.mem_cons_self
    exact window_of_admitted hc.pool hstep hunordered hwindow hlevel hmemory
  · rintro n rfl hproducer
    -- What is recorded in a window carries it.
    obtain ⟨-, op, hop, -, hown⟩ := hanchored n.handle (some w) hproducer
    obtain rfl : n.op = op := Option.some.inj ((get?_of_committed hstep).symm.trans hop)
    exact hown.resolve_left nofun

theorem Windowed.of_trail {config : CoreConfig} {hart : Nat} {world : W}
    (hstart : create config hart ⟨world, []⟩ = .ok start) (htrail : Trail start past c)
    (hfresh : ∀ a ∈ Event.admissions (past.map Moment.event),
      a.offered.edges.order = none ∧ a.offered.window = none) : Windowed past c := by
  have hempty : Windowed [] start := by
    obtain ⟨-, rfl⟩ := create_eq hstart
    refine ⟨rfl, fun w _ _ p => ⟨fun hp => ?_, fun h => absurd h not_lasts_nil⟩⟩
    cases (AliasTable.producer_empty w).symm.trans hp
  refine (htrail.keeps_of_admissions (P := fun past e => e.Consistent ∧ e.Anchored ∧
    Windowed past e) ?_ hfresh ⟨.of_create hstart, anchored_create hstart, hempty⟩).2.2
  rintro past e event e' - ⟨he, hanchored, hwindowed⟩ hstep hnew
  exact ⟨he.step hstep, hanchored.step he hstep fun a ha => (hnew a ha).1,
    hwindowed.step hstep he hanchored hnew⟩

/-- **In a window a memory operation waits for the last one before it.** Whatever surrounds
a core and whatever is done to it, if operations are offered without an ordering edge and
without a window, then the run can be retraced, and however it is retraced: an admission to
which the windows apply belongs to the window of its first source, or without one to the
window of the admission before it, provided that both share the program counter. A memory
operation is recorded in its window, and is ordered after the last memory operation
recorded there, if that one has not committed and no operation that is no memory operation,
belongs to a window and overwrites the register of this one has come in between. The window
and the edge are those of what the new handle names once the operation is admitted. -/
theorem ordered_after_last_in_window {config : CoreConfig} {hart : Nat} {world : W}
    (hstart : create config hart ⟨world, []⟩ = .ok start) (commands : List Command)
    (hfresh : ∀ a ∈ Event.admissions (start.history commands),
      a.offered.edges.order = none ∧ a.offered.window = none) :
    (∃ moments, Retraces start commands moments) ∧
      ∀ moments, Retraces start commands moments →
        ∀ earlier c a later, moments = earlier ++ ⟨c, .admitted a⟩ :: later →
          c.serializing? = some maxSerializeLevel →
          (∃ d, Step c (some (.admitted a)) d ∧ d.op? a.handle = some a.op) ∧
          c.serializer.nextWindow a.offered = a.offered.windowAfter (openWindow earlier) ∧
          (∀ w, a.offered.inst.src1 = some w → c.serializer.nextWindow a.offered = some w) ∧
          (a.offered.inst.opcode.isMemory = true →
            a.op.window = c.serializer.nextWindow a.offered ∧
            (a.op.window = none → a.op.edges.order = none) ∧
            ∀ w, a.op.window = some w → 0 < w → w < registerCount → ∀ p,
              a.op.edges.order = some p ↔ LastInWindow Moment.Closes w earlier p) := by
  refine ⟨exists_retraces start commands, ?_⟩
  intro moments hretraces earlier c a later hsplit hlevel
  obtain ⟨hbefore, ⟨d, hstep⟩, ⟨hunordered, hfree⟩, hearlier⟩ := hretraces.admitted hfresh hsplit
  have ho := Sequenced.of_steps hstart hbefore.steps fun b hb => (hearlier b hb).1
  have hwindowed := Windowed.of_trail hstart hbefore hearlier
  refine ⟨⟨d, hstep, ho.consistent.get?_of_admitted hstep⟩, ?_, fun w hw => ?_,
    fun hmemory => ?_⟩
  · rw [hwindowed.opened]
    rfl
  · rw [Serializer.nextWindow, hw]
  · have hown := window_of_admitted ho.consistent.pool hstep hunordered hfree hlevel hmemory
    have hmin := (Serializer.inForce?_eq_some.1 hlevel).2.2
    have hnamed : c.serializer.candidate? a.offered =
        a.op.window.bind c.serializer.windowProducer := by
      rw [hown]
      simp only [Serializer.candidate?, hmin]
      rfl
    have horder : ∀ p, a.op.edges.order = some p ↔
        a.op.window.bind c.serializer.windowProducer = some p := by
      intro p
      rw [ho.order_eq_some hstep hunordered hlevel hmemory, hnamed]
      exact and_iff_left fun hlow => absurd hlow (Nat.lt_irrefl _)
    refine ⟨hown, fun hnone => ?_, fun w hw hpos hlt p => ?_⟩
    · rw [Option.eq_none_iff_forall_ne_some]
      intro p hp
      rw [horder, hnone] at hp
      cases hp
    · rw [horder, hw, Option.bind_some, hwindowed.last w hpos hlt]

/-- Two loads whose address comes from register 5, and between them an operation that
overwrites another register: the second load is ordered after the first. -/
theorem second_load_ordered_after_first_in_window :
    let op (id : Nat) (pc : UInt64) (opcode : Opcode) (src1 dst1 : Option Nat) : MicroOp :=
      { id, pc, inst := { opcode, src1, dst1 } }
    let config : CoreConfig := { maxRobSize := 6 }
    let start : Core (Recorded Obliging) := .initial config 0 ⟨{}, []⟩
    let before : List Command :=
      [.arm 9, .add (op 1 4 .load (some 5) (some 6)), .add (op 2 8 .alu (some 6) (some 7))]
    let c := (start.run before).2
    let commands : List Command := before ++ [.add (op 3 12 .load (some 5) (some 7))]
    create config 0 ⟨{}, []⟩ = .ok start ∧
      (∀ a ∈ Event.admissions (start.history commands),
        a.offered.edges.order = none ∧ a.offered.window = none) ∧
      Retraces start commands (start.retrace commands) ∧
      c.serializing? = some maxSerializeLevel ∧
      ∃ a, start.retrace commands = start.retrace before ++ [⟨c, .admitted a⟩] ∧
        (∃ d, Step c (some (.admitted a)) d ∧ d.op? a.handle = some a.op) ∧
        a.offered.inst.opcode.isMemory = true ∧ a.op.window = some 5 ∧
        a.op.edges.order = some ⟨0, 1⟩ ∧
        LastInWindow Moment.Closes 5 (start.retrace before) ⟨0, 1⟩ := by
  intro op config start before c commands
  have hstart : create config 0 ⟨({} : Obliging), []⟩ = .ok start := rfl
  have hfresh : ∀ a ∈ Event.admissions (start.history commands),
      a.offered.edges.order = none ∧ a.offered.window = none := by decide +kernel
  have hretraces : Retraces start commands (start.retrace commands) :=
    retraces_retrace start (by decide)
  have hlevel : (start.run before).2.serializing? = some maxSerializeLevel := by decide +kernel
  obtain ⟨a, ⟨hmemory, hwindow, horder⟩, hsplit⟩ :=
    retrace_add start (op 3 12 .load (some 5) (some 7)) before []
      (fun a => a.offered.inst.opcode.isMemory = true ∧ a.op.window = some 5 ∧
        a.op.edges.order = some ⟨0, 1⟩) (by decide +kernel)
  obtain ⟨hnamed, -, -, hrecorded⟩ :=
    (ordered_after_last_in_window hstart commands hfresh).2 _ hretraces
      (start.retrace before) (start.run before).2 a [] hsplit hlevel
  have hlast := (hrecorded hmemory).2.2 5 hwindow (by decide) (by decide) ⟨0, 1⟩
  exact ⟨hstart, hfresh, hretraces, hlevel, a, hsplit, hnamed, hmemory, hwindow, horder,
    hlast.1 horder⟩

/-- A load whose address comes from register 5, an operation without a source that
overwrites register 5, and another load from there. The operation in between belongs to no
window, so the second load is ordered after the first although register 5 is another. -/
theorem overwritten_window_stays_open :
    let op (id : Nat) (pc : UInt64) (opcode : Opcode) (src1 dst1 : Option Nat) : MicroOp :=
      { id, pc, inst := { opcode, src1, dst1 } }
    let config : CoreConfig := { maxRobSize := 6 }
    let start : Core (Recorded Obliging) := .initial config 0 ⟨{}, []⟩
    let first : List Command := [.arm 9, .add (op 1 4 .load (some 5) (some 6))]
    let before : List Command := first ++ [.add (op 2 8 .alu none (some 5))]
    let commands : List Command := before ++ [.add (op 3 12 .load (some 5) (some 7))]
    create config 0 ⟨{}, []⟩ = .ok start ∧
      (∀ a ∈ Event.admissions (start.history commands),
        a.offered.edges.order = none ∧ a.offered.window = none) ∧
      Retraces start commands (start.retrace commands) ∧
      ¬ ∀ earlier c a later, start.retrace commands = earlier ++ ⟨c, .admitted a⟩ :: later →
        c.serializing? = some maxSerializeLevel → a.offered.inst.opcode.isMemory = true →
        ∀ w, a.offered.inst.src1 = some w → 0 < w → w < registerCount → ∀ p,
          a.op.edges.order = some p ↔ LastInWindow Moment.Overwrites w earlier p := by
  intro op config start first before commands
  have hretraces : Retraces start commands (start.retrace commands) :=
    retraces_retrace start (by decide)
  refine ⟨rfl, by decide +kernel, hretraces, fun hlaw => ?_⟩
  have hlevel : (start.run first).2.serializing? = some maxSerializeLevel := by decide +kernel
  obtain ⟨b, ⟨hother, hwrites⟩, hbefore⟩ :=
    retrace_add start (op 2 8 .alu none (some 5)) first []
      (fun b => b.offered.inst.opcode.isMemory = false ∧ 5 ∈ b.offered.inst.dsts)
      (by decide +kernel)
  obtain ⟨a, ⟨hmemory, hsrc, horder⟩, hsplit⟩ :=
    retrace_add start (op 3 12 .load (some 5) (some 7)) before []
      (fun a => a.offered.inst.opcode.isMemory = true ∧ a.offered.inst.src1 = some 5 ∧
        a.op.edges.order = some ⟨0, 1⟩) (by decide +kernel)
  have hlast : LastInWindow Moment.Overwrites 5 (start.retrace before) ⟨0, 1⟩ :=
    (hlaw (start.retrace before) (start.run before).2 a [] hsplit (by decide +kernel) hmemory 5
      hsrc (by decide) (by decide) ⟨0, 1⟩).1 horder
  -- The last thing before the second load ended it.
  have hover : Moment.Overwrites 5 ⟨(start.run first).2, .admitted b⟩ :=
    ⟨b, rfl, hlevel, hother, hwrites⟩
  rw [LastInWindow, hbefore] at hlast
  rcases (lasts_append _ _).1 hlast with ⟨b', heq, -, hmemory', -⟩ | ⟨-, hopen⟩
  · cases heq
    rw [hother] at hmemory'
    cases hmemory'
  · exact hopen (.inl (.inr hover))

end Core

end OutOfOrder
