import OutOfOrder.Proofs.Core.Progress
import OutOfOrder.Proofs.Core.Waiting

/-!
# What has been issued, and what serialization still orders after it

An operation that has been issued needs no further successors: it is on its way,
and whoever is told to wait for it now may have missed the wakeup. The serializer
asks for it when it chains an operation at the levels 0 and 1. In a register
window it only asks whether the operation before is still there.

Both are read off one equation. `Serializer.predecessor?` is the operation that
the level in force would order an admission after, and `Consistent.order_of_admitted`
says that the edge is that operation if it passes the question of the level.

Whether an operation has been issued is then a question about the history, and
`Event.issued` answers it: a report says so, of the operation that the handle
named last. As the stage of an operation in flight is what was reported, so is
whether it has been issued (`Event.issued_eq`).
-/

namespace OutOfOrder

/-- A report that the operation which `h` names is issued, or further than that. -/
def Command.issues (h : Handle) : Command → Bool
  | .issued k | .executing k | .executed k => k == h
  | _ => false

namespace Event

/-- Whether the operation that `h` names counts as issued after an event, if `before`
says whether it did before. With an admission the handle names a new operation. -/
def issuedAfter (h : Handle) (before : Bool) : Event → Bool
  | .admitted a => if a.handle = h then false else before
  | .told command => before || command.issues h
  | .recovered | .committed _ => before

/-- Whether the operation that `h` names was reported issued, executing or executed
since it was admitted. -/
def issued (past : List Event) (h : Handle) : Bool := past.foldl (issuedAfter h) false

/-- A report counts as one of issue if the stage that it reports is at least that. -/
theorem issues_eq (before : Stage) (command : Command) (h : Handle) :
    (decide (Stage.issued.rank ≤ before.rank) || command.issues h) =
      decide (Stage.issued.rank ≤ (stageAfter h before (.told command)).rank) := by
  have hlater : ∀ (k : Handle) (s : Stage), Stage.issued.rank ≤ s.rank →
      (decide (Stage.issued.rank ≤ before.rank) || k == h) =
        decide (Stage.issued.rank ≤ (if k = h then before.later s else before).rank) := by
    intro k s hs
    by_cases hk : k = h
    · rw [if_pos hk, Stage.rank_later, hk, beq_self_eq_true, Bool.or_true]
      exact (decide_eq_true (by omega)).symm
    · rw [if_neg hk, beq_eq_false_iff_ne.2 hk, Bool.or_false]
  cases command with
  | activate | deactivate | advance | add | performed | replay | arm => exact Bool.or_false _
  | issued k => exact hlater k .issued (by decide)
  | executing k => exact hlater k .executing (by decide)
  | executed k => exact hlater k .executed (by decide)

/-- So it is as far as issued by the stage that the reports make. -/
theorem issued_eq (past : List Event) (h : Handle) :
    issued past h = decide (Stage.issued.rank ≤ (stage past h).rank) := by
  have hafter : ∀ (before : Stage) (event : Event),
      issuedAfter h (decide (Stage.issued.rank ≤ before.rank)) event =
        decide (Stage.issued.rank ≤ (stageAfter h before event).rank) := by
    intro before event
    cases event with
    | admitted a =>
        rw [issuedAfter, stageAfter]
        split <;> rfl
    | told command => exact issues_eq before command h
    | recovered | committed => rfl
  have hfold : ∀ before : Stage,
      past.foldl (issuedAfter h) (decide (Stage.issued.rank ≤ before.rank)) =
        decide (Stage.issued.rank ≤ (past.foldl (stageAfter h) before).rank) := by
    induction past with
    | nil => exact fun _ => rfl
    | cons event past ih =>
        intro before
        rw [List.foldl_cons, List.foldl_cons, hafter]
        exact ih _
  exact hfold .fetched

end Event

/-! ## The edge of an admission -/

/-- Whether the serializer lets an operation wait for the one that `h` names: it has to
be live, and below level 2 it must not have been issued. -/
def Pool.mayPrecede (p : Pool) (level : Nat) (h : Handle) : Bool :=
  (p.get? h).any fun op => decide (maxSerializeLevel ≤ level) || !op.isIssued

namespace Serializer

/-- The operation that the level in force would order a memory operation after. -/
def candidate? (s : Serializer) (op : MicroOp) : Option Handle :=
  match min s.level maxSerializeLevel with
  | 0 => s.lastMemory
  | 1 => s.lastStore
  | _ => (s.nextWindow op).bind s.windowProducer

/-- The operation that an admission would be ordered after: none if nothing is
serialized, or if it is no memory operation. -/
def predecessor? (s : Serializer) (op : MicroOp) (recovering : Bool) : Option Handle :=
  if s.budget == 0 || recovering || !op.inst.opcode.isMemory then none else s.candidate? op

variable {p : Pool} {h : Handle} {op : MicroOp} {level : Nat}

/-- What no policy touches stays without an edge. -/
theorem order_untouched (hop : p.get? h = some op) (hunordered : op.edges.order = none) :
    (p.get? h).map (·.edges.order) = some none := by
  rw [hop, Option.map_some, hunordered]

/-- A chained operation waits for the one before it in the chain unless that one has
been issued. -/
theorem order_chain (hop : p.get? h = some op) (hunordered : op.edges.order = none)
    (prev : Option Handle) (hlevel : level < maxSerializeLevel) :
    ((chain p prev h).get? h).map (·.edges.order) = some (prev.filter (p.mayPrecede level)) := by
  have hsame := order_untouched hop hunordered
  have hlow : decide (maxSerializeLevel ≤ level) = false := decide_eq_false (by omega)
  unfold chain
  split
  · exact hsame
  · next prev =>
      split
      · next hgone => rw [hsame, Option.filter_some, Pool.mayPrecede, hgone]; rfl
      · next before hbefore =>
          rw [Option.filter_some, Pool.mayPrecede, hbefore, Option.any_some, hlow, Bool.false_or]
          split
          · next hissued => rw [hsame, hissued]; rfl
          · next hopen =>
              have hid : ∀ op : MicroOp, { op with edges.order := some prev }.id = op.id :=
                fun _ => rfl
              rw [Pool.get?_modify_self hid, hop, Bool.eq_false_iff.2 hopen]
              rfl

/-- In a window an operation waits for the one before it, issued or not. -/
theorem order_chainInWindow (hop : p.get? h = some op) (hunordered : op.edges.order = none)
    (window : Nat) (prev : Option Handle) (hlevel : maxSerializeLevel ≤ level) :
    ((chainInWindow p window prev h).get? h).map (·.edges.order) =
      some (prev.filter (p.mayPrecede level)) := by
  let ordered (op : MicroOp) : MicroOp := op.reordered
    (if op.isUnordered then prev.filter fun k => (p.get? k).isSome else op.edges.order)
    (some window)
  have hid : ∀ op : MicroOp, (ordered op).id = op.id := fun _ => rfl
  have hfree : op.isUnordered = true := by rw [MicroOp.isUnordered, hunordered]; rfl
  have hlive : (fun k => (p.get? k).isSome) = p.mayPrecede level := by
    funext k
    rw [Pool.mayPrecede, decide_eq_true hlevel]
    cases p.get? k <;> rfl
  show ((p.modify h ordered).get? h).map (·.edges.order) = _
  rw [Pool.get?_modify_self hid, hop, Option.map_some, Option.map_some, ← hlive]
  exact congrArg some (if_pos hfree)

theorem order_admitFull (s : Serializer) (hop : p.get? h = some op)
    (hunordered : op.edges.order = none) (hlevel : level < maxSerializeLevel) :
    ((s.admitFull p h op).2.get? h).map (·.edges.order) =
      some ((if op.inst.opcode.isMemory then s.lastMemory else none).filter
        (p.mayPrecede level)) := by
  have hfree : op.isUnordered = true := by rw [MicroOp.isUnordered, hunordered]; rfl
  rw [admitFull, hfree, Bool.and_true]
  cases op.inst.opcode.isMemory with
  | false => exact order_untouched hop hunordered
  | true => exact order_chain hop hunordered s.lastMemory hlevel

theorem order_admitStores (s : Serializer) (hop : p.get? h = some op)
    (hunordered : op.edges.order = none) (hlevel : level < maxSerializeLevel) :
    ((s.admitStores p h op).2.get? h).map (·.edges.order) =
      some ((if op.inst.opcode.isMemory then s.lastStore else none).filter
        (p.mayPrecede level)) := by
  have hfree : op.isUnordered = true := by rw [MicroOp.isUnordered, hunordered]; rfl
  rw [admitStores, hfree, Bool.and_true, Bool.and_true, Opcode.isMemory]
  cases op.inst.opcode.isLoad with
  | true => exact order_chain hop hunordered s.lastStore hlevel
  | false =>
      cases op.inst.opcode.isStore with
      | true => exact order_chain hop hunordered s.lastStore hlevel
      | false => exact order_untouched hop hunordered

theorem order_admitWindow (s : Serializer) (hop : p.get? h = some op)
    (hunordered : op.edges.order = none) (hlevel : maxSerializeLevel ≤ level) :
    ((s.admitWindow p h op).2.get? h).map (·.edges.order) =
      some ((if op.inst.opcode.isMemory then (s.nextWindow op).bind s.windowProducer
        else none).filter (p.mayPrecede level)) := by
  rw [admitWindow]
  dsimp only
  cases s.nextWindow op with
  | none => cases op.inst.opcode.isMemory <;> exact order_untouched hop hunordered
  | some window =>
      cases op.inst.opcode.isMemory with
      | false => exact order_untouched hop hunordered
      | true => exact order_chainInWindow hop hunordered window _ hlevel

/-- The edge that an admission gets is the predecessor that the level names, if that one
may precede. -/
theorem order_apply (s : Serializer) (hop : p.get? h = some op)
    (hunordered : op.edges.order = none) (recovering : Bool) :
    ((s.apply p h recovering).2.get? h).map (·.edges.order) =
      some ((s.predecessor? op recovering).filter (p.mayPrecede s.level)) := by
  have hmemory : ∀ prev : Option Handle,
      (if (false || !op.inst.opcode.isMemory) then none else prev) =
        if op.inst.opcode.isMemory then prev else none := by
    intro prev
    cases op.inst.opcode.isMemory <;> rfl
  rw [apply, predecessor?]
  dsimp only
  cases s.budget == 0 || recovering with
  | true => exact order_untouched hop hunordered
  | false =>
      rw [hmemory, hop, candidate?]
      dsimp only
      -- The charged serializer differs from `s` in its level and budget only.
      cases hlevel : min s.level maxSerializeLevel with
      | zero =>
          have hlow : s.level < maxSerializeLevel := by rw [maxSerializeLevel] at *; omega
          exact order_admitFull _ hop hunordered hlow
      | succ below =>
          cases below with
          | zero =>
              have hlow : s.level < maxSerializeLevel := by rw [maxSerializeLevel] at *; omega
              exact order_admitStores _ hop hunordered hlow
          | succ n =>
              have hhigh : maxSerializeLevel ≤ s.level := by rw [maxSerializeLevel] at *; omega
              exact order_admitWindow _ hop hunordered hhigh

/-- The serializer names only what it has recorded. -/
theorem records_of_predecessor? {s : Serializer} {recovering : Bool} {k : Handle}
    (hk : s.predecessor? op recovering = some k) : ∃ w, s.Records k w := by
  rw [predecessor?] at hk
  split at hk
  · cases hk
  · rw [candidate?] at hk
    split at hk
    · exact ⟨none, .inl hk⟩
    · exact ⟨none, .inr hk⟩
    · obtain ⟨window, -, hwindow⟩ := Option.bind_eq_some_iff.1 hk
      exact ⟨some window, hwindow⟩

end Serializer

namespace Core

variable {W : Type}

section Admission

variable [Surroundings W] {c d : Core W}

theorem order_admitOp (hp : c.pool.WellFormed) {op : MicroOp}
    (hunordered : op.edges.order = none) :
    (c.admitOp op).1.op.edges.order =
      (c.serializer.predecessor? op c.recovery.recovering).filter
        ((c.pool.insert (c.stamp op)).2.mayPrecede c.serializer.level) := by
  obtain ⟨entered, hentered, horder⟩ := Option.map_eq_some_iff.1 <|
    Serializer.order_apply c.serializer (Pool.get?_insert_self hp (c.stamp op)) hunordered
      c.recovery.recovering
  rw [op_admitOp_of_entered hentered]
  exact horder

/-- What the serializer has recorded is in flight, and there the new operation is not. -/
theorem Consistent.order_of_admitted {a : Admission} (hc : c.Consistent) (hanchored : c.Anchored)
    (hstep : Step c (some (.admitted a)) d) (hunordered : a.offered.edges.order = none) :
    a.op.edges.order =
      (c.serializer.predecessor? a.offered c.recovery.recovering).filter
        (c.pool.mayPrecede c.serializer.level) := by
  cases hstep with
  | @accept op world queue hroom hanswer hqueue =>
      have hop : op.edges.order = none := hunordered
      refine (order_admitOp (c := { c with world }) hc.pool hop).trans ?_
      show (c.serializer.predecessor? op c.recovery.recovering).filter _ =
        (c.serializer.predecessor? op c.recovery.recovering).filter _
      cases hprev : c.serializer.predecessor? op c.recovery.recovering with
      | none => rfl
      | some k =>
          obtain ⟨w, hw⟩ := Serializer.records_of_predecessor? hprev
          have hnew : k ≠ (({ c with world } : Core W).admitOp op).1.handle := by
            intro heq
            have hold := (hanchored k w hw).1
            rw [heq] at hold
            exact hc.not_mem_of_admitted (.accept hroom hanswer hqueue) hold
          have hsame : (c.pool.insert (stamp { c with world } op)).2.get? k = c.pool.get? k :=
            Pool.get?_insert_of_ne hc.pool hnew
          rw [Option.filter_some, Option.filter_some, Pool.mayPrecede, Pool.mayPrecede, ← hsame]

end Admission

/-! ## Runs -/

variable [Surroundings W] {c : Core (Recorded W)}

/-- Every operation in flight is issued exactly if the history says so. -/
def IssuedAsTold (past : List Event) (c : Core (Recorded W)) : Prop :=
  ∀ h ∈ c.inFlight, (c.op? h).map (·.isIssued) = some (Event.issued past h)

omit [Surroundings W] in
theorem StagesAsTold.issued {past : List Event} (ht : StagesAsTold past c) :
    IssuedAsTold past c := by
  intro h hmem
  obtain ⟨op, hop, hstage⟩ := Option.map_eq_some_iff.1 (ht h hmem)
  rw [hop, Option.map_some, MicroOp.isIssued, hstage, Event.issued_eq]

/-- What an admission without an edge meets: the serializer names what is in flight, and
what is in flight is issued as told. -/
structure Sequenced (past : List Event) (c : Core (Recorded W)) : Prop where
  consistent : c.Consistent
  anchored : c.Anchored
  told : IssuedAsTold past c

theorem Sequenced.of_steps {config : CoreConfig} {hart : Nat} {world : W}
    {start : Core (Recorded W)} {past : List Event}
    (hstart : create config hart ⟨world, []⟩ = .ok start) (hsteps : Steps start past c)
    (hfresh : ∀ a ∈ Event.admissions past, a.offered.edges.order = none) : Sequenced past c := by
  have hanchored : c.Consistent ∧ c.Anchored :=
    hsteps.keeps_of_admissions (P := fun _ e => e.Consistent ∧ e.Anchored)
      (fun hpast hstep hnew => ⟨hpast.1.step hstep, hpast.2.step hpast.1 hstep hnew⟩) hfresh
      ⟨.of_create hstart, anchored_create hstart⟩
  exact ⟨hanchored.1, hanchored.2, (StagesAsTold.of_steps hstart hsteps).issued⟩

omit [Surroundings W] in
theorem Sequenced.mayPrecede_eq {past : List Event} (ho : Sequenced past c) {level : Nat}
    {h : Handle} (hmem : h ∈ c.inFlight) :
    c.pool.mayPrecede level h = (decide (maxSerializeLevel ≤ level) || !Event.issued past h) := by
  have htold := ho.told h hmem
  rw [op?, Option.map_eq_some_iff] at htold
  obtain ⟨op, hop, hissued⟩ := htold
  rw [Pool.mayPrecede, hop, Option.any_some, hissued]

/-- **Nothing is ordered after an issued operation, but in a window.** Whatever surrounds
a core and whatever is done to it, if operations are offered without an ordering edge,
then the edge that an admission gets names an operation in flight, which below level 2
has not been reported issued, executing or executed since it was admitted. At level 2 it
is the last memory operation of the window, reported or not. The edge is that of the
operation that the new handle names. -/
theorem ordered_after_unissued_or_in_window {config : CoreConfig} {hart : Nat} {world : W}
    {start : Core (Recorded W)} (hstart : create config hart ⟨world, []⟩ = .ok start)
    (commands : List Command)
    (hfresh : ∀ a ∈ Event.admissions (start.history commands), a.offered.edges.order = none)
    (earlier : List Event) (a : Admission) (later : List Event)
    (hpast : start.history commands = earlier ++ .admitted a :: later) :
    ∃ c d, Steps start earlier c ∧ Step c (some (.admitted a)) d ∧
      Steps d later (start.run commands).2 ∧ d.op? a.handle = some a.op ∧
      (∀ p, a.op.edges.order = some p → p ∈ c.retiring.toList ++ c.rob.toList ∧
        (c.op? p).map (·.isIssued) = some (Event.issued earlier p) ∧
        (c.serializer.level < maxSerializeLevel → Event.issued earlier p = false)) ∧
      a.op.edges.order =
        (c.serializer.predecessor? a.offered c.recovery.recovering).filter fun p =>
          decide (maxSerializeLevel ≤ c.serializer.level) || !Event.issued earlier p := by
  obtain ⟨c, d, hbefore, hstep, hafter⟩ := (steps_run start commands).split hpast
  rw [hpast, Event.admissions_append] at hfresh
  have ho := Sequenced.of_steps hstart hbefore fun b hb => hfresh b (List.mem_append_left _ hb)
  have horder := ho.consistent.order_of_admitted ho.anchored hstep
    (hfresh a (List.mem_append_right _ List.mem_cons_self))
  have hmem : ∀ p, c.serializer.predecessor? a.offered c.recovery.recovering = some p →
      p ∈ c.inFlight := by
    intro p hp
    obtain ⟨w, hw⟩ := Serializer.records_of_predecessor? hp
    exact (ho.anchored p w hw).1
  refine ⟨c, d, hbefore, hstep, hafter, ho.consistent.get?_of_admitted hstep, fun p hp => ?_, ?_⟩
  · rw [horder, Option.filter_eq_some_iff] at hp
    obtain ⟨hp, hmay⟩ := hp
    rw [ho.mayPrecede_eq (hmem p hp)] at hmay
    refine ⟨hmem p hp, ho.told p (hmem p hp), fun hlevel => ?_⟩
    rwa [decide_eq_false (Nat.not_le.2 hlevel), Bool.false_or, Bool.not_eq_true'] at hmay
  · rw [horder]
    cases hp : c.serializer.predecessor? a.offered c.recovery.recovering with
    | none => rfl
    | some p =>
        rw [Option.filter_some, Option.filter_some, ho.mayPrecede_eq (hmem p hp)]

/-- Three loads at level 0, of which the first is issued before the second comes: the
second waits for none, and the third for the second. -/
theorem third_load_ordered_after_second :
    let load : Nat → MicroOp := fun id =>
      { id, pc := 0, inst := { opcode := .load, src1 := some 5, dst1 := some 6 } }
    let config : CoreConfig := { maxRobSize := 6, serializeLevel := 0 }
    let start : Core (Recorded Obliging) := .initial config 0 ⟨{}, []⟩
    let commands : List Command :=
      [.arm 9, .add (load 1), .issued ⟨0, 1⟩, .add (load 2), .add (load 3)]
    let past := start.history commands
    let third := ((Event.admissions past)[2]?).getD default
    create config 0 ⟨{}, []⟩ = .ok start ∧
      (∀ a ∈ Event.admissions past, a.offered.edges.order = none) ∧
      past = past.take 4 ++ [.admitted third] ∧
      (Event.admissions past).map (·.op.edges.order) = [none, none, some ⟨1, 2⟩] ∧
      ∃ c d, Steps start (past.take 4) c ∧ Step c (some (.admitted third)) d ∧
        d.op? third.handle = some third.op ∧ (c.op? ⟨1, 2⟩).map (·.isIssued) = some false := by
  intro load config start commands past third
  have hstart : create config 0 ⟨({} : Obliging), []⟩ = .ok start := rfl
  have hfresh : ∀ a ∈ Event.admissions past, a.offered.edges.order = none := by decide +kernel
  have hpast : past = past.take 4 ++ [.admitted third] := by decide +kernel
  have horder : third.op.edges.order = some ⟨1, 2⟩ := by decide +kernel
  obtain ⟨c, d, hbefore, hstep, -, hnamed, hedge, -⟩ :=
    ordered_after_unissued_or_in_window hstart commands hfresh _ third [] hpast
  have hissued := (hedge _ horder).2.1
  have hopen : Event.issued (past.take 4) ⟨1, 2⟩ = false := by decide +kernel
  rw [hopen] at hissued
  exact ⟨hstart, hfresh, hpast, by decide +kernel, c, d, hbefore, hstep, hnamed, hissued⟩

/-- Two loads of one window at level 2, of which the first is issued before the second
comes: the second is ordered after it all the same. -/
theorem second_load_ordered_after_issued_first :
    let load : Nat → MicroOp := fun id =>
      { id, pc := 0, inst := { opcode := .load, src1 := some 5, dst1 := some 6 } }
    let config : CoreConfig := { maxRobSize := 6, serializeLevel := 2 }
    let start : Core (Recorded Obliging) := .initial config 0 ⟨{}, []⟩
    let commands : List Command := [.arm 9, .add (load 1), .issued ⟨0, 1⟩, .add (load 2)]
    let past := start.history commands
    create config 0 ⟨{}, []⟩ = .ok start ∧
      (∀ a ∈ Event.admissions past, a.offered.edges.order = none) ∧
      ¬ ∀ earlier a later p, past = earlier ++ .admitted a :: later →
        a.op.edges.order = some p → Event.issued earlier p = false := by
  intro load config start commands past
  refine ⟨rfl, by decide +kernel, fun hunissued => ?_⟩
  have hissued : Event.issued (past.take 3) ⟨0, 1⟩ = true := by decide +kernel
  rw [hunissued (past.take 3) (((Event.admissions past)[1]?).getD default) [] ⟨0, 1⟩
    (by decide +kernel) (by decide +kernel)] at hissued
  cases hissued

end Core

end OutOfOrder
