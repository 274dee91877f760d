import OutOfOrder.Proofs.Core.CommitOrder
import OutOfOrder.Proofs.Core.Dependencies
import OutOfOrder.Proofs.Core.Serialization
import OutOfOrder.Proofs.Core.Settled
import OutOfOrder.Surroundings.Obliging

/-!
# Nothing waits in a circle

An operation waits for at most three others, and what it waits for is decided
when it is admitted: the alias table names the writers of its sources, and the
serializer the memory operation before it. Both only ever name what is in
flight, the alias table because writers are released when they commit, the
serializer because an operation carries the window that it was recorded in. So
an operation waits for older ones only.

An edge outlives the operation that it was made for. Once that one has committed
its slot may be given away, and then the handle can name a younger operation if
identifiers repeat. What waits for what is therefore read off the history, where
`WaitsFor` asks that neither side has committed since. Where identifiers are
distinct the handles alone say the same.
-/

namespace OutOfOrder

/-- The operations that are waited for. -/
def Edges.toList (e : Edges) : List Handle := e.src1.toList ++ e.src2.toList ++ e.order.toList

theorem Edges.mem_toList {e : Edges} {k : Handle} :
    k ∈ e.toList ↔ e.src1 = some k ∨ e.src2 = some k ∨ e.order = some k := by
  simp [toList]

/-- The admissions that have not committed, in order. -/
def Event.inFlight (past : List Event) : List Admission :=
  (admissions past).drop (commits past).length

/-- In a stretch of history, the operation that `h` names was admitted to wait for
the one that `k` named then, and neither of them has committed since. -/
def WaitsFor (past : List Event) (h k : Handle) : Prop :=
  ∃ earlier a later, past = earlier ++ .admitted a :: later ∧ a.handle = h ∧
    k ∈ a.op.edges.toList ∧ ∀ n ∈ Event.commits later, n.handle ≠ h ∧ n.handle ≠ k

/-- The last admission under the handle `h`. -/
def LastAdmitted (past : List Event) (h : Handle) (a : Admission) : Prop :=
  ∃ earlier later, past = earlier ++ .admitted a :: later ∧ a.handle = h ∧
    ∀ b ∈ Event.admissions later, b.handle ≠ h

theorem LastAdmitted.append {past : List Event} {h : Handle} {a : Admission}
    (ha : LastAdmitted past h a) {event : Option Event}
    (hevent : ∀ b, event = some (.admitted b) → b.handle ≠ h) :
    LastAdmitted (past ++ event.toList) h a := by
  obtain ⟨earlier, later, rfl, hhandle, hlast⟩ := ha
  refine ⟨earlier, later ++ event.toList, by simp, hhandle, fun b hb => ?_⟩
  rw [Event.admissions_append, List.mem_append] at hb
  exact hb.elim (hlast b) fun hb => hevent b (Event.eq_admitted_of_mem hb)

namespace Core

variable {W : Type}

/-! ## The serializer -/

/-- Whatever the serializer records is a memory operation in flight, which carries the
window that it is recorded in. -/
def Anchored (c : Core W) : Prop :=
  ∀ k w, c.serializer.Records k w → k ∈ c.inFlight ∧
    ∃ op, c.pool.get? k = some op ∧ op.inst.opcode.isMemory = true ∧ (w = none ∨ op.window = w)

variable [Surroundings W] {c d : Core (Recorded W)} {event : Option Event}

theorem Anchored.step (ha : c.Anchored) (hc : c.Consistent) (hstep : Step c event d)
    (hunordered : ∀ a ∈ Event.admissions event.toList, a.offered.edges.order = none) :
    d.Anchored := by
  intro k w hk
  obtain ⟨a, rfl, rfl, hmemory, hwindow⟩ | ⟨hbefore, hgone⟩ :=
    records_step hc.pool hstep hunordered hk
  · exact ⟨hc.mem_of_admitted hstep, a.op, hc.get?_of_admitted hstep, hmemory, hwindow⟩
  · obtain ⟨hmem, op, hop, hmemory, hwindow⟩ := ha k w hbefore
    have hstays : k ∈ d.inFlight := by
      refine (hc.mem_inFlight_step hstep hmem).resolve_right ?_
      rintro ⟨n, rfl, rfl⟩
      obtain ⟨hsome, hother⟩ := hgone n rfl rfl
      obtain rfl : n.op = op := Option.some.inj ((get?_of_committed hstep).symm.trans hop)
      exact hwindow.elim hsome fun hown => hother hown.symm
    have hsettled := hc.settled_step hstep hmem hstays
    rw [hop, Option.map_some, Option.map_eq_some_iff] at hsettled
    obtain ⟨op', hop', hsettled⟩ := hsettled
    have hinst : op'.inst = op.inst := congrArg (·.origin.inst) hsettled
    have hown : op'.window = op.window := congrArg MicroOp.Settled.window hsettled
    exact ⟨hstays, op', hop', by rw [hinst]; exact hmemory, by rw [hown]; exact hwindow⟩

/-! ## Edges -/

/-- What an operation is admitted to wait for is in flight. -/
theorem mem_inFlight_of_edge {a : Admission} {k : Handle} (hc : c.Consistent)
    (hproducers : c.ProducersWait) (hanchored : c.Anchored)
    (hstep : Step c (some (.admitted a)) d) (hfresh : a.offered.edges = {})
    (hk : k ∈ a.op.edges.toList) : k ∈ c.inFlight := by
  cases hstep with
  | @accept op world queue hroom hanswer hqueue =>
      have hop : op.edges = {} := hfresh
      obtain ⟨hsrc1, hsrc2⟩ := edges_admitOp (hc.of_world world) op
      have hwriter : ∀ src : Option Nat, src.bind c.producer = some k → k ∈ c.inFlight := by
        intro src hsrc
        obtain ⟨r, -, hr⟩ := Option.bind_eq_some_iff.1 hsrc
        exact (hproducers r k hr).2.2.1
      obtain hk | hk | hk := Edges.mem_toList.1 hk
      · exact hwriter _ (hsrc1.symm.trans hk)
      · rw [hsrc2] at hk
        split at hk
        · rw [hop] at hk
          cases hk
        · exact hwriter _ hk
      · have hunordered : op.edges.order = none := by rw [hop]
        have hserialized := serialized_admitOp (c := { c with world }) hc.pool hunordered
        obtain ⟨w, hw⟩ := hserialized.order k hk
        exact (hanchored k w hw).1

/-- An operation in the pool keeps the edges of the last admission under its handle. -/
theorem settled_past_step {past : List Event} (hc : c.Consistent) (hstep : Step c event d)
    (hpast : ∀ h op, c.pool.get? h = some op →
      ∃ a, LastAdmitted past h a ∧ op.settled = a.op.settled) :
    ∀ h op, d.pool.get? h = some op →
      ∃ a, LastAdmitted (past ++ event.toList) h a ∧ op.settled = a.op.settled := by
  intro h op hop
  obtain ⟨b, rfl, rfl, rfl⟩ | ⟨hnew, old, hold, hchanged⟩ :=
    (turnover_step hc.pool hstep).get?_cases hop
  · exact ⟨b, ⟨past, [], rfl, rfl, fun _ hmem => absurd hmem List.not_mem_nil⟩, rfl⟩
  · obtain ⟨a, ha, hsettled⟩ := hpast h old hold
    refine ⟨a, ha.append hnew, Eq.trans ?_ hsettled⟩
    obtain rfl | ⟨e, -, hchange⟩ := hchanged
    · rfl
    · exact hchange.settled_eq

/-! ## Runs -/

/-- What the edges, the alias table and the serializer name. -/
structure Linked (past : List Event) (c : Core (Recorded W)) : Prop where
  consistent : c.Consistent
  producers : c.ProducersWait
  anchored : c.Anchored
  settled : ∀ h op, c.pool.get? h = some op →
    ∃ a, LastAdmitted past h a ∧ op.settled = a.op.settled

omit [Surroundings W] in
theorem anchored_create {config : CoreConfig} {hart : Nat} {world : W}
    (hstart : create config hart ⟨world, []⟩ = .ok c) : c.Anchored := by
  obtain ⟨-, rfl⟩ := create_eq hstart
  intro k w hk
  cases w with
  | none => obtain hk | hk := hk <;> cases hk
  | some window =>
      have hk : AliasTable.empty.producer window = some k := hk
      rw [AliasTable.producer_empty] at hk
      cases hk

omit [Surroundings W] in
theorem Linked.of_create {config : CoreConfig} {hart : Nat} {world : W}
    (hstart : create config hart ⟨world, []⟩ = .ok c) : Linked [] c := by
  refine ⟨.of_create hstart, producersWait_create hstart, anchored_create hstart,
    fun h op hop => ?_⟩
  obtain ⟨-, rfl⟩ := create_eq hstart
  rw [initial, Pool.get?_withCapacity] at hop
  cases hop

theorem Linked.of_steps {config : CoreConfig} {hart : Nat} {world : W} {start : Core (Recorded W)}
    {past : List Event} (hstart : create config hart ⟨world, []⟩ = .ok start)
    (hsteps : Steps start past c)
    (hfresh : ∀ a ∈ Event.admissions past, a.offered.edges = {}) : Linked past c := by
  refine hsteps.keeps_of_admissions (P := Linked)
    (fun {past e event e'} hl hstep hnew => ?_) hfresh (.of_create hstart)
  exact {
    consistent := hl.consistent.step hstep
    producers := hl.producers.step hl.consistent hstep
    anchored := hl.anchored.step hl.consistent hstep fun a ha => by
      rw [hnew a ha]
    settled := settled_past_step hl.consistent hstep hl.settled }

/-- The admissions that have not committed are what is in the buffers. -/
theorem inFlight_past {config : CoreConfig} {hart : Nat} {world : W} {start : Core (Recorded W)}
    {past : List Event} (hstart : create config hart ⟨world, []⟩ = .ok start)
    (hsteps : Steps start past c) : (Event.inFlight past).map (·.handle) = c.inFlight := by
  have horder := commits_append_inFlight (.of_create hstart) hsteps
  obtain ⟨-, rfl⟩ := create_eq hstart
  have horder : (Event.commits past).map (·.handle) ++ c.inFlight =
      (Event.admissions past).map (·.handle) := horder
  rw [Event.inFlight, List.map_drop, ← horder, List.drop_left' (List.length_map _)]

/-- What an operation waits for was admitted before it and had not committed. -/
theorem edge_inFlight {config : CoreConfig} {hart : Nat} {world : W} {start : Core (Recorded W)}
    {earlier later : List Event} {a : Admission} {k : Handle}
    (hstart : create config hart ⟨world, []⟩ = .ok start)
    (hsteps : Steps start (earlier ++ .admitted a :: later) c)
    (hfresh : ∀ b ∈ Event.admissions (earlier ++ .admitted a :: later), b.offered.edges = {})
    (hk : k ∈ a.op.edges.toList) :
    ∃ e d, Steps start earlier e ∧ Step e (some (.admitted a)) d ∧ Steps d later c ∧
      k ∈ e.inFlight := by
  obtain ⟨e, d, hbefore, hstep, hafter⟩ := hsteps.split rfl
  rw [Event.admissions_append] at hfresh
  have hl := Linked.of_steps hstart hbefore fun b hb => hfresh b (List.mem_append_left _ hb)
  have ha : a.offered.edges = {} := hfresh a (List.mem_append_right _ List.mem_cons_self)
  exact ⟨e, d, hbefore, hstep, hafter,
    mem_inFlight_of_edge hl.consistent hl.producers hl.anchored hstep ha hk⟩

/-- Whoever waits stands in flight behind what it waits for. -/
theorem idxOf_lt_of_waitsFor {config : CoreConfig} {hart : Nat} {world : W}
    {start : Core (Recorded W)} {past : List Event} {h k : Handle}
    (hstart : create config hart ⟨world, []⟩ = .ok start) (hsteps : Steps start past c)
    (hfresh : ∀ a ∈ Event.admissions past, a.offered.edges = {}) (hwaits : WaitsFor past h k) :
    c.inFlight.idxOf k < c.inFlight.idxOf h := by
  obtain ⟨earlier, a, later, rfl, rfl, hk, hcommits⟩ := hwaits
  obtain ⟨e, d, hbefore, hstep, hafter, hmem⟩ := edge_inFlight hstart hsteps hfresh hk
  have he := (Consistent.of_create hstart).steps hbefore
  have hjoins : d.inFlight = e.inFlight ++ [a.handle] := he.inFlight_step hstep
  have hfront : a.handle ∉ e.inFlight := he.not_mem_of_admitted hstep
  have horder := commits_append_inFlight (he.step hstep) hafter
  rw [hjoins, List.append_assoc] at horder
  -- Neither of the two has committed, so both have moved up by as much.
  have hmoved : ∀ x, (∀ n ∈ Event.commits later, n.handle ≠ x) →
      (e.inFlight ++ ([a.handle] ++ (Event.admissions later).map (·.handle))).idxOf x =
        c.inFlight.idxOf x + (Event.commits later).length := by
    intro x hx
    have hnone : x ∉ (Event.commits later).map (·.handle) := by
      rintro hcommitted
      obtain ⟨n, hn, hhandle⟩ := List.mem_map.1 hcommitted
      exact hx n hn hhandle
    rw [← horder, List.idxOf_append, if_neg hnone, List.length_map]
  have hwaiter := hmoved a.handle fun n hn => (hcommits n hn).1
  have hawaited := hmoved k fun n hn => (hcommits n hn).2
  rw [List.idxOf_append, if_neg hfront, List.singleton_append, List.idxOf_cons_self,
    Nat.zero_add] at hwaiter
  rw [List.idxOf_append, if_pos hmem] at hawaited
  have hlt := List.idxOf_lt_length_of_mem hmem
  omega

theorem acyclic_of_idxOf_lt {r : Handle → Handle → Prop} (order : List Handle)
    (hr : ∀ h k, r h k → order.idxOf k < order.idxOf h) (h : Handle) :
    ¬ Relation.TransGen r h h := by
  have hpath : ∀ {h k}, Relation.TransGen r h k → order.idxOf k < order.idxOf h := by
    intro h k hpath
    induction hpath with
    | single hlast => exact hr _ _ hlast
    | tail _ hlast ih => exact Nat.lt_trans (hr _ _ hlast) ih
  exact fun hcycle => Nat.lt_irrefl _ (hpath hcycle)

/-- Going by the handles alone, the operation that `h` names waits for the one that `k`
names. -/
def Awaits (c : Core W) (h k : Handle) : Prop :=
  h ∈ c.inFlight ∧ k ∈ c.inFlight ∧ ∃ op, c.op? h = some op ∧ k ∈ op.edges.toList

omit [Surroundings W] in
/-- Where no handle was given out twice, an edge names what it was made for. -/
theorem waitsFor_of_awaits {past : List Event} {h k : Handle} (hl : Linked past c)
    (horder : (Event.commits past).map (·.handle) ++ c.inFlight =
      (Event.admissions past).map (·.handle))
    (hdistinct : ((Event.admissions past).map (·.handle)).Nodup) (hawaits : c.Awaits h k) :
    WaitsFor past h k := by
  obtain ⟨hwaiter, hawaited, op, hop, hk⟩ := hawaits
  obtain ⟨a, ⟨earlier, later, rfl, hhandle, -⟩, hsettled⟩ := hl.settled h op hop
  have hedges : op.edges = a.op.edges := congrArg MicroOp.Settled.edges hsettled
  rw [← horder, List.nodup_append] at hdistinct
  have hopen : ∀ x ∈ c.inFlight, ∀ n ∈ Event.commits later, n.handle ≠ x := by
    intro x hx n hn heq
    have hcommitted : n ∈ Event.commits (earlier ++ .admitted a :: later) := by
      rw [Event.commits_append]
      exact List.mem_append_right _ hn
    exact hdistinct.2.2 _ (List.mem_map_of_mem hcommitted) x hx heq
  exact ⟨earlier, a, later, rfl, hhandle, hedges ▸ hk,
    fun n hn => ⟨hopen h hwaiter n hn, hopen k hawaited n hn⟩⟩

/-- **No circular waiting.** Whatever surrounds a core and whatever is done to it, if
operations are admitted without edges, then what the serializer names is a memory
operation in flight. An operation keeps the edges that it was admitted with, and each
names an operation that was admitted before it and was in flight then. So what waits for
what has no cycle, and neither have the handles as they resolve now if none was given
out twice. -/
theorem waits_only_for_older_in_flight {config : CoreConfig} {hart : Nat} {world : W}
    {start : Core (Recorded W)} (hstart : create config hart ⟨world, []⟩ = .ok start)
    (commands : List Command)
    (hfresh : ∀ a ∈ Event.admissions (start.history commands), a.offered.edges = {}) :
    let past := start.history commands
    let c := (start.run commands).2
    (∀ h, (c.serializer.lastMemory = some h ∨ c.serializer.lastStore = some h ∨
        ∃ window, c.serializer.windowProducer window = some h) →
      h ∈ c.retiring.toList ++ c.rob.toList ∧
        ∃ op, c.op? h = some op ∧ op.inst.opcode.isMemory = true) ∧
      (Event.inFlight past).map (·.handle) = c.retiring.toList ++ c.rob.toList ∧
      (∀ earlier a later, past = earlier ++ .admitted a :: later →
        ∀ k ∈ a.op.edges.toList, ∃ b ∈ Event.inFlight earlier, b.handle = k) ∧
      (∀ h op, c.op? h = some op → ∃ a, LastAdmitted past h a ∧ op.edges = a.op.edges) ∧
      (∀ h, ¬ Relation.TransGen (WaitsFor past) h h) ∧
      (((Event.admissions past).map (·.handle)).Nodup →
        ∀ h, ¬ Relation.TransGen c.Awaits h h) := by
  intro past c
  have hsteps : Steps start past c := steps_run start commands
  have hl := Linked.of_steps hstart hsteps hfresh
  have hbehind := fun h k => idxOf_lt_of_waitsFor (h := h) (k := k) hstart hsteps hfresh
  refine ⟨fun h hrecorded => ?_, inFlight_past hstart hsteps, fun earlier a later hpast k hk => ?_,
    fun h op hop => ?_, acyclic_of_idxOf_lt _ hbehind, fun hdistinct => ?_⟩
  · obtain ⟨w, hw⟩ : ∃ w, c.serializer.Records h w := by
      obtain hlast | hlast | ⟨window, hlast⟩ := hrecorded
      · exact ⟨none, .inl hlast⟩
      · exact ⟨none, .inr hlast⟩
      · exact ⟨some window, hlast⟩
    obtain ⟨hmem, op, hop, hmemory, -⟩ := hl.anchored h w hw
    exact ⟨hmem, op, hop, hmemory⟩
  · rw [hpast] at hsteps
    obtain ⟨e, -, hbefore, -, -, hmem⟩ := edge_inFlight hstart hsteps (hpast ▸ hfresh) hk
    rw [← inFlight_past hstart hbefore] at hmem
    exact List.mem_map.1 hmem
  · obtain ⟨a, ha, hsettled⟩ := hl.settled h op hop
    exact ⟨a, ha, congrArg MicroOp.Settled.edges hsettled⟩
  · have horder := commits_append_inFlight (.of_create hstart) hsteps
    refine acyclic_of_idxOf_lt c.inFlight fun h k hawaits => hbehind h k ?_
    refine waitsFor_of_awaits hl (horder.trans ?_) hdistinct hawaits
    obtain ⟨-, rfl⟩ := create_eq hstart
    exact List.nil_append _

/-- The second of two loads through register 5 waits for the first, and a third operation
for the second. The first load commits, and the serializer goes on with the second. -/
theorem two_loads_of_one_window :
    let load : Nat → MicroOp := fun id =>
      { id, pc := 0, inst := { opcode := .load, src1 := some 5, dst1 := some 6 } }
    let reader : MicroOp := { id := 3, pc := 0, inst := { opcode := .alu, src1 := some 6 } }
    let config : CoreConfig := { maxRobSize := 6, retireDelay := 0 }
    let world : Recorded Obliging := ⟨{ buckets := [[reader]] }, []⟩
    let start : Core (Recorded Obliging) := .initial config 0 world
    let commands : List Command :=
      [.activate, .arm 9, .add (load 1), .add (load 2), .executed ⟨0, 1⟩, .advance]
    let past := start.history commands
    let c := (start.run commands).2
    create config 0 world = .ok start ∧
      (∀ a ∈ Event.admissions past, a.offered.edges = {}) ∧
      (Event.admissions past).map (·.op.edges) =
        [{}, { order := some ⟨0, 1⟩ }, { src1 := some ⟨1, 2⟩ }] ∧
      (Event.commits past).map (·.handle) = [⟨0, 1⟩] ∧
      c.serializer.windowProducer 5 = some ⟨1, 2⟩ ∧
      ⟨1, 2⟩ ∈ c.retiring.toList ++ c.rob.toList ∧
      WaitsFor past ⟨2, 3⟩ ⟨1, 2⟩ ∧ ¬ Relation.TransGen (WaitsFor past) ⟨1, 2⟩ ⟨2, 3⟩ := by
  intro load reader config world start commands past c
  have hstart : create config 0 world = .ok start := rfl
  have hfresh : ∀ a ∈ Event.admissions past, a.offered.edges = {} := by decide +kernel
  have hwindow : c.serializer.windowProducer 5 = some ⟨1, 2⟩ := by decide +kernel
  have hwaits : WaitsFor past ⟨2, 3⟩ ⟨1, 2⟩ :=
    ⟨past.take 5, ((Event.admissions past)[2]?).getD default, past.drop 6, by decide +kernel,
      by decide +kernel, by decide +kernel, by decide +kernel⟩
  obtain ⟨hanchored, -, -, -, hacyclic, -⟩ :=
    waits_only_for_older_in_flight hstart commands hfresh
  exact ⟨hstart, hfresh, by decide +kernel, by decide +kernel, hwindow,
    (hanchored _ (.inr (.inr ⟨5, hwindow⟩))).1, hwaits, fun hback => hacyclic _ (hback.tail hwaits)⟩

end Core

end OutOfOrder
