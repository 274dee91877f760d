import OutOfOrder.Proofs.Core.Consistency
import OutOfOrder.Proofs.Core.Trail
import OutOfOrder.Surroundings.Obliging

/-!
# An operation waits for exactly the latest writers of its sources

The alias table is a mutable table. Admissions write it, and two others clear
it, each only where it still finds its own handle: the report that an operation
executed, and its commit. What the table says at some moment is a question
about the whole history: who wrote the register last, and has anything been
heard of that writer since?

`LatestWriter` is that question, and the table always has its answer. One part
of the invariant is needed for this and is worth having by itself: whatever the
table names is in flight, writes the register and has not executed. It is why
clearing the destinations of one operation is enough to make the table forget
it.
-/

namespace OutOfOrder

/-- After this event `h` is not the latest writer of a register any more: the
event admits a writer, or it reports that `h` executed, or it commits `h`. -/
def Event.Supersedes (r : Nat) (h : Handle) : Event → Prop
  | .admitted a => r ∈ a.op.inst.dsts
  | .told (.executed k) => k = h
  | .committed op => op.handle = h
  | _ => False

/-- In a stretch of history, `h` was the last that was admitted as a writer of
`r`, and since then it has neither been reported executed nor committed. -/
def LatestWriter (past : List Event) (r : Nat) (h : Handle) : Prop :=
  ∃ earlier a later, past = earlier ++ .admitted a :: later ∧ a.handle = h ∧
    r ∈ a.op.inst.dsts ∧ ∀ event ∈ later, ¬ event.Supersedes r h

/-- It was admitted as one, and that still holds. -/
theorem latestWriter_iff (past : List Event) (r : Nat) (h : Handle) :
    LatestWriter past r h ↔
      Lasts (fun event => ∃ a, event = .admitted a ∧ a.handle = h ∧ r ∈ a.op.inst.dsts)
        (·.Supersedes r h) past := by
  constructor
  · rintro ⟨earlier, a, later, heq, hhandle, hdst, hlater⟩
    exact ⟨earlier, .admitted a, later, heq, ⟨a, rfl, hhandle, hdst⟩, hlater⟩
  · rintro ⟨earlier, event, later, heq, ⟨a, rfl, hhandle, hdst⟩, hlater⟩
    exact ⟨earlier, a, later, heq, hhandle, hdst, hlater⟩

theorem not_latestWriter_nil (r : Nat) (h : Handle) : ¬ LatestWriter [] r h := by
  rw [latestWriter_iff]
  exact not_lasts_nil

/-- One more event either is the admission of the latest writer or leaves it as
it was. -/
theorem latestWriter_append (past : List Event) (event : Event) (r : Nat) (h : Handle) :
    LatestWriter (past ++ [event]) r h ↔
      (∃ a, event = .admitted a ∧ a.handle = h ∧ r ∈ a.op.inst.dsts) ∨
        LatestWriter past r h ∧ ¬ event.Supersedes r h := by
  rw [latestWriter_iff, latestWriter_iff, lasts_append]

namespace Core

variable {W : Type}

/-- Whatever the alias table names is in flight, writes the register and has not
executed. -/
def ProducersWait (c : Core W) : Prop :=
  ∀ r h, c.producer r = some h → 0 < r ∧ r < registerCount ∧ h ∈ c.inFlight ∧
    ∃ op, c.pool.get? h = some op ∧ r ∈ op.inst.dsts ∧ op.isExecuted = false

/-- The alias table and the history agree. -/
structure Traced (past : List Event) (c : Core W) : Prop where
  consistent : c.Consistent
  wait : c.ProducersWait
  latest : ∀ r h, c.producer r = some h ↔
    0 < r ∧ r < registerCount ∧ LatestWriter past r h

variable {c d : Core W}

theorem producersWait_create {config : CoreConfig} {hart : Nat} {world : W}
    (h : create config hart world = .ok c) : c.ProducersWait := by
  obtain ⟨-, rfl⟩ := create_eq h
  intro r k hproducer
  rw [producer, initial, AliasTable.producer_empty] at hproducer
  cases hproducer

namespace ProducersWait

theorem of_sameOps (hw : c.ProducersWait) (h : SameOps c d) : d.ProducersWait := by
  intro r k hproducer
  rw [producer, h.aliases] at hproducer
  rw [h.inFlight, h.pool]
  exact hw r k hproducer

/-- A change of one operation that neither executes it nor changes what it
writes. -/
theorem modify (hw : c.ProducersWait) (h : Handle) {f : MicroOp → MicroOp}
    (hid : ∀ op, (f op).id = op.id) (hinst : ∀ op, (f op).inst = op.inst)
    (hstage : ∀ op, op.isExecuted = false → (f op).isExecuted = false) :
    ProducersWait { c with pool := c.pool.modify h f } := by
  intro r k hproducer
  obtain ⟨hpos, hlt, hmem, op, hop, hdst, hwaits⟩ := hw r k hproducer
  refine ⟨hpos, hlt, hmem, ?_⟩
  by_cases heq : k = h
  · subst heq
    exact ⟨f op, by rw [Pool.get?_modify_self hid, hop, Option.map_some],
      by rwa [hinst], hstage op hwaits⟩
  · exact ⟨op, by rw [Pool.get?_modify_of_ne hid heq]; exact hop, hdst, hwaits⟩

/-- Releasing the destinations of the operation that `h` names makes the table
forget `h`, and nothing else. -/
theorem producer_release (hw : c.ProducersWait) {h : Handle} {op : MicroOp}
    (hop : c.pool.get? h = some op) (r : Nat) (k : Handle) :
    (c.aliases.release op.inst.dsts h).producer r = some k ↔
      c.producer r = some k ∧ h ≠ k := by
  rw [AliasTable.producer_release]
  split
  · next hreleased =>
      obtain ⟨-, hh⟩ := hreleased
      constructor
      · intro hnone
        cases hnone
      · rintro ⟨hk, hne⟩
        rw [producer, hh] at hk
        exact absurd (Option.some.inj hk) hne
  · next hkept =>
      refine ⟨fun hk => ⟨hk, ?_⟩, And.left⟩
      rintro rfl
      obtain ⟨-, -, -, op', hop', hdst, -⟩ := hw r h hk
      rw [hop] at hop'
      exact hkept ⟨Option.some.inj hop' ▸ hdst, hk⟩

variable [Surroundings W]

theorem admitOp (hc : c.Consistent) (hw : c.ProducersWait) {op : MicroOp}
    (hroom : c.refusal? op = none) : (c.admitOp op).2.ProducersWait := by
  intro r k hproducer
  rw [producer_admitOp] at hproducer
  rw [hc.inFlight_admitOp hroom]
  split at hproducer
  · next hset =>
      obtain ⟨hdst, hpos, hlt⟩ := hset
      obtain rfl := Option.some.inj hproducer
      refine ⟨hpos, hlt, by simp, _, get?_admitOp_self hc.pool op, hdst, ?_⟩
      obtain ⟨order, window, hop⟩ := op_admitOp hc.pool op
      rw [hop]
      rfl
  · obtain ⟨hpos, hlt, hmem, old, hold, hdst, hwaits⟩ := hw r k hproducer
    have hne : k ≠ (c.admitOp op).1.handle := by
      rintro rfl
      exact hc.not_mem_of_get?_eq_none (get?_admitOp_fresh hc.pool op) hmem
    exact ⟨hpos, hlt, List.mem_append_left _ hmem, old,
      by rw [get?_admitOp_of_ne hc.pool op hne]; exact hold, hdst, hwaits⟩

omit [Surroundings W] in
theorem executed (hw : c.ProducersWait) (h : Handle) : (c.executed h).ProducersWait := by
  obtain ⟨-, heq⟩ | ⟨op, hop, heq⟩ := executed_cases c h
  · rw [heq]
    exact hw
  · rw [heq]
    intro r k hproducer
    obtain ⟨hk, hne⟩ := (hw.producer_release hop r k).1 hproducer
    obtain ⟨hpos, hlt, hmem, old, hold, hdst, hwaits⟩ := hw r k hk
    refine ⟨hpos, hlt, hmem, old, ?_, hdst, hwaits⟩
    exact (Pool.get?_modify_of_ne (f := MicroOp.markExecuted c.clock) (fun _ => rfl)
      hne.symm).trans hold

theorem commit (hc : c.Consistent) (hw : c.ProducersWait) {h : Handle} {op : MicroOp}
    (htop : c.retiring.top? = some h) (hop : c.pool.get? h = some op) :
    (c.commit h op).ProducersWait := by
  intro r k hproducer
  rw [producer, aliases_commit] at hproducer
  obtain ⟨hk, hne⟩ := (hw.producer_release hop r k).1 hproducer
  obtain ⟨hpos, hlt, hmem, old, hold, hdst, hwaits⟩ := hw r k hk
  refine ⟨hpos, hlt, ?_, old, ?_, hdst, hwaits⟩
  · rw [hc.inFlight_commit op htop, List.mem_cons] at hmem
    exact hmem.resolve_left hne.symm
  · rw [pool_commit, get?_poolCommitting_of_ne hne.symm]
    exact hold

/-- Retired operations have executed, so the table never names what a report
takes out of the pool. -/
theorem performed (hw : c.ProducersWait) (h : Handle) : (c.performed h).ProducersWait := by
  obtain ⟨op, hop, hretired, heq⟩ | ⟨-, heq⟩ := performed_cases c h
  · rw [heq]
    intro r k hproducer
    obtain ⟨hpos, hlt, hmem, old, hold, hdst, hwaits⟩ := hw r k hproducer
    refine ⟨hpos, hlt, hmem, old, ?_, hdst, hwaits⟩
    have hne : k ≠ h := by
      rintro rfl
      rw [hop] at hold
      rw [← Option.some.inj hold, MicroOp.isExecuted, hretired] at hwaits
      cases hwaits
    exact (Pool.get?_erase_of_ne hne).trans hold
  · rw [heq]
    exact hw.modify h (f := MicroOp.markPerformed) (fun _ => rfl) (fun _ => rfl)
      fun _ hwaits => hwaits

/-- Every step keeps it. -/
theorem step (hc : c.Consistent) (hw : c.ProducersWait) {event : Option Event}
    (h : Step c event d) : d.ProducersWait := by
  cases h with
  | activate | deactivate | arm | rest | recover | charge | refuse | sample | holdRob
  | holdRetiring => exact hw.of_sameOps ⟨⟨rfl, rfl, rfl, rfl⟩, rfl, rfl⟩
  | fetch => exact hw.of_sameOps (sameOps_fetch c)
  | tick => exact hw.of_sameOps (sameOps_tick c)
  | decode => exact hw.of_sameOps (sameOps_decode c)
  | issued h =>
      exact hw.modify h (f := MicroOp.markIssued) (fun _ => rfl) (fun _ => rfl)
        fun op hwaits => (op.isExecuted_markIssued).trans hwaits
  | executing h =>
      rw [executing_eq]
      exact hw.modify h (f := MicroOp.markExecuting c.config.lateAlloc) (fun _ => rfl)
        (fun _ => rfl) fun op hwaits => (op.isExecuted_markExecuting _).trans hwaits
  | executed h => exact hw.executed h
  | performed h => exact hw.performed h
  | replay h =>
      obtain ⟨world, recovery, stats, heq | heq⟩ := replay_eq c h
      · rw [heq]
        exact hw
      · rw [heq]
        exact hw.modify h (f := MicroOp.markReplayed) (fun _ => rfl) (fun _ => rfl)
          fun _ hwaits => hwaits
  | @accept op world queue hroom hanswer hqueue =>
      exact admitOp (hc.of_world world) hw hroom
  | promote htop hop hanswer =>
      intro r k hproducer
      obtain ⟨hpos, hlt, hmem, hrest⟩ := hw r k hproducer
      exact ⟨hpos, hlt, by rw [hc.inFlight_promote htop]; exact hmem, hrest⟩
  | dropRob htop hop => exact absurd hop (hc.get?_rob_top? htop)
  | @commit h op world htop hop hdelay hanswer =>
      exact commit (hc.of_world world) hw htop hop
  | dropRetiring htop hop => exact absurd hop (hc.get?_retiring_top? htop)

end ProducersWait

/-! ## The table and the history -/

variable [Surroundings W]

omit [Surroundings W] in
/-- A step that leaves the table alone, and whose event supersedes nobody, leaves every
latest writer what it was. -/
theorem producer_of_unheard {event : Option Event} {r : Nat} {k : Handle}
    (haliases : d.aliases = c.aliases)
    (hevent : ∀ e, event = some e → ¬ e.Supersedes r k ∧ ∀ a, e ≠ .admitted a) :
    d.producer r = some k ↔
      (∃ a, event = some (.admitted a) ∧ a.handle = k ∧ r ∈ a.op.inst.dsts ∧
        0 < r ∧ r < registerCount) ∨
      c.producer r = some k ∧ ∀ e, event = some e → ¬ e.Supersedes r k := by
  rw [producer, haliases]
  constructor
  · exact fun hk => .inr ⟨hk, fun e he => (hevent e he).1⟩
  · rintro (⟨a, ha, -⟩ | ⟨hk, -⟩)
    · exact absurd rfl ((hevent _ ha).2 a)
    · exact hk

namespace ProducersWait

variable {h : Handle} {op : MicroOp}

omit [Surroundings W] in
/-- The report that an operation executed makes the table forget it. -/
theorem producer_executed (hw : c.ProducersWait) (h : Handle) (r : Nat) (k : Handle) :
    (c.executed h).producer r = some k ↔ c.producer r = some k ∧ h ≠ k := by
  obtain ⟨hop, heq⟩ | ⟨op, hop, heq⟩ := executed_cases c h
  · -- The table names nobody whose handle resolves to nothing.
    rw [heq]
    refine ⟨fun hk => ⟨hk, ?_⟩, And.left⟩
    rintro rfl
    obtain ⟨-, -, -, op, hop', -⟩ := hw r h hk
    rw [hop] at hop'
    cases hop'
  · rw [heq]
    exact hw.producer_release hop r k

/-- So does its commit. -/
theorem producer_commit (hw : c.ProducersWait) (hop : c.pool.get? h = some op) (r : Nat)
    (k : Handle) : (c.commit h op).producer r = some k ↔ c.producer r = some k ∧ h ≠ k := by
  rw [producer, aliases_commit]
  exact hw.producer_release hop r k

/-- An admission takes its destinations from whoever wrote them last. -/
theorem producer_admitOp (hw : c.ProducersWait) (op : MicroOp) (r : Nat) (k : Handle) :
    (c.admitOp op).2.producer r = some k ↔
      (c.admitOp op).1.handle = k ∧ r ∈ (c.admitOp op).1.op.inst.dsts ∧
        0 < r ∧ r < registerCount ∨
      c.producer r = some k ∧ r ∉ (c.admitOp op).1.op.inst.dsts := by
  rw [Core.producer_admitOp]
  split
  · next hset =>
      obtain ⟨hdst, hpos, hlt⟩ := hset
      simp [hdst, hpos, hlt]
  · next hset =>
      constructor
      · intro hk
        obtain ⟨hpos, hlt, -⟩ := hw r k hk
        exact .inr ⟨hk, fun hdst => hset ⟨hdst, hpos, hlt⟩⟩
      · rintro (⟨-, htaken⟩ | ⟨hk, -⟩)
        · exact absurd htaken hset
        · exact hk

end ProducersWait

/-- What a step does to the alias table: a new writer takes its registers, and
whoever the event supersedes is forgotten. -/
theorem producer_step (hc : c.Consistent) (hw : c.ProducersWait) {event : Option Event}
    (h : Step c event d) (r : Nat) (k : Handle) :
    d.producer r = some k ↔
      (∃ a, event = some (.admitted a) ∧ a.handle = k ∧ r ∈ a.op.inst.dsts ∧
        0 < r ∧ r < registerCount) ∨
      c.producer r = some k ∧ ∀ e, event = some e → ¬ e.Supersedes r k := by
  cases h with
  | activate | deactivate | arm | issued | rest | recover | charge | refuse | sample | holdRob
  | holdRetiring | promote => exact producer_of_unheard rfl (by simp [Event.Supersedes])
  | fetch => exact producer_of_unheard (sameOps_fetch c).aliases (by simp)
  | tick => exact producer_of_unheard (sameOps_tick c).aliases (by simp)
  | decode => exact producer_of_unheard (sameOps_decode c).aliases (by simp)
  | executing h =>
      exact producer_of_unheard (by rw [executing_eq]) (by simp [Event.Supersedes])
  | performed h => exact producer_of_unheard (aliases_performed c h) (by simp [Event.Supersedes])
  | replay h =>
      obtain ⟨world, recovery, stats, heq | heq⟩ := replay_eq c h <;>
        exact producer_of_unheard (by rw [heq]) (by simp [Event.Supersedes])
  | executed h => simpa [Event.Supersedes] using hw.producer_executed h r k
  | @accept op world queue hroom hanswer hqueue =>
      have hwriters : _ ↔ _ ∨ c.producer r = some k ∧ _ :=
        ProducersWait.producer_admitOp (c := { c with world }) hw op r k
      refine hwriters.trans ?_
      simp [Event.Supersedes]
  | dropRob htop hop => exact absurd hop (hc.get?_rob_top? htop)
  | @commit h op world htop hop hdelay hanswer =>
      have hforgotten : _ ↔ c.producer r = some k ∧ h ≠ k :=
        ProducersWait.producer_commit (c := { c with world }) hw hop r k
      simpa [Event.Supersedes] using hforgotten
  | dropRetiring htop hop => exact absurd hop (hc.get?_retiring_top? htop)

/-- Every step keeps the table and the history in agreement. -/
theorem Traced.step {past : List Event} {event : Option Event} (ht : Traced past c)
    (h : Step c event d) : Traced (past ++ event.toList) d where
  consistent := ht.consistent.step h
  wait := ht.wait.step ht.consistent h
  latest := by
    intro r k
    rw [producer_step ht.consistent ht.wait h, ht.latest]
    cases event with
    | none => simp
    | some event =>
        rw [Option.toList_some, latestWriter_append]
        constructor
        · rintro (⟨a, ha, hhandle, hdst, hpos, hlt⟩ | ⟨⟨hpos, hlt, hk⟩, hevent⟩)
          · exact ⟨hpos, hlt, .inl ⟨a, Option.some.inj ha, hhandle, hdst⟩⟩
          · exact ⟨hpos, hlt, .inr ⟨hk, hevent event rfl⟩⟩
        · rintro ⟨hpos, hlt, ⟨a, rfl, hhandle, hdst⟩ | ⟨hk, hevent⟩⟩
          · exact .inl ⟨a, rfl, hhandle, hdst, hpos, hlt⟩
          · refine .inr ⟨⟨hpos, hlt, hk⟩, fun e he => ?_⟩
            rw [← Option.some.inj he]
            exact hevent

omit [Surroundings W] in
/-- A fresh core has an empty table and an empty history. -/
theorem traced_create {config : CoreConfig} {hart : Nat} {world : W}
    (h : create config hart world = .ok c) : Traced [] c where
  consistent := .of_create h
  wait := producersWait_create h
  latest := by
    intro r k
    constructor
    · intro hk
      obtain ⟨-, rfl⟩ := create_eq h
      rw [producer, initial, AliasTable.producer_empty] at hk
      cases hk
    · rintro ⟨-, -, hk⟩
      exact absurd hk (not_latestWriter_nil r k)

theorem Traced.steps {events : List Event} (ht : Traced [] c) (h : Steps c events d) :
    Traced events d :=
  h.keeps (fun ht hstep => ht.step hstep) ht

/-- An admitted operation waits for the producers that the table names when it
is admitted. -/
theorem edges_admitOp (hc : c.Consistent) (op : MicroOp) :
    (c.admitOp op).1.op.edges.src1 = op.inst.src1.bind c.producer ∧
      (c.admitOp op).1.op.edges.src2 =
        if op.lateSrc2 then op.edges.src2 else op.inst.src2.bind c.producer := by
  obtain ⟨order, window, hop⟩ := op_admitOp hc.pool op
  rw [hop]
  exact ⟨rfl, rfl⟩

/-- **Exact register dependencies.** In every reachable state the table names
exactly the latest writers, each of them in flight and not executed; and what
it named at an admission is what the admitted operation waits for, which is what
its handle names once it is admitted. -/
theorem producers_are_latest_writers {config : CoreConfig} {hart : Nat} {world : W}
    {start : Core W} (hstart : create config hart world = .ok start)
    (commands : List Command) :
    (∀ r h, (start.run commands).2.producer r = some h ↔
      0 < r ∧ r < registerCount ∧ LatestWriter (start.history commands) r h) ∧
    (∀ r h, (start.run commands).2.producer r = some h →
      h ∈ (start.run commands).2.inFlight ∧
      ∃ op, (start.run commands).2.op? h = some op ∧ op.isExecuted = false) ∧
    ∀ (earlier : List Event) (a : Admission) (later : List Event),
      start.history commands = earlier ++ .admitted a :: later →
      (∃ c d, Steps start earlier c ∧ Step c (some (.admitted a)) d ∧
        Steps d later (start.run commands).2 ∧ d.op? a.handle = some a.op) ∧
      (a.offered.edges = {} →
        (∀ h, a.op.edges.src1 = some h ↔
          ∃ r, a.offered.inst.src1 = some r ∧ 0 < r ∧ r < registerCount ∧
            LatestWriter earlier r h) ∧
        ∀ h, a.op.edges.src2 = some h ↔
          a.offered.lateSrc2 = false ∧ ∃ r, a.offered.inst.src2 = some r ∧
            0 < r ∧ r < registerCount ∧ LatestWriter earlier r h) := by
  have hsteps := steps_run start commands
  have hend := (traced_create hstart).steps hsteps
  refine ⟨hend.latest, fun r h hk => ?_, fun earlier a later hpast => ?_⟩
  · obtain ⟨-, -, hmem, op, hop, -, hwaits⟩ := hend.wait r h hk
    exact ⟨hmem, op, hop, hwaits⟩
  · obtain ⟨c, d, hbefore, hstep, hafter⟩ := hsteps.split hpast
    have ht := (traced_create hstart).steps hbefore
    refine ⟨⟨c, d, hbefore, hstep, hafter, ht.consistent.get?_of_admitted hstep⟩,
      fun hedges => ?_⟩
    cases hstep with
    | @accept op world queue hroom hanswer hqueue =>
        obtain ⟨hsrc1, hsrc2⟩ := edges_admitOp (ht.consistent.of_world world) op
        have hedges : op.edges = {} := hedges
        rw [hsrc1, hsrc2]
        constructor
        · intro h
          rw [Option.bind_eq_some_iff]
          simp only [← ht.latest]
          rfl
        · intro h
          show _ ↔ op.lateSrc2 = false ∧ ∃ r, op.inst.src2 = some r ∧ _
          cases hlate : op.lateSrc2 with
          | true => simp [hedges]
          | false =>
              simp only [Bool.false_eq_true, if_false, true_and, ← ht.latest]
              exact Option.bind_eq_some_iff

/-- Of two writers of register 5 the older executes. A store that reads the
register twice, the second time at retirement, waits for the younger one. -/
theorem latest_of_two_writers :
    let writer : Nat → MicroOp := fun id =>
      { id, pc := 0, inst := { opcode := .alu, dst1 := some 5 } }
    let store : MicroOp :=
      { id := 3, pc := 0, inst := { opcode := .store, src1 := some 5, src2 := some 5 },
        lateSrc2 := true }
    let config : CoreConfig := { maxRobSize := 5 }
    let start : Core Obliging := .initial config 0 {}
    let first : List Command := [.add (writer 1), .add (writer 2), .executed ⟨0, 1⟩]
    let a : Admission := ((start.run first).2.admitOp store).1
    create config 0 ({} : Obliging) = .ok start ∧
      start.history (first ++ [.add store]) = start.history first ++ [.admitted a] ∧
      a.offered.edges = {} ∧ a.op.edges.src1 = some ⟨1, 2⟩ ∧
      LatestWriter (start.history first) 5 ⟨1, 2⟩ ∧ a.op.edges.src2 ≠ some ⟨1, 2⟩ ∧
      ∃ c d : Core Obliging, Step c (some (.admitted a)) d ∧ d.op? a.handle = some a.op := by
  intro writer store config start first a
  have hstart : create config 0 ({} : Obliging) = .ok start := rfl
  have hpast : start.history (first ++ [.add store]) =
      start.history first ++ [.admitted a] := by decide +kernel
  have hsrc1 : a.op.edges.src1 = some ⟨1, 2⟩ := by decide +kernel
  have hoffered : a.offered = store := offered_admitOp _ store
  have hnone : a.offered.edges = {} := by rw [hoffered]
  obtain ⟨-, -, hedges⟩ := producers_are_latest_writers hstart (first ++ [.add store])
  obtain ⟨⟨c, d, -, hstep, -, hnamed⟩, hwaits⟩ := hedges _ a [] hpast
  obtain ⟨hfirst, hsecond⟩ := hwaits hnone
  rw [hoffered] at hfirst hsecond
  obtain ⟨r, hr, -, -, hlatest⟩ := (hfirst _).1 hsrc1
  obtain rfl : 5 = r := Option.some.inj hr
  exact ⟨hstart, hpast, hnone, hsrc1, hlatest,
    fun hsrc2 => Bool.noConfusion ((hsecond _).1 hsrc2).1, c, d, hstep, hnamed⟩

end Core

end OutOfOrder
