import OutOfOrder.Proofs.Core.Admission
import OutOfOrder.Proofs.Core.Report
import OutOfOrder.Proofs.Core.Step

/-!
# What the serializer records, and what it makes wait

The serializer keeps handles in three places, and which of them an admission
reads and writes depends on the level, on the budget and on the operation. Seen
from outside, two things matter: an operation is only ever made to wait for one
that was recorded, and the only handle that is newly recorded is its own, which
happens to memory operations alone. A window records an operation only if the
operation carries that window, and this is what its commit goes by.
-/

namespace OutOfOrder

namespace Serializer

variable {s s' : Serializer} {p : Pool} {h : Handle} {op op' : MicroOp}

/-- The serializer has recorded `h`, in a window or outside of any. -/
def Records (s : Serializer) (h : Handle) : Option Nat → Prop
  | none => s.lastMemory = some h ∨ s.lastStore = some h
  | some window => s.windowProducer window = some h

/-- What becomes of the operation `op` under the serializer `s`, if it comes out as
`op'` and leaves the serializer as `s'`. -/
structure Serialized (s : Serializer) (h : Handle) (op : MicroOp) (s' : Serializer)
    (op' : MicroOp) : Prop where
  order : ∀ k, op'.edges.order = some k → ∃ w, s.Records k w
  records : ∀ k w, s'.Records k w → s.Records k w ∨
    k = h ∧ op.inst.opcode.isMemory = true ∧ (w = none ∨ op'.window = w)

theorem Serialized.untouched (hunordered : op.edges.order = none)
    (hrecords : ∀ k w, s'.Records k w → s.Records k w) : s.Serialized h op s' op where
  order := fun k hk => by rw [hunordered] at hk; cases hk
  records := fun k w hk => .inl (hrecords k w hk)

theorem Serialized.of_records {t : Serializer} (ht : t.Serialized h op s' op')
    (hrecords : ∀ k w, t.Records k w → s.Records k w) : s.Serialized h op s' op' where
  order := fun k hk => (ht.order k hk).imp fun w hw => hrecords k w hw
  records := fun k w hk => (ht.records k w hk).imp (hrecords k w) id

theorem records_lastMemory {k : Handle} {w : Option Nat}
    (hk : Records { s with lastMemory := some h } k w) : s.Records k w ∨ k = h ∧ w = none := by
  cases w with
  | none =>
      obtain hk | hk := hk
      · exact .inr ⟨(Option.some.inj hk).symm, rfl⟩
      · exact .inl (.inr hk)
  | some window => exact .inl hk

theorem records_lastStore {k : Handle} {w : Option Nat}
    (hk : Records { s with lastStore := some h } k w) : s.Records k w ∨ k = h ∧ w = none := by
  cases w with
  | none =>
      obtain hk | hk := hk
      · exact .inl (.inl hk)
      · exact .inr ⟨(Option.some.inj hk).symm, rfl⟩
  | some window => exact .inl hk

/-- A chained operation waits for the one before it in the chain, or for none. -/
theorem get?_chain (hop : p.get? h = some op) (hunordered : op.edges.order = none)
    (prev : Option Handle) : ∃ op', (chain p prev h).get? h = some op' ∧
      ∀ k, op'.edges.order = some k → prev = some k := by
  have hsame : ∃ op', p.get? h = some op' ∧ ∀ k, op'.edges.order = some k → prev = some k :=
    ⟨op, hop, fun k hk => by rw [hunordered] at hk; cases hk⟩
  unfold chain
  split
  · exact hsame
  · next prev =>
      split
      · exact hsame
      · split
        · exact hsame
        · have hid : ∀ op : MicroOp, { op with edges.order := some prev }.id = op.id :=
            fun _ => rfl
          refine ⟨{ op with edges.order := some prev }, ?_, fun k hk => hk⟩
          rw [Pool.get?_modify_self hid, hop, Option.map_some]

theorem get?_chainInWindow (hop : p.get? h = some op) (hunordered : op.edges.order = none)
    (window : Nat) (prev : Option Handle) :
    ∃ op', (chainInWindow p window prev h).get? h = some op' ∧ op'.window = some window ∧
      ∀ k, op'.edges.order = some k → prev = some k := by
  let ordered (op : MicroOp) : MicroOp := op.reordered
    (if op.isUnordered then prev.filter fun k => (p.get? k).isSome else op.edges.order)
    (some window)
  have hid : ∀ op : MicroOp, (ordered op).id = op.id := fun _ => rfl
  have hfree : op.isUnordered = true := by rw [MicroOp.isUnordered, hunordered]; rfl
  refine ⟨ordered op, ?_, rfl, fun k hk => ?_⟩
  · show (p.modify h ordered).get? h = _
    rw [Pool.get?_modify_self hid, hop, Option.map_some]
  · have hk : (if op.isUnordered then prev.filter fun k => (p.get? k).isSome
        else op.edges.order) = some k := hk
    rw [if_pos hfree] at hk
    exact (Option.filter_eq_some_iff.1 hk).1

theorem serialized_admitFull (s : Serializer) (hop : p.get? h = some op)
    (hunordered : op.edges.order = none) :
    ∃ op', (s.admitFull p h op).2.get? h = some op' ∧
      s.Serialized h op (s.admitFull p h op).1 op' := by
  rw [admitFull]
  split
  · next hmemory =>
      obtain ⟨op', hop', horder⟩ := get?_chain hop hunordered s.lastMemory
      refine ⟨op', hop', fun k hk => ⟨none, .inl (horder k hk)⟩, fun k w hk => ?_⟩
      obtain hold | ⟨hnew, hw⟩ := records_lastMemory hk
      · exact .inl hold
      · exact .inr ⟨hnew, (Bool.and_eq_true_iff.1 hmemory).1, .inl hw⟩
  · exact ⟨op, hop, .untouched hunordered fun _ _ hk => hk⟩

theorem serialized_admitStores (s : Serializer) (hop : p.get? h = some op)
    (hunordered : op.edges.order = none) :
    ∃ op', (s.admitStores p h op).2.get? h = some op' ∧
      s.Serialized h op (s.admitStores p h op).1 op' := by
  obtain ⟨op', hop', horder⟩ := get?_chain hop hunordered s.lastStore
  rw [admitStores]
  split
  · next hload =>
      refine ⟨op', hop', fun k hk => ⟨none, .inr (horder k hk)⟩, fun k w hk => ?_⟩
      have hmemory : op.inst.opcode.isMemory = true := by
        rw [Opcode.isMemory, (Bool.and_eq_true_iff.1 hload).1, Bool.true_or]
      obtain hold | ⟨hnew, hw⟩ := records_lastMemory hk
      · exact .inl hold
      · exact .inr ⟨hnew, hmemory, .inl hw⟩
  · split
    · next hstore =>
        refine ⟨op', hop', fun k hk => ⟨none, .inr (horder k hk)⟩, fun k w hk => ?_⟩
        have hmemory : op.inst.opcode.isMemory = true := by
          rw [Opcode.isMemory, (Bool.and_eq_true_iff.1 hstore).1, Bool.or_true]
        obtain hold | ⟨hnew, hw⟩ := records_lastStore hk
        · exact .inl hold
        · exact .inr ⟨hnew, hmemory, .inl hw⟩
    · exact ⟨op, hop, .untouched hunordered fun _ _ hk => hk⟩

theorem serialized_admitWindow (s : Serializer) (hop : p.get? h = some op)
    (hunordered : op.edges.order = none) :
    ∃ op', (s.admitWindow p h op).2.get? h = some op' ∧
      s.Serialized h op (s.admitWindow p h op).1 op' := by
  rw [admitWindow]
  dsimp only
  split
  · exact ⟨op, hop, .untouched hunordered fun _ w hk => by cases w <;> exact hk⟩
  · next window hwindow =>
      split
      · next hmemory =>
          obtain ⟨op', hop', hown, horder⟩ :=
            get?_chainInWindow hop hunordered window (s.windows.producer window)
          refine ⟨op', hop', fun k hk => ⟨some window, horder k hk⟩, fun k w hk => ?_⟩
          cases w with
          | none => exact .inl hk
          | some other =>
              have hk : (s.windows.set window h).producer other = some k := hk
              rw [AliasTable.producer_set] at hk
              split at hk
              · next hset =>
                  exact .inr ⟨(Option.some.inj hk).symm, hmemory, .inr (hset.1 ▸ hown)⟩
              · exact .inl hk
      · refine ⟨op, hop, .untouched hunordered fun k w hk => ?_⟩
        cases w with
        | none => exact hk
        | some other =>
            have hk : (s.windows.clearAll op.inst.dsts).producer other = some k := hk
            rw [AliasTable.producer_clearAll] at hk
            split at hk
            · cases hk
            · exact hk

/-- Whatever the policy, an operation waits at most for one that was recorded, and at
most itself is newly recorded. -/
theorem serialized_apply (s : Serializer) (hop : p.get? h = some op)
    (hunordered : op.edges.order = none) (recovering : Bool) :
    ∃ op', (s.apply p h recovering).2.get? h = some op' ∧
      s.Serialized h op (s.apply p h recovering).1 op' := by
  -- The level and the budget are moved before anything else, and record nothing.
  have hcharged : ∀ (level budget : Nat) k w,
      Records { s with level, budget } k w → s.Records k w := by
    intro level budget k w hk
    cases w <;> exact hk
  rw [apply]
  dsimp only
  split
  · exact ⟨op, hop, .untouched hunordered (hcharged _ _)⟩
  · rw [hop]
    dsimp only
    split
    · obtain ⟨op', hop', hfull⟩ := serialized_admitFull _ hop hunordered
      exact ⟨op', hop', hfull.of_records (hcharged _ _)⟩
    · obtain ⟨op', hop', hstores⟩ := serialized_admitStores _ hop hunordered
      exact ⟨op', hop', hstores.of_records (hcharged _ _)⟩
    · obtain ⟨op', hop', hwindow⟩ := serialized_admitWindow _ hop hunordered
      exact ⟨op', hop', hwindow.of_records (hcharged _ _)⟩

/-- A commit makes the serializer forget an operation, in the window that the
operation carries. -/
theorem records_release {k : Handle} {w window : Option Nat}
    (hk : (s.release h window).Records k w) :
    s.Records k w ∧ (k = h → w ≠ none ∧ w ≠ window) := by
  cases w with
  | none =>
      have hk : s.lastMemory.filter (· != h) = some k ∨ s.lastStore.filter (· != h) = some k := hk
      rw [Option.filter_eq_some_iff, Option.filter_eq_some_iff] at hk
      refine ⟨hk.imp And.left And.left, ?_⟩
      rintro rfl
      obtain ⟨-, hne⟩ | ⟨-, hne⟩ := hk <;> exact absurd rfl (bne_iff_ne.1 hne)
  | some other =>
      have hleft : (s.windows.release window.toList h).producer other = some k := hk
      rw [AliasTable.producer_release] at hleft
      split at hleft
      · cases hleft
      · next hkept =>
          -- What is left of `h` itself stands in a window that `h` does not carry.
          refine ⟨hleft, ?_⟩
          rintro rfl
          refine ⟨Option.some_ne_none other, fun hown => hkept ⟨?_, hleft⟩⟩
          rw [← hown]
          exact List.mem_singleton_self other

end Serializer

namespace Core

variable {W : Type}

theorem records_adapt {config : CoreConfig} {last point : Nat} {s : Serializer} {k : Handle}
    {w : Option Nat} (hk : (adapt config last point s).Records k w) : s.Records k w := by
  rw [adapt] at hk
  split at hk <;> split at hk <;> cases w <;> exact hk

variable [Surroundings W] {c d : Core W}

theorem serializer_commit (c : Core W) (h : Handle) (op : MicroOp) :
    (c.commit h op).serializer = c.serializer.release h op.window := by
  rw [commit, settle]
  split <;> rfl

theorem serialized_admitOp (hp : c.pool.WellFormed) {op : MicroOp}
    (hunordered : op.edges.order = none) :
    c.serializer.Serialized (c.admitOp op).1.handle op (c.admitOp op).2.serializer
      (c.admitOp op).1.op := by
  obtain ⟨entered, hentered, hserialized⟩ := Serializer.serialized_apply c.serializer
    (Pool.get?_insert_self hp (c.stamp op)) hunordered c.recovery.recovering
  rw [op_admitOp_of_entered hentered]
  exact ⟨hserialized.order, hserialized.records⟩

/-- What the serializer has recorded after a step is the operation that was admitted,
or was recorded before and has not committed. -/
theorem records_step {event : Option Event} (hp : c.pool.WellFormed) (hstep : Step c event d)
    (hunordered : ∀ a ∈ Event.admissions event.toList, a.offered.edges.order = none)
    {k : Handle} {w : Option Nat} (hk : d.serializer.Records k w) :
    (∃ a, event = some (.admitted a) ∧ a.handle = k ∧ a.op.inst.opcode.isMemory = true ∧
      (w = none ∨ a.op.window = w)) ∨
    c.serializer.Records k w ∧ ∀ n, event = some (.committed n) → k = n.handle →
      w ≠ none ∧ w ≠ n.op.window := by
  have hquiet : ∀ {e : Option Event}, Event.commits e.toList = [] → c.serializer.Records k w →
      c.serializer.Records k w ∧ ∀ n, e = some (.committed n) → k = n.handle →
        w ≠ none ∧ w ≠ n.op.window := by
    rintro e hcommits hk
    refine ⟨hk, ?_⟩
    rintro n rfl
    cases hcommits
  cases hstep with
  | activate | deactivate | issued | rest | charge | refuse | sample | holdRob | promote
  | dropRob | holdRetiring | dropRetiring => exact .inr (hquiet rfl hk)
  | arm => exact .inr (hquiet rfl (by cases w <;> exact hk))
  | recover => exact .inr (hquiet rfl (records_adapt hk))
  | fetch =>
      obtain ⟨_, _, _, heq⟩ := fetch_eq c
      rw [heq] at hk
      exact .inr (hquiet rfl hk)
  | tick =>
      obtain ⟨_, _, _, _, heq⟩ := tick_eq c
      rw [heq] at hk
      exact .inr (hquiet rfl hk)
  | decode =>
      obtain ⟨_, _, _, heq⟩ := decode_eq c
      rw [heq] at hk
      exact .inr (hquiet rfl hk)
  | executing h =>
      rw [executing_eq] at hk
      exact .inr (hquiet rfl hk)
  | executed h =>
      obtain ⟨-, heq⟩ | ⟨op, -, heq⟩ := executed_cases c h <;> rw [heq] at hk <;>
        exact .inr (hquiet rfl hk)
  | performed h =>
      obtain ⟨op, -, -, heq⟩ | ⟨-, heq⟩ := performed_cases c h <;> rw [heq] at hk <;>
        exact .inr (hquiet rfl hk)
  | replay h =>
      obtain ⟨world, recovery, stats, heq | heq⟩ := replay_eq c h <;> rw [heq] at hk <;>
        exact .inr (hquiet rfl hk)
  | @accept op world queue hroom hanswer hqueue =>
      have hop : op.edges.order = none := hunordered _ List.mem_cons_self
      have hserialized := serialized_admitOp (c := { c with world }) hp hop
      obtain hk | ⟨rfl, hmemory, hwindow⟩ := hserialized.records k w hk
      · exact .inr (hquiet rfl hk)
      · refine .inl ⟨_, rfl, rfl, ?_, hwindow⟩
        rw [inst_admitOp (c := { c with world }) hp]
        exact hmemory
  | @commit h op world htop hop hdelay hanswer =>
      rw [serializer_commit] at hk
      obtain ⟨hk, hgone⟩ := Serializer.records_release hk
      refine .inr ⟨hk, fun n hn hhandle => ?_⟩
      obtain rfl := Event.committed.inj (Option.some.inj hn)
      exact hgone hhandle

end Core

end OutOfOrder
