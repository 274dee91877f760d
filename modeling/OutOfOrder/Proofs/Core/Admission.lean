import OutOfOrder.Core.Admission
import OutOfOrder.Pool.Lemmas

/-!
# What an admission does

An admission goes through the pool, the serializer, the alias table and the
cluster, and touches the new operation three times on its way. What comes out
is simple: one handle, which named nothing before, now names an operation that
is the offered one except for what admission fills in, and no other handle
resolves differently.

The serializer is the one part that could disturb this, since it is handed the
whole pool. `Pool.Reordered` says how little it does there.
-/

namespace OutOfOrder

/-- The operation with another ordering edge and another window. -/
def MicroOp.reordered (op : MicroOp) (order : Option Handle) (window : Option Nat) :
    MicroOp :=
  { op with edges.order := order, window }

/-- The pool `q` differs from `p` at most in the ordering edge and the window of
the operation that `h` names. -/
structure Pool.Reordered (p q : Pool) (h : Handle) : Prop where
  wellFormed : q.WellFormed
  self : ∀ op, p.get? h = some op →
    ∃ order window, q.get? h = some (op.reordered order window)
  others : ∀ k, k ≠ h → q.get? k = p.get? k

namespace Serializer

theorem reordered_refl {p : Pool} (hp : p.WellFormed) (h : Handle) : p.Reordered p h where
  wellFormed := hp
  self := fun op hop => ⟨op.edges.order, op.window, hop⟩
  others := fun _ _ => rfl

theorem reordered_modify {p : Pool} (hp : p.WellFormed) (h : Handle)
    (order : MicroOp → Option Handle) (window : MicroOp → Option Nat) :
    p.Reordered (p.modify h fun op => op.reordered (order op) (window op)) h := by
  have hid : ∀ op : MicroOp, (op.reordered (order op) (window op)).id = op.id := fun _ => rfl
  refine ⟨Pool.wellFormed_modify hp h _, fun op hop => ⟨order op, window op, ?_⟩,
    fun k hk => Pool.get?_modify_of_ne hid hk⟩
  rw [Pool.get?_modify_self hid, hop, Option.map_some]

theorem reordered_chain {p : Pool} (hp : p.WellFormed) (prev : Option Handle) (h : Handle) :
    p.Reordered (chain p prev h) h := by
  unfold chain
  split
  · exact reordered_refl hp h
  · split
    · exact reordered_refl hp h
    · split
      · exact reordered_refl hp h
      · exact reordered_modify hp h _ MicroOp.window

theorem reordered_chainInWindow {p : Pool} (hp : p.WellFormed) (window : Nat)
    (prev : Option Handle) (h : Handle) : p.Reordered (chainInWindow p window prev h) h :=
  reordered_modify hp h _ _

theorem reordered_admitFull (s : Serializer) {p : Pool} (hp : p.WellFormed) (h : Handle)
    (op : MicroOp) : p.Reordered (s.admitFull p h op).2 h := by
  rw [admitFull]
  split
  · exact reordered_chain hp _ h
  · exact reordered_refl hp h

theorem reordered_admitStores (s : Serializer) {p : Pool} (hp : p.WellFormed) (h : Handle)
    (op : MicroOp) : p.Reordered (s.admitStores p h op).2 h := by
  rw [admitStores]
  split
  · exact reordered_chain hp _ h
  · split
    · exact reordered_chain hp _ h
    · exact reordered_refl hp h

theorem reordered_admitWindow (s : Serializer) {p : Pool} (hp : p.WellFormed) (h : Handle)
    (op : MicroOp) : p.Reordered (s.admitWindow p h op).2 h := by
  rw [admitWindow]
  dsimp only
  split
  · exact reordered_refl hp h
  · split
    · exact reordered_chainInWindow hp _ _ h
    · exact reordered_refl hp h

/-- Whatever the policy, serialization does no more to the pool than order the
operation that is admitted. -/
theorem reordered_apply (s : Serializer) {p : Pool} (hp : p.WellFormed) (h : Handle)
    (recovering : Bool) : p.Reordered (s.apply p h recovering).2 h := by
  rw [apply]
  dsimp only
  split
  · exact reordered_refl hp h
  · split
    · exact reordered_refl hp h
    · split
      · exact reordered_admitFull _ hp h _
      · exact reordered_admitStores _ hp h _
      · exact reordered_admitWindow _ hp h _

end Serializer

namespace Core

variable {W : Type} {c : Core W}

/-- Entering the pool gives a new handle to the stamped operation, ordered by
the serializer. -/
theorem reordered_enter (hp : c.pool.WellFormed) (op : MicroOp) :
    (c.pool.insert (c.stamp op)).2.Reordered (c.enter op).2.pool (c.enter op).1 :=
  Serializer.reordered_apply c.serializer (Pool.wellFormed_insert hp _) _ _

theorem get?_enter_self (hp : c.pool.WellFormed) (op : MicroOp) :
    ∃ order window, (c.enter op).2.pool.get? (c.enter op).1 =
      some ((c.stamp op).reordered order window) :=
  (reordered_enter hp op).self _ (Pool.get?_insert_self hp _)

variable [Surroundings W]

theorem offered_admitOp (c : Core W) (op : MicroOp) : (c.admitOp op).1.offered = op := rfl

/-- The new handle named nothing before. -/
theorem get?_admitOp_fresh (hp : c.pool.WellFormed) (op : MicroOp) :
    c.pool.get? (c.admitOp op).1.handle = none :=
  Pool.get?_insert_fresh hp _ _ rfl

/-- What came out of entering the pool is linked. -/
theorem op_admitOp_of_entered {op entered : MicroOp}
    (hentered : (c.enter op).2.pool.get? (c.enter op).1 = some entered) :
    (c.admitOp op).1.op = link c.aliases entered := by
  show link c.aliases (((c.enter op).2.pool.get? (c.enter op).1).getD op) = _
  rw [hentered, Option.getD_some]

/-- The admitted operation is the stamped one, linked and ordered. -/
theorem op_admitOp (hp : c.pool.WellFormed) (op : MicroOp) :
    ∃ order window, (c.admitOp op).1.op =
      link c.aliases ((c.stamp op).reordered order window) := by
  obtain ⟨order, window, hself⟩ := get?_enter_self hp op
  exact ⟨order, window, op_admitOp_of_entered hself⟩

theorem wellFormed_admitOp (hp : c.pool.WellFormed) (op : MicroOp) :
    (c.admitOp op).2.pool.WellFormed :=
  Pool.wellFormed_modify (reordered_enter hp op).wellFormed _ _

theorem pool_admitOp (c : Core W) (op : MicroOp) :
    (c.admitOp op).2.pool = (c.enter op).2.pool.modify (c.enter op).1 (link c.aliases) := by
  have hlinked : ∀ old, (c.enter op).2.pool.get? (c.enter op).1 = some old →
      (c.admitOp op).1.op = link c.aliases old := fun _ hold => op_admitOp_of_entered hold
  exact Pool.modify_congr hlinked

/-- The new handle names the admitted operation. -/
theorem get?_admitOp_self (hp : c.pool.WellFormed) (op : MicroOp) :
    (c.admitOp op).2.pool.get? (c.admitOp op).1.handle = some (c.admitOp op).1.op := by
  obtain ⟨order, window, hself⟩ := get?_enter_self hp op
  show _ = some (link c.aliases (((c.enter op).2.pool.get? (c.enter op).1).getD op))
  rw [pool_admitOp, hself]
  exact (Pool.get?_modify_self (f := link c.aliases) fun _ => rfl).trans (by rw [hself]; rfl)

/-- Every other handle resolves as before. -/
theorem get?_admitOp_of_ne (hp : c.pool.WellFormed) (op : MicroOp) {k : Handle}
    (hk : k ≠ (c.admitOp op).1.handle) : (c.admitOp op).2.pool.get? k = c.pool.get? k := by
  have hk : k ≠ (c.enter op).1 := hk
  rw [pool_admitOp, Pool.get?_modify_of_ne (f := link c.aliases) (fun _ => rfl) hk,
    (reordered_enter hp op).others k hk]
  exact Pool.get?_insert_of_ne hp hk

theorem id_admitOp (hp : c.pool.WellFormed) (op : MicroOp) : (c.admitOp op).1.op.id = op.id := by
  obtain ⟨order, window, hop⟩ := op_admitOp hp op
  rw [hop]
  rfl

theorem inst_admitOp (hp : c.pool.WellFormed) (op : MicroOp) :
    (c.admitOp op).1.op.inst = op.inst := by
  obtain ⟨order, window, hop⟩ := op_admitOp hp op
  rw [hop]
  rfl

theorem holdsRegister_admitOp (hp : c.pool.WellFormed) (op : MicroOp) :
    (c.admitOp op).1.op.holdsRegister = (op.holdsRegister || c.takesRegister op) := by
  obtain ⟨order, window, hop⟩ := op_admitOp hp op
  rw [hop]
  rfl

theorem freeRegs_admitOp (c : Core W) (op : MicroOp) :
    (c.admitOp op).2.freeRegs = if c.takesRegister op then c.freeRegs - 1 else c.freeRegs :=
  rfl

/-- An admitted operation becomes the producer of its destinations. -/
theorem producer_admitOp (c : Core W) (op : MicroOp) (r : Nat) :
    (c.admitOp op).2.producer r =
      if r ∈ (c.admitOp op).1.op.inst.dsts ∧ 0 < r ∧ r < registerCount
      then some (c.admitOp op).1.handle else c.producer r :=
  AliasTable.producer_setAll c.aliases _ r _

end Core

end OutOfOrder
