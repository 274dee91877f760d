import OutOfOrder.Pool.Lemmas

/-!
# What a pool holds

Through `get?` a pool is read one handle at a time. A law that counts the live
operations, or that follows all of them at once, needs them together: `ops`
lists them in the order of their slots.

That order carries no meaning, so what the operations on a pool do to the list
is said up to permutation. Each of them concerns one handle: it gives it to an
operation, changes the operation that it names, or takes it away.
`Pool.Replaced` is the common shape, and says that all the others stay.
-/

namespace OutOfOrder.Pool

/-- The live operations, in the order of their slots. -/
def ops (p : Pool) : List MicroOp := p.slots.toList.filterMap id

variable {p q : Pool} {h : Handle} {op : MicroOp}

theorem ops_withCapacity (n : Nat) : (withCapacity n).ops = [] := by
  simp [ops, withCapacity]

theorem mem_ops : op ∈ p.ops ↔ ∃ h, p.get? h = some op := by
  rw [ops, List.mem_filterMap]
  constructor
  · rintro ⟨slot, hslot, hop⟩
    obtain ⟨i, hi⟩ := List.mem_iff_getElem?.1 hslot
    have hop : slot = some op := hop
    rw [Array.getElem?_toList, hop] at hi
    exact ⟨⟨i, op.id⟩, get?_eq_some_iff.2 ⟨hi, rfl⟩⟩
  · rintro ⟨h, hop⟩
    have hslot := (get?_eq_some_iff.1 hop).1
    refine ⟨some op, List.mem_iff_getElem?.2 ⟨h.slot, ?_⟩, rfl⟩
    rw [Array.getElem?_toList]
    exact hslot

/-! ## Pools that resolve alike -/

private theorem filterMap_id_congr {α : Type} (xs ys : List (Option α))
    (hsame : ∀ i : Nat, xs[i]?.join = ys[i]?.join) : xs.filterMap id = ys.filterMap id := by
  have hempty : ∀ ys : List (Option α), (∀ i : Nat, none = ys[i]?.join) →
      ys.filterMap id = [] := by
    intro ys hnone
    rw [List.filterMap_eq_nil_iff]
    intro y hy
    obtain ⟨i, hi⟩ := List.mem_iff_getElem?.1 hy
    rw [id, hnone i, hi, Option.join_some]
  induction xs generalizing ys with
  | nil => exact (hempty ys hsame).symm
  | cons x xs ih =>
      cases ys with
      | nil => exact hempty (x :: xs) fun i => (hsame i).symm
      | cons y ys =>
          obtain rfl : x = y := hsame 0
          rw [List.filterMap_cons, List.filterMap_cons, ih ys fun i => hsame (i + 1)]

/-- Pools in which every handle resolves alike hold the same operations. -/
theorem ops_congr (hsame : ∀ h, q.get? h = p.get? h) : q.ops = p.ops := by
  have hslot : ∀ (p : Pool) (i : Nat) (op : MicroOp),
      p.slots.toList[i]?.join = some op ↔ p.get? ⟨i, op.id⟩ = some op := by
    intro p i op
    rw [Array.getElem?_toList, get?_eq_some_iff, Option.join_eq_some_iff]
    exact (and_iff_left rfl).symm
  refine filterMap_id_congr _ _ fun i => Option.ext fun op => ?_
  rw [hslot, hslot, hsame]

/-! ## One operation among the others -/

/-- A slot that is overwritten is the only part of the contents that changes. -/
private theorem filterMap_setIfInBounds {slots : Array (Option MicroOp)} {i : Nat}
    {v : Option MicroOp} (hv : slots[i]? = some v) :
    ∃ rest, (slots.toList.filterMap id).Perm (v.toList ++ rest) ∧
      ∀ w : Option MicroOp,
        ((slots.setIfInBounds i w).toList.filterMap id).Perm (w.toList ++ rest) := by
  obtain ⟨hi, hget⟩ := Array.getElem?_eq_some_iff.1 hv
  have hsplit : ∀ (before after : List (Option MicroOp)) (w : Option MicroOp),
      ((before ++ w :: after).filterMap id).Perm
        (w.toList ++ (before.filterMap id ++ after.filterMap id)) := by
    intro before after w
    rw [List.filterMap_append]
    cases w with
    | none => exact .refl _
    | some op => exact List.perm_middle
  have hi : i < slots.toList.length := Array.length_toList.symm ▸ hi
  have hself : slots.toList = slots.toList.take i ++ v :: slots.toList.drop (i + 1) := by
    rw [← hget, ← Array.getElem_toList, List.getElem_cons_drop, List.take_append_drop]
  refine ⟨_, (congrArg (List.filterMap id) hself).symm ▸ hsplit _ _ v, fun w => ?_⟩
  rw [Array.toList_setIfInBounds, List.set_eq_take_append_cons_drop, if_pos hi]
  exact hsplit _ _ w

/-- The pool `q` is `p` but for the handle `h`, which named `old` in `p` and names
`new` in `q`. -/
structure Replaced (p q : Pool) (h : Handle) (old new : Option MicroOp) : Prop where
  before : p.get? h = old
  after : q.get? h = new
  others : ∀ k, k ≠ h → q.get? k = p.get? k
  ops : ∃ rest, p.ops.Perm (old.toList ++ rest) ∧ q.ops.Perm (new.toList ++ rest)

theorem replaced_modify (hop : p.get? h = some op) {f : MicroOp → MicroOp}
    (hf : ∀ op, (f op).id = op.id) : p.Replaced (p.modify h f) h (some op) (some (f op)) where
  before := hop
  after := by rw [get?_modify_self hf, hop, Option.map_some]
  others := fun _ hk => get?_modify_of_ne hf hk
  ops := by
    obtain ⟨rest, hself, hset⟩ := filterMap_setIfInBounds (get?_eq_some_iff.1 hop).1
    refine ⟨rest, hself, ?_⟩
    rw [modify, hop]
    exact hset (some (f op))

theorem replaced_erase (hop : p.get? h = some op) : p.Replaced (p.erase h) h (some op) none where
  before := hop
  after := get?_erase_self p h
  others := fun _ hk => get?_erase_of_ne hk
  ops := by
    obtain ⟨rest, hself, hset⟩ := filterMap_setIfInBounds (get?_eq_some_iff.1 hop).1
    refine ⟨rest, hself, ?_⟩
    rw [erase, hop]
    exact hset none

theorem replaced_insert (hp : p.WellFormed) (op : MicroOp) :
    p.Replaced (p.insert op).2 (p.insert op).1 none (some op) where
  before := get?_insert_fresh hp op _ rfl
  after := get?_insert_self hp op
  others := fun _ hk => get?_insert_of_ne hp hk
  ops := by
    refine ⟨p.ops, .refl _, ?_⟩
    rw [insert]
    split
    · next slot free hfree =>
        have hslot := (hp.mem_free slot).1 (hfree ▸ List.mem_cons_self)
        obtain ⟨rest, hself, hset⟩ := filterMap_setIfInBounds hslot
        exact (hset (some op)).trans (hself.symm.cons op)
    · rw [ops, Array.toList_push, List.filterMap_append]
      exact List.perm_append_comm

/-- The handle of a new operation does not depend on more than its identifier. -/
theorem handle_insert_congr {op op' : MicroOp} (hid : op.id = op'.id) :
    (p.insert op).1 = (p.insert op').1 := by
  unfold insert
  split <;> simp [hid]

/-- Only what the handles resolve to matters. -/
theorem Replaced.congr {old new : Option MicroOp} {q' : Pool} (hq : p.Replaced q h old new)
    (hsame : ∀ k, q'.get? k = q.get? k) : p.Replaced q' h old new where
  before := hq.before
  after := (hsame h).trans hq.after
  others := fun k hk => (hsame k).trans (hq.others k hk)
  ops := ops_congr hsame ▸ hq.ops

end OutOfOrder.Pool
