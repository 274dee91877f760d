import OutOfOrder.Pool.Basic

/-!
# Slots are never shared

In a well-formed pool the free list names exactly the empty slots, each once.
That makes every insertion take a slot which holds nothing, so it changes what
no live handle resolves to, and it makes the three operations expressible
through `get?` alone: insertion adds one handle, a change is seen through its
own handle, and a release takes its own handle away.

A change is required to keep the identifier, as every change in this library
does; a handle would lose its operation otherwise.
-/

namespace OutOfOrder.Pool

/-- The free list names the empty slots, each once. -/
structure WellFormed (p : Pool) : Prop where
  nodup : p.free.Nodup
  mem_free : ∀ i, i ∈ p.free ↔ p.slots[i]? = some none

theorem get?_eq_some_iff {p : Pool} {h : Handle} {op : MicroOp} :
    p.get? h = some op ↔ p.slots[h.slot]? = some (some op) ∧ op.id = h.id := by
  rw [get?]
  rw [Option.filter_eq_some_iff, Option.join_eq_some_iff]
  simp

theorem id_of_get? {p : Pool} {h : Handle} {op : MicroOp} (hop : p.get? h = some op) :
    op.id = h.id := (get?_eq_some_iff.1 hop).2

/-- Live handles of one slot are the same handle. -/
theorem eq_of_slot_eq {p : Pool} {h k : Handle} (hh : (p.get? h).isSome)
    (hk : (p.get? k).isSome) (heq : h.slot = k.slot) : h = k := by
  obtain ⟨a, ha⟩ := Option.isSome_iff_exists.1 hh
  obtain ⟨b, hb⟩ := Option.isSome_iff_exists.1 hk
  obtain ⟨has, hai⟩ := get?_eq_some_iff.1 ha
  obtain ⟨hbs, hbi⟩ := get?_eq_some_iff.1 hb
  rw [heq, hbs] at has
  simp only [Option.some.injEq] at has
  subst has
  cases h; cases k
  simp_all

private theorem get?_congr {p q : Pool} {h : Handle} (heq : q.slots[h.slot]? = p.slots[h.slot]?) :
    q.get? h = p.get? h := by
  unfold get?; rw [heq]

theorem wellFormed_withCapacity (n : Nat) : (withCapacity n).WellFormed where
  nodup := by simpa [withCapacity] using List.nodup_range
  mem_free := by
    intro i
    simp [withCapacity, Array.getElem?_replicate]

theorem get?_withCapacity (n : Nat) (h : Handle) : (withCapacity n).get? h = none := by
  simp only [get?, withCapacity, Array.getElem?_replicate]
  split <;> simp

theorem wellFormed_insert {p : Pool} (hp : p.WellFormed) (op : MicroOp) :
    (p.insert op).2.WellFormed := by
  rw [insert]
  split
  · next slot free hfree =>
    have hnodup := hp.nodup
    rw [hfree, List.nodup_cons] at hnodup
    have hslot := (hp.mem_free slot).1 (by rw [hfree]; exact List.mem_cons_self)
    have hlt : slot < p.slots.size := (Array.getElem?_eq_some_iff.1 hslot).1
    refine ⟨hnodup.2, fun i => ?_⟩
    have hi := hp.mem_free i
    rw [hfree, List.mem_cons] at hi
    by_cases heq : i = slot
    · subst heq
      simp only [Array.getElem?_setIfInBounds_self_of_lt hlt]
      simp [hnodup.1]
    · simp only [Array.getElem?_setIfInBounds_ne (Ne.symm heq)]
      rw [← hi]; simp [heq]
  · next hfree =>
    refine ⟨by simp [hfree], fun i => ?_⟩
    have hi := hp.mem_free i
    simp only [hfree, List.not_mem_nil, false_iff] at hi ⊢
    rw [Array.getElem?_push]
    split
    · simp
    · exact hi

/-- The slot of a new handle held nothing. -/
theorem get?_insert_fresh {p : Pool} (hp : p.WellFormed) (op : MicroOp) (h : Handle)
    (heq : h.slot = (p.insert op).1.slot) : p.get? h = none := by
  rw [insert] at heq
  split at heq
  · next slot free hfree =>
    have hslot := (hp.mem_free slot).1 (by rw [hfree]; exact List.mem_cons_self)
    simp only at heq
    simp [get?, heq, hslot]
  · simp only at heq
    simp [get?, heq]

theorem id_insert (p : Pool) (op : MicroOp) : (p.insert op).1.id = op.id := by
  unfold insert; split <;> rfl

theorem get?_insert_self {p : Pool} (hp : p.WellFormed) (op : MicroOp) :
    (p.insert op).2.get? (p.insert op).1 = some op := by
  rw [get?_eq_some_iff]
  refine ⟨?_, (id_insert p op).symm⟩
  rw [insert]
  split
  · next slot free hfree =>
    have hslot := (hp.mem_free slot).1 (by rw [hfree]; exact List.mem_cons_self)
    have hlt : slot < p.slots.size := (Array.getElem?_eq_some_iff.1 hslot).1
    simp only [Array.getElem?_setIfInBounds_self_of_lt hlt]
  · simp

theorem get?_insert_of_slot_ne {p : Pool} {op : MicroOp} {h : Handle}
    (hne : h.slot ≠ (p.insert op).1.slot) : (p.insert op).2.get? h = p.get? h := by
  apply get?_congr
  unfold insert at hne ⊢
  split
  · next slot free hfree =>
    simp only [hfree] at hne
    simp only [Array.getElem?_setIfInBounds_ne (Ne.symm hne)]
  · next hfree =>
    simp only [hfree] at hne
    simp only [Array.getElem?_push, hne, if_false]

/-- Only the new handle resolves differently after an insertion. -/
theorem get?_insert_of_ne {p : Pool} (hp : p.WellFormed) {op : MicroOp} {h : Handle}
    (hne : h ≠ (p.insert op).1) : (p.insert op).2.get? h = p.get? h := by
  by_cases heq : h.slot = (p.insert op).1.slot
  · rw [get?_insert_fresh hp op h heq]
    cases hh : (p.insert op).2.get? h with
    | none => rfl
    | some other =>
        have hself := get?_insert_self hp op
        exact absurd (eq_of_slot_eq (by rw [hh]; rfl) (by rw [hself]; rfl) heq) hne
  · exact get?_insert_of_slot_ne heq

theorem wellFormed_modify {p : Pool} (hp : p.WellFormed) (h : Handle) (f : MicroOp → MicroOp) :
    (p.modify h f).WellFormed := by
  rw [modify]
  split
  · next op hop =>
    obtain ⟨hs, _⟩ := get?_eq_some_iff.1 hop
    have hlt : h.slot < p.slots.size := (Array.getElem?_eq_some_iff.1 hs).1
    refine ⟨hp.nodup, fun i => ?_⟩
    by_cases heq : i = h.slot
    · subst heq
      rw [Array.getElem?_setIfInBounds_self_of_lt hlt]
      simp [hp.mem_free, hs]
    · rw [Array.getElem?_setIfInBounds_ne (Ne.symm heq)]
      exact hp.mem_free i
  · exact hp

theorem get?_modify_self {p : Pool} {h : Handle} {f : MicroOp → MicroOp}
    (hf : ∀ op, (f op).id = op.id) : (p.modify h f).get? h = (p.get? h).map f := by
  rw [modify]
  split
  · next op hop =>
    obtain ⟨hs, hid⟩ := get?_eq_some_iff.1 hop
    have hlt : h.slot < p.slots.size := (Array.getElem?_eq_some_iff.1 hs).1
    rw [hop, Option.map_some, get?_eq_some_iff]
    exact ⟨Array.getElem?_setIfInBounds_self_of_lt hlt, (hf op).trans hid⟩
  · next hop => simp [hop]

theorem get?_modify_of_ne {p : Pool} {h k : Handle} {f : MicroOp → MicroOp}
    (hf : ∀ op, (f op).id = op.id) (hne : k ≠ h) : (p.modify h f).get? k = p.get? k := by
  rw [modify]
  split
  · next op hop =>
    obtain ⟨hs, hid⟩ := get?_eq_some_iff.1 hop
    have hlt : h.slot < p.slots.size := (Array.getElem?_eq_some_iff.1 hs).1
    by_cases heq : k.slot = h.slot
    · have hidne : k.id ≠ h.id := fun hi => hne (by cases h; cases k; simp_all)
      have h1 : op.id ≠ k.id := by rw [hid]; exact Ne.symm hidne
      have h2 : (f op).id ≠ k.id := by rw [hf, hid]; exact Ne.symm hidne
      simp only [get?, heq, Array.getElem?_setIfInBounds_self_of_lt hlt, hs]
      simp [Option.filter, h1, h2]
    · apply get?_congr
      exact Array.getElem?_setIfInBounds_ne (Ne.symm heq)
  · rfl

/-- What a change does to other operations than the one in the pool does not
matter. -/
theorem modify_congr {p : Pool} {h : Handle} {f g : MicroOp → MicroOp}
    (hfg : ∀ op, p.get? h = some op → f op = g op) : p.modify h f = p.modify h g := by
  unfold modify
  split
  · next op hop => rw [hfg op hop]
  · rfl

theorem modify_of_get?_eq_none {p : Pool} {h : Handle} {f : MicroOp → MicroOp}
    (hop : p.get? h = none) : p.modify h f = p := by
  unfold modify; rw [hop]

theorem wellFormed_erase {p : Pool} (hp : p.WellFormed) (h : Handle) :
    (p.erase h).WellFormed := by
  rw [erase]
  split
  · next op hop =>
    obtain ⟨hs, _⟩ := get?_eq_some_iff.1 hop
    have hlt : h.slot < p.slots.size := (Array.getElem?_eq_some_iff.1 hs).1
    refine ⟨List.nodup_cons.2 ⟨fun hmem => ?_, hp.nodup⟩, fun i => ?_⟩
    · rw [hp.mem_free, hs] at hmem
      simp at hmem
    · simp only [List.mem_cons]
      by_cases heq : i = h.slot
      · subst heq
        simp [Array.getElem?_setIfInBounds_self_of_lt hlt]
      · simp only [heq, false_or, Array.getElem?_setIfInBounds_ne (Ne.symm heq)]
        exact hp.mem_free i
  · exact hp

theorem get?_erase_self (p : Pool) (h : Handle) : (p.erase h).get? h = none := by
  rw [erase]
  split
  · next op hop =>
    obtain ⟨hs, _⟩ := get?_eq_some_iff.1 hop
    have hlt : h.slot < p.slots.size := (Array.getElem?_eq_some_iff.1 hs).1
    simp [get?, Array.getElem?_setIfInBounds_self_of_lt hlt]
  · next hop => exact hop

theorem get?_erase_of_ne {p : Pool} {h k : Handle} (hne : k ≠ h) :
    (p.erase h).get? k = p.get? k := by
  rw [erase]
  split
  · next op hop =>
    obtain ⟨hs, hid⟩ := get?_eq_some_iff.1 hop
    have hlt : h.slot < p.slots.size := (Array.getElem?_eq_some_iff.1 hs).1
    by_cases heq : k.slot = h.slot
    · have hidne : op.id ≠ k.id := fun hi => hne (by cases h; cases k; simp_all)
      simp only [get?, heq, Array.getElem?_setIfInBounds_self_of_lt hlt, hs]
      simp [Option.filter, hidne]
    · apply get?_congr
      exact Array.getElem?_setIfInBounds_ne (Ne.symm heq)
  · rfl

end OutOfOrder.Pool
