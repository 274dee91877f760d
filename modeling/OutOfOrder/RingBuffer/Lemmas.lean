import OutOfOrder.RingBuffer.Basic

/-!
# A ring is a list

A well-formed ring has its indices inside the array, its tail `count` places
after its head, and an entry in every place between. Under that invariant the
ring is described by `toList` alone: appending, removing and looking are what
they are on lists, and the invariant is kept.

The one fact about indices that everything rests on is that an offset below
the capacity wraps at most once.
-/

namespace OutOfOrder.RingBuffer

variable {α : Type}

/-- The indices fit together and every place between them is taken. -/
structure WellFormed (r : RingBuffer α) : Prop where
  count_le : r.count ≤ r.capacity
  head_lt : 0 < r.capacity → r.head < r.capacity
  tail_eq : 0 < r.capacity → r.tail = (r.head + r.count) % r.capacity
  filled : ∀ k < r.count, ((r.slots[(r.head + k) % r.capacity]?).join).isSome

theorem wrap_eq {head offset capacity : Nat} (hh : head < capacity) (ho : offset ≤ capacity) :
    (head + offset) % capacity =
      if head + offset < capacity then head + offset else head + offset - capacity := by
  split
  · next h => exact Nat.mod_eq_of_lt h
  · next h =>
    rw [Nat.mod_eq_sub_mod (by omega)]
    exact Nat.mod_eq_of_lt (by omega)

theorem wellFormed_withCapacity (n : Nat) : (withCapacity n : RingBuffer α).WellFormed where
  count_le := by simp [withCapacity, capacity]
  head_lt := by simp [withCapacity, capacity]
  tail_eq := by simp [withCapacity, capacity]
  filled := by simp [withCapacity]

theorem isSome_get? {r : RingBuffer α} (hr : r.WellFormed) {k : Nat} :
    (r.get? k).isSome ↔ k < r.count := by
  rw [get?]
  split
  · next h => simp [h, hr.filled k h]
  · next h => simp [h]

private theorem getElem?_filterMap_range {f : Nat → Option α} (n k : Nat)
    (hf : ∀ i < n, (f i).isSome) :
    ((List.range n).filterMap f)[k]? = if k < n then f k else none := by
  induction n with
  | zero => simp
  | succ n ih =>
    have ih := ih fun i hi => hf i (by omega)
    have hlen : ((List.range n).filterMap f).length = n := by
      have : ((List.range n).filterMap f).length = (List.range n).length := by
        rw [List.length_filterMap_eq_countP, List.countP_eq_length]
        intro i hi
        exact hf i (by have := List.mem_range.1 hi; omega)
      simpa using this
    obtain ⟨a, ha⟩ := Option.isSome_iff_exists.1 (hf n (by omega))
    rw [List.range_succ, List.filterMap_append, List.getElem?_append, hlen, ih]
    by_cases hk : k < n
    · simp [hk, Nat.lt_succ_of_lt hk]
    · by_cases hkn : k = n
      · subst hkn; simp [ha]
      · have h1 : ¬ k < n + 1 := by omega
        have h2 : k - n ≠ 0 := by omega
        simp [hk, h1, h2, ha]

theorem getElem?_toList {r : RingBuffer α} (hr : r.WellFormed) (k : Nat) :
    r.toList[k]? = r.get? k := by
  rw [toList, getElem?_filterMap_range _ _ fun i hi => (isSome_get? hr).2 hi]
  split
  · rfl
  · next h => simp [get?, h]

theorem length_toList {r : RingBuffer α} (hr : r.WellFormed) : r.toList.length = r.size := by
  have h1 : ∀ k, k < r.toList.length ↔ k < r.count := fun k => by
    rw [← isSome_get? hr, ← getElem?_toList hr]; simp
  have h2 := h1 r.count
  have h3 := h1 r.toList.length
  simp only [size]; omega

theorem isEmpty_iff {r : RingBuffer α} (hr : r.WellFormed) : r.isEmpty ↔ r.toList = [] := by
  rw [← List.length_eq_zero_iff, length_toList hr]; simp [isEmpty, size]

theorem top?_eq_head? {r : RingBuffer α} (hr : r.WellFormed) : r.top? = r.toList.head? := by
  rw [List.head?_eq_getElem?, getElem?_toList hr, top?, get?, isEmpty]
  by_cases h : r.count = 0
  · simp [h]
  · have hc : r.count ≤ r.capacity := hr.count_le
    have hh : r.head < r.capacity := hr.head_lt (by omega)
    have h0 : 0 < r.count := by omega
    simp [h, h0, Nat.mod_eq_of_lt hh]

theorem push?_eq_none_iff {r : RingBuffer α} {a : α} : r.push? a = none ↔ r.isFull := by
  unfold push?; split <;> simp_all

/-- A ring with room does not drop the entry. -/
theorem push?_eq_some_push {r : RingBuffer α} (a : α) (hroom : r.size < r.capacity) :
    r.push? a = some (r.push a) := by
  rw [push]
  cases h : r.push? a with
  | none =>
    have := push?_eq_none_iff.1 h
    simp only [isFull, beq_iff_eq, size] at this hroom
    omega
  | some s => rfl

private theorem push?_spec {r s : RingBuffer α} {a : α} (hr : r.WellFormed)
    (h : r.push? a = some s) :
    s.WellFormed ∧ s.count = r.count + 1 ∧ s.capacity = r.capacity ∧
      (∀ k < r.count, s.get? k = r.get? k) ∧ s.get? r.count = some a := by
  rw [push?] at h
  split at h
  · simp at h
  · next hfull =>
    simp only [isFull, beq_iff_eq] at hfull
    have hc : r.count < r.capacity := by have := hr.count_le; omega
    have hpos : 0 < r.capacity := by omega
    have hh := hr.head_lt hpos
    have ht := hr.tail_eq hpos
    simp only [Option.some.injEq] at h
    subst h
    have hcap : ∀ (t c : Nat), RingBuffer.capacity
        { r with slots := r.slots.setIfInBounds r.tail (some a), tail := t, count := c }
        = r.capacity := fun t c => by simp [capacity]
    have htl : r.tail < r.slots.size := by rw [ht]; exact Nat.mod_lt _ hpos
    have old : ∀ k < r.count,
        (r.slots.setIfInBounds r.tail (some a))[(r.head + k) % r.capacity]?
          = r.slots[(r.head + k) % r.capacity]? := fun k hk => by
      rw [Array.getElem?_setIfInBounds_ne]
      rw [ht, wrap_eq hh (by omega), wrap_eq hh (by omega)]
      split <;> split <;> omega
    have new : (r.slots.setIfInBounds r.tail (some a))[(r.head + r.count) % r.capacity]?
        = some (some a) := by
      rw [← ht, Array.getElem?_setIfInBounds_self_of_lt htl]
    refine ⟨⟨?_, ?_, ?_, ?_⟩, rfl, hcap _ _, ?_, ?_⟩
    · rw [hcap]; exact hc
    · intro _; rw [hcap]; exact hh
    · intro _; rw [hcap]; simp only
      rw [ht, Nat.mod_add_mod, Nat.add_assoc]
    · intro k hk
      simp only [hcap]
      by_cases hkc : k < r.count
      · rw [old k hkc]; exact hr.filled k hkc
      · have : k = r.count := by simp only at hk; omega
        subst this
        rw [new]; rfl
    · intro k hk
      simp only [get?, hcap]
      rw [old k hk]
      simp [hk, Nat.lt_succ_of_lt hk]
    · simp only [get?, hcap]
      rw [new]; simp

theorem wellFormed_push? {r s : RingBuffer α} {a : α} (hr : r.WellFormed) (h : r.push? a = some s) :
    s.WellFormed := (push?_spec hr h).1

theorem toList_push? {r s : RingBuffer α} {a : α} (hr : r.WellFormed) (h : r.push? a = some s) :
    s.toList = r.toList ++ [a] := by
  obtain ⟨hs, hcount, _, hold, hnew⟩ := push?_spec hr h
  apply List.ext_getElem?
  intro k
  rw [getElem?_toList hs, List.getElem?_append, length_toList hr, getElem?_toList hr, size]
  split
  · next hk => exact hold k hk
  · next hk =>
    by_cases hkc : k = r.count
    · subst hkc; simp [hnew]
    · have h1 : ¬ k < s.count := by omega
      have h2 : k - r.count ≠ 0 := by omega
      simp [get?, h1, h2]

theorem toList_withCapacity (n : Nat) : (withCapacity n : RingBuffer α).toList = [] := rfl

theorem capacity_withCapacity (n : Nat) : (withCapacity n : RingBuffer α).capacity = n := by
  simp [withCapacity, capacity]

theorem capacity_push? {r s : RingBuffer α} {a : α} (h : r.push? a = some s) :
    s.capacity = r.capacity := by
  rw [push?] at h
  split at h
  · simp at h
  · simp only [Option.some.injEq] at h
    subst h
    simp [capacity]

theorem capacity_push (r : RingBuffer α) (a : α) : (r.push a).capacity = r.capacity := by
  rw [push]
  cases h : r.push? a with
  | none => rfl
  | some s => exact capacity_push? h

theorem wellFormed_push {r : RingBuffer α} (hr : r.WellFormed) (a : α) : (r.push a).WellFormed := by
  rw [push]
  cases h : r.push? a with
  | none => exact hr
  | some s => exact wellFormed_push? hr h

/-- A ring with room takes the entry. -/
theorem toList_push {r : RingBuffer α} (hr : r.WellFormed) (a : α) (hroom : r.size < r.capacity) :
    (r.push a).toList = r.toList ++ [a] :=
  toList_push? hr (push?_eq_some_push a hroom)

private theorem pop_spec {r : RingBuffer α} (hr : r.WellFormed) :
    r.pop.WellFormed ∧ r.pop.capacity = r.capacity ∧
      ∀ k, r.pop.get? k = r.get? (k + 1) := by
  rw [pop]
  split
  · next h =>
    have h : r.count = 0 := by simpa [isEmpty] using h
    exact ⟨hr, rfl, fun k => by simp [get?, h]⟩
  · next h =>
    have h : r.count ≠ 0 := by simpa [isEmpty] using h
    have hc := hr.count_le
    have hpos : 0 < r.capacity := by omega
    have hh := hr.head_lt hpos
    have hcap : ∀ (hd c : Nat), RingBuffer.capacity
        { r with slots := r.slots.setIfInBounds r.head none, head := hd, count := c }
        = r.capacity := fun hd c => by simp [capacity]
    have idx : ∀ k, ((r.head + 1) % r.capacity + k) % r.capacity
        = (r.head + (k + 1)) % r.capacity := fun k => by
      rw [Nat.mod_add_mod]; congr 1; omega
    have old : ∀ k, k + 1 < r.count →
        (r.slots.setIfInBounds r.head none)[(r.head + (k + 1)) % r.capacity]?
          = r.slots[(r.head + (k + 1)) % r.capacity]? := fun k hk => by
      rw [Array.getElem?_setIfInBounds_ne]
      rw [wrap_eq hh (by omega)]
      split <;> omega
    refine ⟨⟨?_, ?_, ?_, ?_⟩, hcap _ _, ?_⟩
    · rw [hcap]; simp only; omega
    · intro _; rw [hcap]; exact Nat.mod_lt _ hpos
    · intro _
      rw [hcap]; simp only
      rw [idx, hr.tail_eq hpos]; congr 2; omega
    · intro k hk
      simp only at hk
      simp only [hcap]
      rw [idx, old k (by omega)]
      exact hr.filled (k + 1) (by omega)
    · intro k
      simp only [get?, hcap]
      rw [idx]
      by_cases hk : k + 1 < r.count
      · have hk' : k < r.count - 1 := by omega
        simp only [hk, hk', if_true]
        rw [old k hk]
      · have hk' : ¬ k < r.count - 1 := by omega
        simp [hk, hk']

theorem wellFormed_pop {r : RingBuffer α} (hr : r.WellFormed) : r.pop.WellFormed := (pop_spec hr).1

theorem capacity_pop {r : RingBuffer α} (hr : r.WellFormed) : r.pop.capacity = r.capacity :=
  (pop_spec hr).2.1

theorem toList_pop {r : RingBuffer α} (hr : r.WellFormed) : r.pop.toList = r.toList.tail := by
  apply List.ext_getElem?
  intro k
  rw [getElem?_toList (wellFormed_pop hr), (pop_spec hr).2.2, List.getElem?_tail,
    getElem?_toList hr]

end OutOfOrder.RingBuffer
