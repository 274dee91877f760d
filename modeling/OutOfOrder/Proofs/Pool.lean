import Mathlib.Data.List.Perm.Subperm
import OutOfOrder.Pool.Lemmas
import OutOfOrder.Proofs.Lasts

/-!
# What a handle names

A handle is given out when an operation is stored, and it names that operation, with the
changes that are made through it, until the operation is released. Slots are taken again and
identifiers may repeat, so a handle may come back; but it never comes back while it still
names something, and then it names the new operation only.

`Named` reads this off the past. Each command concerns one handle, and the one lemma about
the past, `named_append`, says what the last event makes of a name. The pool agrees with it
because its free list names the empty slots and no others: nothing is stored where something
is, so no command reaches an operation through another one's handle.

Nothing is assumed of the handles that changes and releases are asked for. They may have been
given out long ago, or never.
-/

namespace OutOfOrder

/-- A change of an operation in its slot. It keeps the identifier; without it the handle
would not find the operation again. -/
structure MicroOp.Change where
  apply : MicroOp → MicroOp
  id_apply : ∀ op, (apply op).id = op.id

/-- Everything that can be done to a pool. -/
inductive PoolCommand
  | insert (op : MicroOp)
  | update (h : Handle) (change : MicroOp.Change)
  | remove (h : Handle)

/-- Something that happened to a pool. -/
inductive PoolEvent
  | inserted (h : Handle) (op : MicroOp)
  | updated (h : Handle) (change : MicroOp.Change)
  | removed (h : Handle) (op : MicroOp)

namespace PoolEvent

def change? (h : Handle) : PoolEvent → Option MicroOp.Change
  | updated k change => if k = h then some change else none
  | _ => none

def isInsertion : PoolEvent → Bool
  | inserted _ _ => true
  | _ => false

def isRemoval : PoolEvent → Bool
  | removed _ _ => true
  | _ => false

/-- Makes the changes that were made through a handle, one after the other. -/
def changed (h : Handle) (op : MicroOp) (events : List PoolEvent) : MicroOp :=
  (events.filterMap (change? h)).foldl (fun op change => change.apply op) op

/-- By the past, the handle `h` was given out and not released since, and the operation that
it was given out for has become `op` by the changes that were made through it. -/
def Named (h : Handle) (op : MicroOp) (past : List PoolEvent) : Prop :=
  ∃ before first after, past = before ++ .inserted h first :: after ∧
    (∀ last, .removed h last ∉ after) ∧ op = changed h first after

variable {h : Handle} {op : MicroOp} {past : List PoolEvent} {last : PoolEvent}

theorem not_named_nil : ¬ Named h op [] := by
  rintro ⟨before, first, after, heq, -⟩
  simp at heq

theorem changed_append (h : Handle) (op : MicroOp) (first second : List PoolEvent) :
    changed h op (first ++ second) = changed h (changed h op first) second := by
  rw [changed, List.filterMap_append, List.foldl_append]
  rfl

theorem changed_inserted (h k : Handle) (op first : MicroOp) :
    changed h op [.inserted k first] = op := rfl

theorem changed_removed (h k : Handle) (op gone : MicroOp) :
    changed h op [.removed k gone] = op := rfl

theorem changed_updated (h k : Handle) (op : MicroOp) (change : MicroOp.Change) :
    changed h op [.updated k change] = if k = h then change.apply op else op := by
  by_cases hk : k = h <;> simp [changed, change?, hk]

/-- What happens last gives a name to the operation, or leaves it the name, and may change
it. -/
theorem named_append : Named h op (past ++ [last]) ↔ last = .inserted h op ∨
    (∀ gone, last ≠ .removed h gone) ∧ ∃ now, Named h now past ∧ op = changed h now [last] := by
  constructor
  · rintro ⟨before, first, after, heq, hkept, rfl⟩
    rcases split_append_singleton heq with ⟨rfl, -, rfl⟩ | ⟨front, rfl, hpast⟩
    · exact .inl rfl
    · refine .inr ⟨fun gone hgone => hkept gone (by simp [hgone]), changed h first front, ?_, ?_⟩
      · exact ⟨before, first, front, hpast, fun gone hgone => hkept gone (by simp [hgone]), rfl⟩
      · exact changed_append h first front [last]
  · rintro (rfl | ⟨hlast, now, ⟨before, first, after, rfl, hkept, rfl⟩, rfl⟩)
    · exact ⟨past, op, [], rfl, fun _ => List.not_mem_nil, rfl⟩
    · refine ⟨before, first, after ++ [last], by simp, fun gone hgone => ?_, ?_⟩
      · rw [List.mem_append, List.mem_singleton] at hgone
        exact hgone.elim (hkept gone) fun heq => hlast gone heq.symm
      · exact (changed_append h first after [last]).symm

end PoolEvent

namespace Pool

open PoolEvent

/-- Carries out a command, and says what happens. A handle that names nothing is neither
changed through nor released. -/
def perform (p : Pool) : PoolCommand → List PoolEvent × Pool
  | .insert op => ([.inserted (p.insert op).1 op], (p.insert op).2)
  | .update h change =>
    (((p.get? h).map fun _ => .updated h change).toList, p.modify h change.apply)
  | .remove h =>
    match p.take? h with
    | some (op, p) => ([.removed h op], p)
    | none => ([], p)

def run (p : Pool) : List PoolCommand → List PoolEvent × Pool
  | [] => ([], p)
  | command :: rest =>
    let (events, p) := p.perform command
    let (others, p) := p.run rest
    (events ++ others, p)

variable {p : Pool} {past : List PoolEvent}

/-! ## One command -/

theorem perform_update_of_live {h : Handle} {op : MicroOp} (hop : p.get? h = some op)
    (change : MicroOp.Change) :
    p.perform (.update h change) = ([.updated h change], p.modify h change.apply) := by
  simp [perform, hop]

theorem perform_update_of_none {h : Handle} (hop : p.get? h = none) (change : MicroOp.Change) :
    p.perform (.update h change) = ([], p) := by
  simp [perform, hop, modify_of_get?_eq_none hop]

theorem perform_remove_of_live {h : Handle} {op : MicroOp} (hop : p.get? h = some op) :
    p.perform (.remove h) = ([.removed h op], p.erase h) := by
  simp [perform, take?, hop]

theorem perform_remove_of_none {h : Handle} (hop : p.get? h = none) :
    p.perform (.remove h) = ([], p) := by
  simp [perform, take?, hop]

theorem length_free_le (hp : p.WellFormed) : p.free.length ≤ p.slots.size := by
  have hsub : p.free ⊆ List.range p.slots.size := by
    intro i hi
    rw [List.mem_range]
    exact (Array.getElem?_eq_some_iff.1 ((hp.mem_free i).1 hi)).1
  have hlength := (List.Nodup.subperm hp.nodup hsub).length_le
  rwa [List.length_range] at hlength

theorem size_insert (hp : p.WellFormed) (op : MicroOp) : (p.insert op).2.size = p.size + 1 := by
  have hle := length_free_le hp
  unfold insert
  split
  · next slot free hfree =>
      rw [hfree, List.length_cons] at hle
      simp [size, hfree]
      omega
  · next hfree => simp [size, hfree]

theorem size_modify (p : Pool) (h : Handle) (f : MicroOp → MicroOp) :
    (p.modify h f).size = p.size := by
  unfold modify
  split <;> simp [size]

theorem size_erase (hp : p.WellFormed) {h : Handle} {op : MicroOp} (hop : p.get? h = some op) :
    (p.erase h).size + 1 = p.size := by
  have hle := length_free_le (wellFormed_erase hp h)
  rw [erase, hop] at hle ⊢
  simp only [size, Array.size_setIfInBounds, List.length_cons] at hle ⊢
  omega

/-! ## Runs -/

/-- The pool is as its past says: its handles name what they should, and it holds what was
stored and not released. -/
structure Kept (past : List PoolEvent) (p : Pool) : Prop where
  wellFormed : p.WellFormed
  named : ∀ h op, p.get? h = some op ↔ Named h op past
  count : past.countP isInsertion = past.countP isRemoval + p.size

namespace Kept

theorem withCapacity (capacity : Nat) : Kept [] (withCapacity capacity) where
  wellFormed := wellFormed_withCapacity capacity
  named := fun h op => by simp [get?_withCapacity, not_named_nil]
  count := by simp [Pool.withCapacity, size]

theorem insert (hk : Kept past p) (op : MicroOp) :
    Kept (past ++ [.inserted (p.insert op).1 op]) (p.insert op).2 where
  wellFormed := wellFormed_insert hk.wellFormed op
  named := by
    intro h now
    rw [named_append, inserted.injEq]
    by_cases hh : h = (p.insert op).1
    · -- The handle named nothing before, so it names the new operation only.
      have hfresh : ∀ old, ¬ Named h old past := by
        intro old hold
        have hlive := (hk.named h old).2 hold
        rw [get?_insert_fresh hk.wellFormed op h (congrArg Handle.slot hh)] at hlive
        exact absurd hlive (by simp)
      rw [hh, get?_insert_self hk.wellFormed]
      rw [hh] at hfresh
      simp [hfresh]
    · rw [get?_insert_of_ne hk.wellFormed hh, hk.named]
      simp [Ne.symm hh, changed_inserted]
  count := by
    have hsize := size_insert hk.wellFormed op
    have hcount := hk.count
    simp only [List.countP_append, List.countP_singleton, isInsertion, isRemoval, if_true]
    simp
    omega

theorem update (hk : Kept past p) {h : Handle} {op : MicroOp} (hop : p.get? h = some op)
    (change : MicroOp.Change) :
    Kept (past ++ [.updated h change]) (p.modify h change.apply) where
  wellFormed := wellFormed_modify hk.wellFormed h change.apply
  named := by
    intro k now
    rw [named_append]
    by_cases hkh : k = h
    · rw [hkh, get?_modify_self change.id_apply, hop]
      have hnamed : ∀ old, Named h old past ↔ op = old := by
        intro old
        rw [← hk.named, hop, Option.some.injEq]
      simp [hnamed, eq_comm, changed_updated]
    · rw [get?_modify_of_ne change.id_apply hkh, hk.named]
      simp [Ne.symm hkh, changed_updated]
  count := by
    have hsize := size_modify p h change.apply
    have hcount := hk.count
    simp [isInsertion, isRemoval]
    omega

theorem remove (hk : Kept past p) {h : Handle} {op : MicroOp} (hop : p.get? h = some op) :
    Kept (past ++ [.removed h op]) (p.erase h) where
  wellFormed := wellFormed_erase hk.wellFormed h
  named := by
    intro k now
    rw [named_append]
    by_cases hkh : k = h
    · rw [hkh, get?_erase_self]
      simp
    · rw [get?_erase_of_ne hkh, hk.named]
      simp [Ne.symm hkh, changed_removed]
  count := by
    have hsize := size_erase hk.wellFormed hop
    have hcount := hk.count
    simp [isInsertion, isRemoval]
    omega

theorem perform (hk : Kept past p) (command : PoolCommand) :
    Kept (past ++ (p.perform command).1) (p.perform command).2 := by
  cases command with
  | insert op => exact hk.insert op
  | update h change =>
      cases hop : p.get? h with
      | none =>
          rw [perform_update_of_none hop, List.append_nil]
          exact hk
      | some op =>
          rw [perform_update_of_live hop]
          exact hk.update hop change
  | remove h =>
      cases hop : p.get? h with
      | none =>
          rw [perform_remove_of_none hop, List.append_nil]
          exact hk
      | some op =>
          rw [perform_remove_of_live hop]
          exact hk.remove hop

theorem run (hk : Kept past p) (commands : List PoolCommand) :
    Kept (past ++ (p.run commands).1) (p.run commands).2 := by
  induction commands generalizing past p with
  | nil =>
      rw [Pool.run, List.append_nil]
      exact hk
  | cons command rest ih =>
      have hrest := ih (hk.perform command)
      rw [List.append_assoc] at hrest
      exact hrest

end Kept

/-- After the past, no two operations have ever shared a slot of the pool. -/
structure Exclusive (past : List PoolEvent) (p : Pool) : Prop where
  /-- The free list names the empty slots and no others, each of them once. -/
  mem_free : ∀ i, i ∈ p.free ↔ p.slots[i]? = some none
  nodup : p.free.Nodup
  /-- What is stored next goes to a slot that is empty, or to a new one behind all others. -/
  vacant : ∀ op, p.slots[(p.insert op).1.slot]? = some none ∨
    p.free = [] ∧ (p.insert op).1.slot = p.slots.size
  /-- The number of that slot is below the number of slots. -/
  inside : ∀ op, (p.insert op).1.slot < (p.insert op).2.slots.size
  /-- It overwrites nothing that a handle names, -/
  unnamed : ∀ op h, h.slot = (p.insert op).1.slot → p.get? h = none
  /-- is found under its handle, -/
  stored : ∀ op, (p.insert op).1.id = op.id ∧ (p.insert op).2.get? (p.insert op).1 = some op
  /-- and leaves what every other handle names. -/
  others : ∀ op h, h ≠ (p.insert op).1 → (p.insert op).2.get? h = p.get? h
  /-- Different handles that both name something have different slots. -/
  apart : ∀ h k, p.get? h ≠ none → p.get? k ≠ none → h ≠ k → h.slot ≠ k.slot
  /-- A handle names the operation that it was given out for and that was not released since,
  with exactly the changes that were made through it. -/
  named : ∀ h op, p.get? h = some op ↔ Named h op past
  /-- What is released is handed back as it was. -/
  released : ∀ h op, p.get? h = some op → (p.perform (.remove h)).1 = [.removed h op]
  /-- A release that fails changes nothing, and it fails if the handle names nothing. -/
  refused : ∀ h, p.get? h = none → p.perform (.remove h) = ([], p)
  /-- The pool holds as many operations as were stored less those that were released. -/
  size : past.countP isRemoval ≤ past.countP isInsertion ∧
    p.size = past.countP isInsertion - past.countP isRemoval

theorem slot_insert (hp : p.WellFormed) (op : MicroOp) :
    (p.slots[(p.insert op).1.slot]? = some none ∨
      p.free = [] ∧ (p.insert op).1.slot = p.slots.size) ∧
      (p.insert op).1.slot < (p.insert op).2.slots.size := by
  have hself := (get?_eq_some_iff.1 (get?_insert_self hp op)).1
  refine ⟨?_, (Array.getElem?_eq_some_iff.1 hself).1⟩
  unfold insert
  split
  · next slot free hfree =>
      exact .inl ((hp.mem_free slot).1 (by simp [hfree]))
  · next hfree => exact .inr ⟨hfree, rfl⟩

/-- **Slots are never shared.** Whatever is stored, changed and released in a pool of whatever
capacity, with whatever handles and identifiers, every handle names its own operation and
nothing else. -/
theorem exclusive_run (capacity : Nat) (commands : List PoolCommand) :
    Exclusive ((withCapacity capacity).run commands).1 ((withCapacity capacity).run commands).2 := by
  have hk := (Kept.withCapacity capacity).run commands
  rw [List.nil_append] at hk
  have hp := hk.wellFormed
  have hcount := hk.count
  exact {
    mem_free := hp.mem_free
    nodup := hp.nodup
    vacant := fun op => (slot_insert hp op).1
    inside := fun op => (slot_insert hp op).2
    unnamed := fun op h => get?_insert_fresh hp op h
    stored := fun op => ⟨id_insert _ op, get?_insert_self hp op⟩
    others := fun op h => get?_insert_of_ne hp
    apart := fun h k hh hk' hne heq =>
      hne (eq_of_slot_eq (Option.isSome_iff_ne_none.2 hh) (Option.isSome_iff_ne_none.2 hk') heq)
    named := hk.named
    released := fun h op hop => by rw [perform_remove_of_live hop]
    refused := fun h => perform_remove_of_none
    size := by omega }

end Pool

end OutOfOrder
