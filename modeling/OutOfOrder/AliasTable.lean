import OutOfOrder.MicroOp

/-!
# Who writes a register last

The alias table maps a logical register to the latest micro-operation in
flight that writes it, or to nothing when the value is architectural. The same
table, read as a table of register windows, serves the finest level of
serialization.

Register 0 never has a producer, and registers outside the table have none
either, so both can be recorded and cleared without effect.
-/

namespace OutOfOrder

/-- Logical registers that rename tracks: 32 integer and 32 floating point. -/
abbrev registerCount : Nat := 64

structure AliasTable where
  entries : Vector (Option Handle) registerCount

namespace AliasTable

def empty : AliasTable := ⟨Vector.replicate registerCount none⟩

def producer (t : AliasTable) (reg : Nat) : Option Handle := t.entries[reg]?.join

def set (t : AliasTable) (reg : Nat) (h : Handle) : AliasTable :=
  if reg = 0 then t else ⟨t.entries.setIfInBounds reg (some h)⟩

def clear (t : AliasTable) (reg : Nat) : AliasTable :=
  ⟨t.entries.setIfInBounds reg none⟩

/-- Forgets the producer of a register if it is `h`, so that an older writer
never erases a newer one. -/
def clearIf (t : AliasTable) (reg : Nat) (h : Handle) : AliasTable :=
  if t.producer reg = some h then t.clear reg else t

/-- Records `h` as the latest producer of several registers. -/
def setAll (t : AliasTable) (regs : List Nat) (h : Handle) : AliasTable :=
  regs.foldl (fun t reg => t.set reg h) t

def clearAll (t : AliasTable) (regs : List Nat) : AliasTable := regs.foldl clear t

/-- Forgets `h` wherever it is the producer of one of the registers. -/
def release (t : AliasTable) (regs : List Nat) (h : Handle) : AliasTable :=
  regs.foldl (fun t reg => t.clearIf reg h) t

@[simp]
theorem producer_empty (reg : Nat) : empty.producer reg = none := by
  simp only [producer, empty, Vector.getElem?_replicate]
  split <;> rfl

/-- A register that can hold a value gets the new producer; no other register
changes. -/
theorem producer_set (t : AliasTable) (reg other : Nat) (h : Handle) :
    (t.set reg h).producer other =
      if other = reg ∧ 0 < reg ∧ reg < registerCount then some h else t.producer other := by
  rw [set]
  split
  · next h0 => simp [h0]
  · next h0 =>
    simp only [producer]
    by_cases heq : other = reg
    · subst heq
      by_cases hlt : other < registerCount
      · simp [hlt, Nat.pos_of_ne_zero h0]
      · simp [hlt]
    · simp [heq, Vector.getElem?_setIfInBounds_ne (Ne.symm heq)]

/-- Several registers at once: each that can hold a value gets the new
producer. -/
theorem producer_setAll (t : AliasTable) (regs : List Nat) (other : Nat) (h : Handle) :
    (t.setAll regs h).producer other =
      if other ∈ regs ∧ 0 < other ∧ other < registerCount then some h
      else t.producer other := by
  rw [setAll]
  induction regs generalizing t with
  | nil => simp
  | cons reg regs ih =>
    rw [List.foldl_cons, ih, producer_set]
    by_cases heq : other = reg
    · subst heq
      by_cases hreg : 0 < other ∧ other < registerCount <;> simp [hreg]
    · simp [heq]

theorem producer_clear (t : AliasTable) (reg other : Nat) :
    (t.clear reg).producer other = if other = reg then none else t.producer other := by
  rw [clear]
  simp only [producer]
  by_cases heq : other = reg
  · subst heq
    by_cases hlt : other < registerCount
    · simp [hlt]
    · simp [hlt]
  · simp [heq, Vector.getElem?_setIfInBounds_ne (Ne.symm heq)]

theorem producer_clearAll (t : AliasTable) (regs : List Nat) (other : Nat) :
    (t.clearAll regs).producer other = if other ∈ regs then none else t.producer other := by
  rw [clearAll]
  induction regs generalizing t with
  | nil => simp
  | cons reg regs ih =>
    rw [List.foldl_cons, ih, producer_clear]
    by_cases heq : other = reg <;> simp [heq]

theorem producer_clearIf (t : AliasTable) (reg other : Nat) (h : Handle) :
    (t.clearIf reg h).producer other =
      if other = reg ∧ t.producer reg = some h then none else t.producer other := by
  rw [clearIf]
  split
  · next heq => simp [producer_clear, heq]
  · next hne => simp [hne]

/-- After a release `h` is the producer of none of the registers, and nothing
else has changed. -/
theorem producer_release (t : AliasTable) (regs : List Nat) (other : Nat) (h : Handle) :
    (t.release regs h).producer other =
      if other ∈ regs ∧ t.producer other = some h then none else t.producer other := by
  rw [release]
  induction regs generalizing t with
  | nil => simp
  | cons reg regs ih =>
    rw [List.foldl_cons, ih, producer_clearIf]
    by_cases heq : other = reg
    · subst heq
      by_cases hp : t.producer other = some h <;> simp [hp]
    · simp [heq]

end AliasTable

end OutOfOrder
