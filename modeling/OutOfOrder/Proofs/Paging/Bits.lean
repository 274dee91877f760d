import Mathlib.Algebra.Group.Nat.Defs
import OutOfOrder.Paging.Reference
import OutOfOrder.Paging.Walk

/-!
# Masks and shifts are division and remainder

The walkers cut words apart with masks and shifts, and the reference walk
divides natural numbers. Here the two are the same, field by field: the table
index, the flags and the page number of an entry, and the address that a leaf
leads to.

The composed address is where it matters that a large page is aligned. The low
bits of its page number are clear, so putting the bits of the virtual address
there adds them, and nothing carries.
-/

namespace OutOfOrder.Paging

/-! ## Words -/

/-- A right shift by less than the width of a word divides. -/
theorem toNat_shiftRight_ofNat (x : UInt64) {k : Nat} (hk : k < 64) :
    (x >>> UInt64.ofNat k).toNat = x.toNat / 2 ^ k := by
  have hmod : (UInt64.ofNat k).toNat % 64 = k := by
    rw [UInt64.toNat_ofNat']
    omega
  rw [UInt64.toNat_shiftRight, hmod, Nat.shiftRight_eq_div_pow]

/-- A left shift multiplies, as long as nothing is lost at the top. -/
theorem toNat_shiftLeft_ofNat {x : UInt64} {k : Nat} (hk : k < 64)
    (hx : x.toNat * 2 ^ k < 2 ^ 64) : (x <<< UInt64.ofNat k).toNat = x.toNat * 2 ^ k := by
  have hmod : (UInt64.ofNat k).toNat % 64 = k := by
    rw [UInt64.toNat_ofNat']
    omega
  rw [UInt64.toNat_shiftLeft, hmod, Nat.shiftLeft_eq, Nat.mod_eq_of_lt hx]

/-- A mask of low bits takes the remainder. -/
theorem toNat_and_mask {x mask : UInt64} {k : Nat} (hmask : mask.toNat = 2 ^ k - 1) :
    (x &&& mask).toNat = x.toNat % 2 ^ k := by
  rw [UInt64.toNat_and, hmask, Nat.and_two_pow_sub_one_eq_mod]

/-- Bits that do not overlap are added. -/
theorem or_eq_add_of_mod_eq_zero {a b k : Nat} (ha : a % 2 ^ k = 0) (hb : b < 2 ^ k) :
    a ||| b = a + b := by
  have hsplit : a = (a / 2 ^ k) <<< k := by
    have hdiv := Nat.div_add_mod a (2 ^ k)
    rw [Nat.shiftLeft_eq, Nat.mul_comm]
    omega
  rw [hsplit, Nat.shiftLeft_add_eq_or_of_lt hb]

/-! ## Addresses -/

/-- The offset bits of a level: a page offset and an index for every level
below. -/
theorem shift_lt {level : Nat} (hlevel : level ≤ rootLevel) :
    pageShift + level * indexBits < 64 := by
  have hroot : level ≤ 3 := hlevel
  show 12 + level * 9 < 64
  omega

theorem toNat_tableIndex (a : VirtAddr) {level : Nat} (hlevel : level ≤ rootLevel) :
    (a.tableIndex level).toNat = a.val.toNat / 2 ^ (12 + 9 * level) % 512 := by
  have hmask : (0x1ff : UInt64).toNat = 2 ^ 9 - 1 := rfl
  have hshift : pageShift + level * indexBits = 12 + 9 * level := by
    show 12 + level * 9 = 12 + 9 * level
    omega
  rw [VirtAddr.tableIndex, toNat_and_mask hmask, toNat_shiftRight_ofNat _ (shift_lt hlevel),
    hshift]
  rfl

/-- A walk reads the entry that the reference walk reads. -/
theorem Walk.entryAddr_eq (w : Walk) (hlevel : w.level ≤ rootLevel) :
    w.entryAddr =
      Reference.entryAddr w.request.vaddr.val.toNat w.table.val.toNat w.level := by
  have hindex := toNat_tableIndex w.request.vaddr hlevel
  rw [Walk.entryAddr, Reference.entryAddr, Nat.pow_eq, ← hindex, UInt64.ofNat_add,
    UInt64.ofNat_mul, UInt64.ofNat_toNat, UInt64.ofNat_toNat]
  rfl

/-- A page starts at a multiple of 4096, and bits of its number that do not fit are lost. -/
theorem PhysAddr.toNat_ofPage (ppn : UInt64) :
    (ofPage ppn 0).val.toNat = ppn.toNat * 4096 % 2 ^ 64 := by
  have hshift : (ppn <<< UInt64.ofNat pageShift).toNat = ppn.toNat * 4096 % 2 ^ 64 := by
    rw [UInt64.toNat_shiftLeft, Nat.shiftLeft_eq]
    rfl
  rw [ofPage, UInt64.toNat_or, hshift]
  exact Nat.or_zero _

/-! ## Entries -/

theorem Entry.toNat_ppn (e : Entry) : e.ppn.toNat = Reference.ppn e.raw := by
  have hmask : Entry.ppnMask.toNat = 2 ^ 44 - 1 := rfl
  rw [Entry.ppn, toNat_and_mask hmask]
  show (e.raw >>> UInt64.ofNat 10).toNat % 2 ^ 44 = _
  rw [toNat_shiftRight_ofNat _ (by decide)]
  rfl

theorem Reference.ppn_lt (raw : UInt64) : Reference.ppn raw < 2 ^ 44 :=
  Nat.mod_lt _ (by decide)

theorem Entry.bit_eq (e : Entry) (i : Nat) : e.bit i = Reference.bit e.raw i := by
  rw [Entry.bit, Reference.bit, ← BitVec.testBit_toNat, UInt64.toNat_toBitVec,
    Nat.testBit_eq_decide_div_mod_eq]
  rfl

theorem Entry.hasReserved_eq (e : Entry) :
    e.hasReserved = (e.raw.toNat / Nat.pow 2 54 != 0) := by
  have hshift : (e.raw >>> UInt64.ofNat 54).toNat = e.raw.toNat / 2 ^ 54 :=
    toNat_shiftRight_ofNat _ (by decide)
  rw [Bool.eq_iff_iff, bne_iff_ne, Nat.pow_eq, ← hshift]
  show (e.raw >>> 54 != 0) = true ↔ _
  rw [bne_iff_ne, ne_eq, ne_eq, ← UInt64.toNat_inj]
  rfl

theorem Entry.isMalformed_eq (e : Entry) : e.isMalformed = Reference.malformed e.raw := by
  rw [Entry.isMalformed, Reference.malformed, Entry.hasReserved_eq, Entry.isValid,
    Entry.canRead, Entry.canWrite, e.bit_eq, e.bit_eq, e.bit_eq, Bool.and_comm (!_)]

theorem Entry.isLeaf_eq (e : Entry) : e.isLeaf = Reference.leaf e.raw := by
  rw [Entry.isLeaf, Reference.leaf, Entry.canRead, Entry.canWrite, Entry.canExecute,
    e.bit_eq, e.bit_eq, e.bit_eq]

/-- The table that an entry leads to starts at its page. -/
theorem Entry.toNat_ofPage (e : Entry) :
    (PhysAddr.ofPage e.ppn 0).val.toNat = Reference.ppn e.raw * 4096 := by
  have hlt := Reference.ppn_lt e.raw
  rw [PhysAddr.toNat_ofPage, e.toNat_ppn]
  omega

/-! ## Leaves -/

theorem Walk.denied_eq (r : Request) (e : Entry) :
    Walk.denied r e = !Reference.granted r e.raw := by
  rw [Walk.denied, Reference.granted, Entry.canRead, Entry.canWrite, Entry.canExecute,
    Entry.isUser, e.bit_eq, e.bit_eq, e.bit_eq, e.bit_eq]
  simp only [Bool.not_and, Bool.not_or, Bool.not_not]

theorem toNat_spanMask {level : Nat} (hlevel : level ≤ rootLevel) :
    (Walk.spanMask level).toNat = 2 ^ (9 * level) - 1 := by
  have hbits : indexBits * level < 64 := by
    have hshift := shift_lt hlevel
    rw [Nat.mul_comm]
    omega
  have hspan : 2 ^ (9 * level) < 2 ^ 64 := Nat.pow_lt_pow_right (by decide) hbits
  have hone : (1 <<< UInt64.ofNat (indexBits * level) : UInt64).toNat = 2 ^ (9 * level) := by
    have hmul : (1 : UInt64).toNat * 2 ^ (indexBits * level) < 2 ^ 64 := by
      show 1 * 2 ^ (9 * level) < 2 ^ 64
      omega
    rw [toNat_shiftLeft_ofNat hbits hmul]
    exact Nat.one_mul _
  have hle : (1 : UInt64) ≤ 1 <<< UInt64.ofNat (indexBits * level) := by
    rw [UInt64.le_iff_toNat_le, hone]
    exact Nat.two_pow_pos _
  rw [Walk.spanMask, UInt64.toNat_sub_of_le _ _ hle, hone]
  rfl

theorem Entry.misaligned_eq (e : Entry) {level : Nat} (hlevel : level ≤ rootLevel) :
    (e.ppn &&& Walk.spanMask level != 0) =
      decide (Reference.ppn e.raw % 2 ^ (9 * level) ≠ 0) := by
  have hand := toNat_and_mask (x := e.ppn) (toNat_spanMask hlevel)
  rw [Bool.eq_iff_iff, bne_iff_ne, decide_eq_true_eq, ne_eq, ← UInt64.toNat_inj, hand,
    e.toNat_ppn]
  rfl

theorem VirtAddr.toNat_offset (a : VirtAddr) : a.offset.toNat = a.val.toNat % 4096 := by
  have hmask : offsetMask.toNat = 2 ^ 12 - 1 := rfl
  exact toNat_and_mask hmask

theorem VirtAddr.toNat_pageNumber (a : VirtAddr) :
    a.pageNumber.toNat = a.val.toNat / 4096 :=
  toNat_shiftRight_ofNat a.val (by decide)

/-- The page number of an aligned leaf takes over the low bits of the virtual
page number, and no bit of it is lost. -/
theorem toNat_span (e : Entry) (a : VirtAddr) {level : Nat} (hlevel : level ≤ rootLevel)
    (haligned : Reference.ppn e.raw % 2 ^ (9 * level) = 0) :
    (e.ppn ||| (a.pageNumber &&& Walk.spanMask level)).toNat =
      Reference.ppn e.raw + a.val.toNat / 4096 % 2 ^ (9 * level) := by
  rw [UInt64.toNat_or, toNat_and_mask (toNat_spanMask hlevel), a.toNat_pageNumber,
    e.toNat_ppn]
  exact or_eq_add_of_mod_eq_zero haligned (Nat.mod_lt _ (Nat.two_pow_pos _))

/-- An aligned leaf leads to the address that has the start of its page and the
low bits of the virtual address. -/
theorem composed_eq (e : Entry) (a : VirtAddr) {level : Nat} (hlevel : level ≤ rootLevel)
    (haligned : Reference.ppn e.raw % 2 ^ (9 * level) = 0) :
    ((e.ppn ||| (a.pageNumber &&& Walk.spanMask level)) <<< UInt64.ofNat pageShift)
        ||| a.offset =
      UInt64.ofNat (Reference.ppn e.raw * 4096 + a.val.toNat % 2 ^ (12 + 9 * level)) := by
  have hspan := toNat_span e a hlevel haligned
  have hppn := Reference.ppn_lt e.raw
  have hlow : a.val.toNat / 4096 % 2 ^ (9 * level) < 2 ^ 27 := by
    have hle : 2 ^ (9 * level) ≤ 2 ^ (9 * 3) :=
      Nat.pow_le_pow_right (by decide) (Nat.mul_le_mul_left 9 hlevel)
    exact Nat.lt_of_lt_of_le (Nat.mod_lt _ (Nat.two_pow_pos _)) hle
  have hmod : a.val.toNat % 2 ^ (12 + 9 * level) =
      a.val.toNat % 4096 + 4096 * (a.val.toNat / 4096 % 2 ^ (9 * level)) := by
    rw [Nat.pow_add]
    exact Nat.mod_mul
  have hshift := toNat_shiftLeft_ofNat
    (x := e.ppn ||| (a.pageNumber &&& Walk.spanMask level)) (k := pageShift) (by decide)
    (by rw [hspan]; show _ * 2 ^ 12 < _; omega)
  have hpage : (Reference.ppn e.raw + a.val.toNat / 4096 % 2 ^ (9 * level)) * 2 ^ 12 % 2 ^ 12
      = 0 := Nat.mul_mod_left _ _
  have hoffset : a.val.toNat % 4096 < 2 ^ 12 := Nat.mod_lt _ (by decide)
  rw [← UInt64.toNat_inj, UInt64.toNat_or, hshift, hspan, a.toNat_offset,
    UInt64.toNat_ofNat', hmod]
  show (_ * 2 ^ 12 ||| _) = _
  rw [or_eq_add_of_mod_eq_zero hpage hoffset]
  omega

/-- Both walks judge a leaf alike. -/
theorem Walk.throughLeaf_eq (r : Request) (e : Entry) {level : Nat}
    (hlevel : level ≤ rootLevel) :
    Walk.throughLeaf r level e = Reference.atLeaf r level e.raw := by
  rw [Walk.throughLeaf, Reference.atLeaf, Walk.denied_eq, e.misaligned_eq hlevel,
    Entry.isAccessed, Entry.isDirty, e.bit_eq, e.bit_eq]
  simp only [Nat.pow_eq, decide_eq_true_eq]
  by_cases haligned : Reference.ppn e.raw % 2 ^ (9 * level) = 0
  · rw [composed_eq e r.vaddr hlevel haligned]
  · rw [if_pos haligned, if_pos haligned]

end OutOfOrder.Paging
