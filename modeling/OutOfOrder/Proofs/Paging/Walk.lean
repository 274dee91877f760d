import OutOfOrder.Proofs.Paging.Bits

/-!
# One walk does what the reference does

Between two answers a walk stands still in one of two positions: it has asked
the cache, or the cache had nothing and it has asked memory. Whatever the
answer, if it is what memory holds, the walk goes on to a position from which
the reference arrives at the same outcome as before, or it ends with that
outcome.

This is the whole simulation. It knows of no other walks, no time and no queue.
-/

namespace OutOfOrder.Paging

/-- The walk that goes on. -/
def Progress.walk? : Progress → Option Walk
  | probe w _ => some w
  | waiting w => some w
  | finished _ => none

namespace Walk

/-- The outcome that the reference arrives at from where a walk stands. -/
def reference (read : PhysAddr → Option UInt64) (w : Walk) : Except PageFault PhysAddr :=
  Reference.walkFrom read w.request w.table.val.toNat w.level

/-- The walk waits for the answer to one probe. -/
structure Waits (w : Walk) : Prop where
  level : w.level ≤ rootLevel
  entry : w.lookup.entry = none
  asked : w.lookup.cache = .pending ∧ w.lookup.memory = .unsent ∨
    w.lookup.cache = .answered ∧ w.lookup.memory = .pending

/-- An answer that a target may give to a walk: memory tells what it holds, and
the cache tells that or nothing. -/
def Faithful (read : PhysAddr → Option UInt64) (a : PhysAddr) (raw : Option UInt64) :
    ProbeTarget → Prop
  | .cache => ∀ entry, raw = some entry → read a = some entry
  | .memory => raw = read a

/-- The walk `w'` is the walk `w` further on, with the same outcome ahead. At the
level of `w` it still needs the same entry. -/
structure Follows (read : PhysAddr → Option UInt64) (w w' : Walk) : Prop where
  waits : w'.Waits
  id : w'.id = w.id
  request : w'.request = w.request
  reference : w'.reference read = w.reference read
  level : w'.level ≤ w.level
  entryAddr : w'.level = w.level → w'.entryAddr = w.entryAddr

variable {read : PhysAddr → Option UInt64} {w w' : Walk}

/-- A walk that is back at a level has never left it, so what it needs there is
what it needed. -/
theorem Follows.trans {w'' : Walk} (h : w.Follows read w') (h' : w'.Follows read w'') :
    w.Follows read w'' where
  waits := h'.waits
  id := h'.id.trans h.id
  request := h'.request.trans h.request
  reference := h'.reference.trans h.reference
  level := Nat.le_trans h'.level h.level
  entryAddr := by
    intro hsame
    have hle := h.level
    have hle' := h'.level
    rw [h'.entryAddr (by omega), h.entryAddr (by omega)]

/-! ## The reference, one level at a time -/

theorem reference_of_read_eq_none (hlevel : w.level ≤ rootLevel)
    (hread : read w.entryAddr = none) : w.reference read = .error .accessFault := by
  rw [w.entryAddr_eq hlevel] at hread
  rw [reference]
  cases h : w.level with
  | zero => rw [h] at hread; rw [Reference.walkFrom, hread]
  | succ level => rw [h] at hread; rw [Reference.walkFrom, hread]

/-- Below the root level an entry that leads to a table leads one level down. -/
theorem level_ne_zero_of_descend {e : Entry} {table : PhysAddr}
    (hjudge : w.judge e = .descend table) : w.level ≠ 0 := by
  intro hzero
  rw [judge] at hjudge
  rw [hzero] at hjudge
  split at hjudge
  · cases hjudge
  · split at hjudge <;> cases hjudge

/-- Both judge the entry alike, and a walk that goes on goes on where the
reference does. -/
theorem reference_of_read_eq_some {raw : UInt64} (hlevel : w.level ≤ rootLevel)
    (hread : read w.entryAddr = some raw) :
    w.reference read =
      match w.judge ⟨raw⟩ with
      | .done outcome => outcome
      | .descend table => (w.descend table).reference read := by
  rw [w.entryAddr_eq hlevel] at hread
  rw [judge]
  rw [Entry.isMalformed_eq, Entry.isLeaf_eq, throughLeaf_eq _ _ hlevel]
  unfold reference
  cases h : w.level with
  | zero =>
      rw [h] at hread
      cases hmalformed : Reference.malformed raw <;> cases hleaf : Reference.leaf raw <;>
        simp [Reference.walkFrom, hread, hmalformed, hleaf]
  | succ level =>
      rw [h] at hread
      have htable := Entry.toNat_ofPage ⟨raw⟩
      cases hmalformed : Reference.malformed raw <;> cases hleaf : Reference.leaf raw <;>
        simp [Reference.walkFrom, hread, hmalformed, hleaf, descend, htable, h]

/-! ## Answers -/

/-- A walk that knows nothing of its level asks the cache. -/
theorem ask_of_lookup_eq (hlookup : w.lookup = {}) :
    w.ask = .probe { w with lookup.cache := .pending } .cache := by
  rw [ask, hlookup]
  rfl

/-- With the entry in hand a walk ends, or waits one level down. -/
theorem advance_of_entry {raw : UInt64} {known : Lookup} (hlevel : w.level ≤ rootLevel)
    (hread : read w.entryAddr = some raw) (hentry : known.entry = some ⟨raw⟩) :
    (∃ w' next, advance { w with lookup := known } = .probe w' next ∧ w.Follows read w') ∨
      advance { w with lookup := known } = .finished (w.reference read) := by
  have hreference := reference_of_read_eq_some hlevel hread
  have hsame : judge { w with lookup := known } ⟨raw⟩ = w.judge ⟨raw⟩ := rfl
  simp only [advance, hentry, hsame]
  cases hjudge : w.judge ⟨raw⟩ with
  | done outcome =>
      rw [hjudge] at hreference
      exact .inr (congrArg Progress.finished hreference.symm)
  | descend table =>
      have hpos := level_ne_zero_of_descend hjudge
      rw [hjudge] at hreference
      refine .inl ⟨_, .cache, ask_of_lookup_eq rfl, ?_⟩
      have hbelow : w.level - 1 ≠ w.level := by omega
      exact {
        waits := {
          level := Nat.le_trans (Nat.sub_le _ _) hlevel
          entry := rfl
          asked := .inl ⟨rfl, rfl⟩ }
        id := rfl
        request := rfl
        reference := hreference.symm
        level := Nat.sub_le _ _
        entryAddr := fun hsame => absurd hsame hbelow }

/-- **The simulation.** Answered faithfully, a walk goes on towards the outcome of
the reference, or ends with it. -/
theorem advance_answer (hw : w.Waits) {target : ProbeTarget} {raw : Option UInt64}
    (hanswer : w.answer? target raw = some w')
    (hraw : Faithful read w.entryAddr raw target) :
    (∃ w'' next, w'.advance = .probe w'' next ∧ w.Follows read w'') ∨
      w'.advance = .finished (w.reference read) := by
  obtain ⟨hlevel, hentry, ⟨hcache, hmemory⟩ | ⟨hcache, hmemory⟩⟩ := hw
  · -- The walk waits for the cache.
    cases target with
    | memory => simp [answer?, hmemory] at hanswer
    | cache =>
        simp only [answer?, hcache, hentry, if_true, Option.some.injEq] at hanswer
        subst hanswer
        cases raw with
        | some entry =>
            exact advance_of_entry hlevel (hraw entry rfl) rfl
        | none =>
            refine .inl ⟨{ w with lookup := ⟨.answered, .pending, none⟩ }, .memory, ?_, ?_⟩
            · simp [advance, ask, hmemory]
            · exact {
                waits := ⟨hlevel, rfl, .inr ⟨rfl, rfl⟩⟩
                id := rfl
                request := rfl
                reference := rfl
                level := Nat.le_refl _
                entryAddr := fun _ => rfl }
  · -- The cache had nothing, and the walk waits for memory.
    cases target with
    | cache => simp [answer?, hcache] at hanswer
    | memory =>
        simp only [answer?, hmemory, hentry, if_true, Option.some.injEq] at hanswer
        subst hanswer
        cases raw with
        | some entry =>
            exact advance_of_entry hlevel hraw.symm rfl
        | none =>
            right
            rw [reference_of_read_eq_none hlevel hraw.symm]
            simp [advance, ask, hcache]

/-! ## Numbers -/

theorem id_ask (h : w.ask.walk? = some w') : w'.id = w.id := by
  rw [ask] at h
  split at h
  · rw [← Option.some.inj h]
  · split at h
    · rw [← Option.some.inj h]
    · split at h
      · cases h
      · rw [← Option.some.inj h]

/-- A walk keeps its number as long as it goes on. -/
theorem id_advance (h : w.advance.walk? = some w') : w'.id = w.id := by
  rw [advance] at h
  split at h
  · exact id_ask h
  · split at h
    · cases h
    · exact id_ask (w := w.descend _) h

/-- An answer changes what a walk knows, and nothing else. -/
theorem answer?_eq_some {target : ProbeTarget} {raw : Option UInt64}
    (h : w.answer? target raw = some w') : ∃ known, w' = { w with lookup := known } := by
  unfold answer? at h
  dsimp only at h
  split at h
  · split at h
    · exact ⟨_, (Option.some.inj h).symm⟩
    · cases h
  · split at h
    · exact ⟨_, (Option.some.inj h).symm⟩
    · cases h

end Walk

end OutOfOrder.Paging
