import Mathlib.Data.List.Induction

/-!
# What began and has not ended

Laws that read the state of a system off its past have one shape: something began, and
nothing that happened later has ended it. `Lasts` is this shape, and `lasts_append` is how
it is followed from one entry to the next.
-/

namespace OutOfOrder

/-- In a list with one more entry, a place is the last or lies in what was there before. -/
theorem split_append_singleton {α : Type} {past before after : List α} {last next : α}
    (h : past ++ [last] = before ++ next :: after) :
    (after = [] ∧ before = past ∧ next = last) ∨
      ∃ front, after = front ++ [last] ∧ past = before ++ next :: front := by
  rcases List.eq_nil_or_concat after with rfl | ⟨front, other, rfl⟩
  · obtain ⟨rfl, hlast⟩ := List.append_inj' h rfl
    exact .inl ⟨rfl, rfl, (List.singleton_inj.1 hlast).symm⟩
  · have h : past ++ [last] = (before ++ next :: front) ++ [other] := by simpa using h
    obtain ⟨hpast, hlast⟩ := List.append_inj' h rfl
    exact .inr ⟨front, by rw [List.singleton_inj.1 hlast, List.concat_eq_append], hpast⟩

/-- In a list of what happened something began, and nothing that came later ended it. -/
def Lasts {α : Type} (begins ends : α → Prop) (past : List α) : Prop :=
  ∃ before first after, past = before ++ first :: after ∧ begins first ∧
    ∀ next ∈ after, ¬ ends next

section Lasts

variable {α : Type} {begins ends : α → Prop}

/-- What fewer things can end lasts as well. -/
theorem Lasts.mono {past : List α} {ends' : α → Prop} (h : Lasts begins ends past)
    (hends : ∀ next, ends' next → ends next) : Lasts begins ends' past := by
  obtain ⟨before, first, after, heq, hbegins, hafter⟩ := h
  exact ⟨before, first, after, heq, hbegins, fun next hnext hend =>
    hafter next hnext (hends next hend)⟩

theorem not_lasts_nil : ¬ Lasts begins ends [] := by
  rintro ⟨before, first, after, heq, -⟩
  simp at heq

/-- What happens last begins it, or it lasted already and is not ended. -/
theorem lasts_append (past : List α) (last : α) :
    Lasts begins ends (past ++ [last]) ↔ begins last ∨ Lasts begins ends past ∧ ¬ ends last := by
  constructor
  · rintro ⟨before, first, after, heq, hbegins, hafter⟩
    rcases split_append_singleton heq with ⟨-, -, rfl⟩ | ⟨front, rfl, hpast⟩
    · exact .inl hbegins
    · exact .inr ⟨⟨before, first, front, hpast, hbegins,
        fun next hnext => hafter next (List.mem_append_left _ hnext)⟩,
        hafter last (List.mem_append_right _ (List.mem_singleton_self last))⟩
  · rintro (hbegins | ⟨⟨before, first, after, rfl, hbegins, hafter⟩, hlast⟩)
    · exact ⟨past, last, [], rfl, hbegins, fun next hnext => absurd hnext List.not_mem_nil⟩
    · refine ⟨before, first, after ++ [last], by simp, hbegins, fun next hnext => ?_⟩
      rcases List.mem_append.1 hnext with hnext | hnext
      · exact hafter next hnext
      · rw [List.mem_singleton.1 hnext]
        exact hlast

end Lasts

end OutOfOrder
