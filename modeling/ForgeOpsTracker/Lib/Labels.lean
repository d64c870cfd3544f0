import Mathlib.Data.List.Basic

/-! Names made of labels with a separator between them: a name ends with the labels of another one
exactly when it is that one or has it behind a separator. -/

namespace ForgeOps.Labels

variable {α : Type*} {x : α}

theorem intercalate_append {front back : List (List α)} (hfront : front ≠ []) (hback : back ≠ []) :
    [x].intercalate (front ++ back) = [x].intercalate front ++ x :: [x].intercalate back := by
  induction front with
  | nil => exact absurd rfl hfront
  | cons label front ih =>
    cases front with
    | nil =>
      rw [List.singleton_append, List.intercalate_cons_of_ne_nil hback, List.intercalate_singleton,
        List.append_assoc, List.singleton_append]
    | cons next front =>
      rw [List.cons_append, List.intercalate_cons_of_ne_nil (by simp), ih (List.cons_ne_nil _ _),
        List.intercalate_cons_of_ne_nil (List.cons_ne_nil _ _)]
      simp only [List.append_assoc]

theorem suffix_splitOn_iff [BEq α] [LawfulBEq α] {name last : List α} :
    last.splitOn x <:+ name.splitOn x ↔ name = last ∨ ∃ before, name = before ++ x :: last := by
  constructor
  · rintro ⟨front, hfront⟩
    have hname : [x].intercalate (front ++ last.splitOn x) = name := by
      rw [hfront, List.intercalate_splitOn]
    cases front with
    | nil =>
      rw [List.nil_append, List.intercalate_splitOn] at hname
      exact .inl hname.symm
    | cons label front =>
      rw [intercalate_append (List.cons_ne_nil _ _) (List.splitOn_ne_nil _ _),
        List.intercalate_splitOn] at hname
      exact .inr ⟨_, hname.symm⟩
  · rintro (rfl | ⟨before, rfl⟩)
    · exact List.suffix_rfl
    · exact ⟨before.splitOn x, (List.splitOn_append_cons_self before last).symm⟩

end ForgeOps.Labels
