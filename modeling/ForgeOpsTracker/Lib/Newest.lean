import Mathlib.Data.List.Sort

/-! Sorting a list and keeping its end. -/

namespace ForgeOps.Newest

variable {α : Type*} (r : α → α → Prop) [DecidableRel r]

/-- Where sorting leaves the end of a list alone, it leaves the same elements before it. -/
theorem insertionSort_take_perm {l l' : List α} (hperm : l'.Perm l) {e : Nat}
    (h : (l'.insertionSort r).drop e = l.drop e) :
    ((l'.insertionSort r).take e).Perm (l.take e) := by
  have hsame : (l'.insertionSort r).Perm l := (List.perm_insertionSort r l').trans hperm
  rw [← List.take_append_drop e (l'.insertionSort r), h] at hsame
  rwa [← List.perm_append_right_iff (l.drop e), List.take_append_drop]

variable [Std.Total r] [IsTrans α r] [Std.Antisymm r]

/-- Sorting any arrangement of a list leaves the elements from position `e` on where
they are if and only if each of them comes after everything before it. -/
theorem insertionSort_drop_iff {l l' : List α} (hperm : l'.Perm l) (e : Nat) :
    (l'.insertionSort r).drop e = l.drop e ↔
      ∀ (a b : Nat) (hab : a < b) (hb : b < l.length), e ≤ b → r l[a] l[b] := by
  have hsorted := List.pairwise_insertionSort r l'
  have hsame : (l'.insertionSort r).Perm l := (List.perm_insertionSort r l').trans hperm
  constructor
  · intro hdrop a b hab hb he
    rw [← List.take_append_drop e (l'.insertionSort r), hdrop] at hsorted hsame
    obtain ⟨-, hpair, hcross⟩ := List.pairwise_append.mp hsorted
    have hbe : b - e < (l.drop e).length := by
      rw [List.length_drop]
      omega
    have hb' : l[b] = (l.drop e)[b - e] := by simp [Nat.add_sub_cancel' he]
    rcases Nat.lt_or_ge a e with hae | hae
    · have htake := insertionSort_take_perm r hperm hdrop
      refine hcross _ (htake.mem_iff.mpr ?_) _ (hb' ▸ List.getElem_mem _)
      exact List.mem_take_iff_getElem.mpr ⟨a, by omega, rfl⟩
    · have hae' : a - e < (l.drop e).length := by omega
      have ha' : l[a] = (l.drop e)[a - e] := by simp [Nat.add_sub_cancel' hae]
      rw [ha', hb']
      exact List.pairwise_iff_getElem.mp hpair _ _ _ _ (by omega)
  · intro h
    have hwhole : l'.insertionSort r = (l.take e).insertionSort r ++ l.drop e := by
      refine List.Perm.eq_of_pairwise (fun _ _ _ _ (h : r _ _) h' => antisymm h h') hsorted ?_ ?_
      · refine List.pairwise_append.mpr ⟨List.pairwise_insertionSort r _, ?_, fun a ha b hb => ?_⟩
        · refine List.pairwise_iff_getElem.mpr fun i j hi hj hij => ?_
          rw [List.length_drop] at hi hj
          simpa using h (e + i) (e + j) (by omega) (by omega) (by omega)
        · rw [List.mem_insertionSort] at ha
          obtain ⟨i, hi, rfl⟩ := List.mem_take_iff_getElem.mp ha
          obtain ⟨j, hj, rfl⟩ := List.mem_drop_iff_getElem.mp hb
          exact h i (e + j) (by omega) (by omega) (by omega)
      · refine hsame.trans ?_
        conv_lhs => rw [← List.take_append_drop e l]
        exact (List.perm_insertionSort r _).symm.append_right _
    rcases Nat.lt_or_ge e l.length with he | he
    · have hlen : ((l.take e).insertionSort r).length = e := by
        rw [List.length_insertionSort, List.length_take, Nat.min_eq_left he.le]
      rw [hwhole, List.drop_left' hlen]
    · rw [List.drop_eq_nil_of_le he, List.drop_eq_nil_of_le (by rw [hsame.length_eq]; exact he)]

end ForgeOps.Newest
