import ForgeOpsTracker.Lib.Ere
import ForgeOpsTracker.Lib.Regex

/-! Where the longest match, with its word boundaries tested afterwards, is the match that an engine
which tests them on its way finds first. -/

namespace ForgeOps

open Regex

/-- Both expressions take the same lengths in the same order. -/
def Agree (e : Ere) (r : Regex) : Prop := ∀ prev s, r.tries prev s = e.lengths s

/-- There is at most one way to take an expression. -/
def Single (e : Ere) : Prop := ∀ s, e.lengths s = [] ∨ ∃ n, e.lengths s = [n]

theorem lengths_exactly (p : UInt8 → Bool) (n : Nat) (s : Bytes) :
    (Ere.many p n (some n)).lengths s = if n ≤ runLength p s then [n] else [] := by
  show List.range' n (min n (runLength p s) + 1 - n) = _
  by_cases h : n ≤ runLength p s
  · rw [if_pos h, Nat.min_eq_left h, Nat.add_sub_cancel_left]
    rfl
  · have hnone : min n (runLength p s) + 1 - n = 0 := by omega
    rw [if_neg h, hnone]
    rfl

theorem agree_exactly (p : UInt8 → Bool) (n : Nat) :
    Agree (.many p n (some n)) (exactly n (set p)) := by
  intro prev s
  rw [tries_exactly_set, lengths_exactly]

theorem agree_set (p : UInt8 → Bool) : Agree (.set p) (set p) := by
  intro prev s
  rw [Ere.set, lengths_exactly]
  cases s with
  | nil => rfl
  | cons c s =>
    rw [tries_set_cons, runLength_cons]
    by_cases hc : p c = true
    · rw [if_pos hc, if_pos hc, if_pos (Nat.succ_le_succ (Nat.zero_le _))]
    · rw [if_neg hc, if_neg hc]
      rfl

theorem single_exactly (p : UInt8 → Bool) (n : Nat) : Single (.many p n (some n)) := by
  intro s
  rw [lengths_exactly]
  split
  · exact .inr ⟨n, rfl⟩
  · exact .inl rfl

theorem Agree.seq {a b : Ere} {r q : Regex} (ha : Agree a r) (hb : Agree b q) :
    Agree (.seq a b) (.seq r q) := by
  intro prev s
  rw [tries_seq, ha prev s]
  exact List.flatMap_congr fun n _ => by rw [hb]

theorem Single.seq {a b : Ere} (ha : Single a) (hb : Single b) : Single (.seq a b) := by
  intro s
  rw [Ere.lengths]
  rcases ha s with hnone | ⟨n, hn⟩
  · rw [hnone]
    exact .inl rfl
  · rw [hn, List.flatMap_singleton]
    rcases hb (s.drop n) with hnone | ⟨m, hm⟩
    · rw [hnone]
      exact .inl rfl
    · rw [hm]
      exact .inr ⟨n + m, rfl⟩

/-! ## A run between boundaries -/

section
variable {w p : UInt8 → Bool} (hp : ∀ c, p c = true → w c = true) {head : Ere} {r : Regex}
  (hagree : Agree head r) (hsingle : Single head)
  (hword : ∀ s, head.lengths s ≠ [] → (s.head?.map w).getD false = true) {least most : Nat}
  (hpos : 0 < least) (hle : least ≤ most)

/-- The longest match of a head and a run. -/
theorem longest_run {s : Bytes} {n : Nat} (hn : head.lengths s = [n]) :
    (Ere.seq head (.many p least (some most))).longest s =
      if least ≤ min most (runLength p (s.drop n)) then some (n + min most (runLength p (s.drop n)))
      else none := by
  have hlengths : (Ere.seq head (.many p least (some most))).lengths s =
      (List.range' least (min most (runLength p (s.drop n)) + 1 - least)).map (n + ·) := by
    rw [Ere.lengths, hn, List.flatMap_singleton]
    rfl
  rw [Ere.longest, hlengths]
  split
  · rename_i h
    rw [List.max?_eq_some_iff]
    constructor
    · exact List.mem_map.mpr ⟨_, List.mem_range'_1.mpr ⟨h, by omega⟩, rfl⟩
    · intro k hk
      obtain ⟨i, hi, rfl⟩ := List.mem_map.mp hk
      rw [List.mem_range'_1] at hi
      omega
  · rename_i h
    have hnone : min most (runLength p (s.drop n)) + 1 - least = 0 := by omega
    rw [hnone]
    rfl

include hp in
theorem word_in_run {s : Bytes} {n i : Nat} (hi : i < runLength p (s.drop n)) :
    (s[n + i]?.map w).getD false = true := by
  obtain ⟨c, rest, hdrop, hc⟩ := head_drop_of_lt hi
  rw [List.drop_drop] at hdrop
  rw [← List.head?_drop, hdrop]
  exact hp c hc

include hp hpos in
/-- A run that ends at a boundary ends where it is longest. -/
theorem find_boundary {s : Bytes} {n top : Nat} (htop : top ≤ runLength p (s.drop n)) :
    (((List.range' least (top + 1 - least)).reverse).map (n + ·)).find?
        (fun e => (s[e - 1]?.map w).getD false != (s[e]?.map w).getD false) =
      if least ≤ top then if (s[n + top]?.map w).getD false then none else some (n + top)
      else none := by
  by_cases h : least ≤ top
  · have hbehind : ∀ k, least ≤ k → k ≤ top → (s[n + k - 1]?.map w).getD false = true := by
      intro k hk hle
      rw [Nat.add_sub_assoc (Nat.lt_of_lt_of_le hpos hk)]
      exact word_in_run hp (by omega)
    have hinside : ((List.range' least (top - least)).reverse.map (n + ·)).find?
        (fun e => (s[e - 1]?.map w).getD false != (s[e]?.map w).getD false) = none := by
      rw [List.find?_eq_none]
      intro e he
      obtain ⟨k, hk, rfl⟩ := List.mem_map.mp he
      rw [List.mem_reverse, List.mem_range'_1] at hk
      rw [hbehind k hk.1 (by omega), word_in_run hp (by omega)]
      decide
    rw [if_pos h, range'_last h, List.reverse_append, List.reverse_singleton,
      List.singleton_append, List.map_cons, List.find?_cons, hinside, hbehind top h (Nat.le_refl _)]
    cases (s[n + top]?.map w).getD false <;> rfl
  · have hnone : top + 1 - least = 0 := by omega
    rw [if_neg h, hnone]
    rfl

include hp hagree hsingle hword hpos hle in
/-- The longest match counts, when no word goes on at either end; a shorter one ends inside its
run. -/
theorem first_bounded (prev : Option UInt8) (s : Bytes) :
    (seq (boundary w) (seq r (seq (between least most (set p)) (boundary w)))).first prev s =
      ((Ere.seq head (.many p least (some most))).longest s).bind fun n =>
        if (prev.map w).getD false = true ∨ ((s.drop n).head?.map w).getD false = true then none
        else some n := by
  rcases hsingle s with hnone | ⟨n, hn⟩
  · have hlongest : (Ere.seq head (.many p least (some most))).longest s = none := by
      rw [Ere.longest, Ere.lengths, hnone]
      rfl
    rw [hlongest, Option.bind_none, first_seq, tries]
    split
    · simp [first, tries_seq, hagree prev s, hnone]
    · rfl
  · have hhead := hword s (by rw [hn]; exact List.cons_ne_nil _ _)
    have hfits : n ≤ s.length := (Ere.mem_lengths.mp (hn ▸ List.mem_singleton_self n)).1
    have hstart : (boundary w).ends prev s 0 = if (prev.map w).getD false then [] else [0] := by
      rw [ends, tries, List.take_zero, List.drop_zero, lastOr_nil, hhead]
      cases (prev.map w).getD false <;> rfl
    have hr : r.ends prev s 0 = [n] := by
      rw [ends, hagree, List.drop_zero, hn, List.map_singleton, Nat.zero_add]
    have hends : ∀ e ∈ (between least most (set p)).ends prev s n, 0 < e ∧ e ≤ s.length := by
      intro e he
      rw [ends_between_set p prev s hle] at he
      obtain ⟨k, hk, rfl⟩ := List.mem_map.mp he
      rw [List.mem_reverse, List.mem_range'_1] at hk
      have hrun : runLength p (s.drop n) ≤ (s.drop n).length := (List.takeWhile_prefix _).length_le
      rw [List.length_drop] at hrun
      omega
    rw [longest_run hn, first_eq_ends, ends_seq, hstart]
    by_cases hprev : (prev.map w).getD false = true
    · rw [if_pos hprev]
      split <;> simp [hprev]
    · rw [if_neg hprev, List.flatMap_singleton, ends_seq, hr, List.flatMap_singleton, ends_seq,
        head_ends_boundary prev s w hends, ends_between_set p prev s hle,
        find_boundary hp hpos (Nat.min_le_right _ _)]
      split
      · simp [hprev]
      · rfl

end

end ForgeOps
