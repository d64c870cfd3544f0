import ForgeOpsTracker.Lib.Bytes

/-! Extended regular expressions without anchors or groups to remember, and the
longest match at a position. Only a set of bytes is ever repeated. -/

namespace ForgeOps

inductive Ere
  | many (set : UInt8 → Bool) (least : Nat) (most : Option Nat)
  | seq (a b : Ere)
  | alt (a b : Ere)

namespace Ere

def set (p : UInt8 → Bool) : Ere := .many p 1 (some 1)

/-- Every byte of a text, in order. -/
def literal : Bytes → Ere
  | [] => .many (fun _ => false) 0 (some 0)
  | [c] => set (· == c)
  | c :: s => .seq (set (· == c)) (literal s)

/-- How many bytes a match at the head of `s` may take. -/
def lengths : Ere → Bytes → List Nat
  | .many set least most, s =>
    let run := (s.takeWhile set).length
    let top := match most with
      | some most => min most run
      | none => run
    List.range' least (top + 1 - least)
  | .seq a b, s => (a.lengths s).flatMap fun n => (b.lengths (s.drop n)).map (n + ·)
  | .alt a b, s => a.lengths s ++ b.lengths s

/-- The longest match at the head of `s`. -/
def longest (e : Ere) (s : Bytes) : Option Nat := (e.lengths s).max?

/-! ## What a match is -/

/-- The texts an expression matches as a whole. -/
def Matches : Ere → Bytes → Prop
  | .many set least most, w => (∀ c ∈ w, set c = true) ∧ least ≤ w.length ∧ ∀ m ∈ most, w.length ≤ m
  | .seq a b, w => ∃ u v, w = u ++ v ∧ a.Matches u ∧ b.Matches v
  | .alt a b, w => a.Matches w ∨ b.Matches w

/-- The lengths listed for a text are those of the matches at its head. -/
theorem mem_lengths {e : Ere} {s : Bytes} {n : Nat} :
    n ∈ e.lengths s ↔ n ≤ s.length ∧ e.Matches (s.take n) := by
  induction e generalizing s n with
  | many set least most =>
    have hrun := le_length_takeWhile (p := set) (s := s) (n := n)
    simp only [lengths, List.mem_range'_1, Matches]
    cases most with
    | none =>
      simp only [Option.mem_def, reduceCtorEq, false_implies, implies_true, and_true]
      constructor
      · intro h
        obtain ⟨hle, hset⟩ := hrun.mp (by omega)
        exact ⟨hle, hset, by rw [List.length_take]; omega⟩
      · rintro ⟨hle, hset, hleast⟩
        rw [List.length_take] at hleast
        have := hrun.mpr ⟨hle, hset⟩
        omega
    | some most =>
      simp only [Option.mem_def, Option.some.injEq, forall_eq']
      constructor
      · intro h
        obtain ⟨hle, hset⟩ := hrun.mp (by omega)
        exact ⟨hle, hset, by rw [List.length_take]; omega, by rw [List.length_take]; omega⟩
      · rintro ⟨hle, hset, hleast, hmost⟩
        rw [List.length_take] at hleast hmost
        have := hrun.mpr ⟨hle, hset⟩
        omega
  | seq a b iha ihb =>
    simp only [lengths, List.mem_flatMap, List.mem_map, iha, ihb, Matches]
    constructor
    · rintro ⟨i, ⟨hi, ha⟩, j, ⟨hj, hb⟩, rfl⟩
      rw [List.length_drop] at hj
      refine ⟨by omega, s.take i, (s.drop i).take j, List.take_add, ha, hb⟩
    · rintro ⟨hle, u, v, hsplit, ha, hb⟩
      have hlength := congrArg List.length hsplit
      rw [List.length_take, List.length_append] at hlength
      have hu : s.take u.length = u := by
        have := congrArg (List.take u.length) hsplit
        rwa [List.take_take, List.take_left, Nat.min_eq_left (by omega)] at this
      have hv : (s.drop u.length).take v.length = v := by
        have := congrArg (List.drop u.length) hsplit
        rw [List.drop_take, List.drop_left] at this
        rwa [show n - u.length = v.length by omega] at this
      refine ⟨u.length, ⟨by omega, by rwa [hu]⟩, v.length, ⟨?_, by rwa [hv]⟩, by omega⟩
      rw [List.length_drop]
      omega
  | alt a b iha ihb =>
    simp only [lengths, List.mem_append, iha, ihb, Matches]
    tauto

/-- No match stands at the head of a text. -/
theorem longest_eq_none {e : Ere} {s : Bytes} :
    e.longest s = none ↔ ∀ w, w <+: s → ¬ e.Matches w := by
  rw [longest, List.max?_eq_none_iff, List.eq_nil_iff_forall_not_mem]
  constructor
  · rintro h w ⟨rest, rfl⟩ hw
    exact h w.length (mem_lengths.mpr ⟨by simp, by rwa [List.take_left]⟩)
  · intro h n hn
    obtain ⟨-, hmatch⟩ := mem_lengths.mp hn
    exact h _ (List.take_prefix n s) hmatch

theorem longest_eq_some {e : Ere} {s : Bytes} {n : Nat} :
    e.longest s = some n ↔
      (n ≤ s.length ∧ e.Matches (s.take n)) ∧ ∀ m, m ≤ s.length ∧ e.Matches (s.take m) → m ≤ n := by
  rw [longest, List.max?_eq_some_iff]
  simp only [mem_lengths]

/-! ## Bytes no match has -/

/-- No set of the expression has the byte. -/
def avoids : Ere → UInt8 → Bool
  | .many set _ _, c => !set c
  | .seq a b, c => a.avoids c && b.avoids c
  | .alt a b, c => a.avoids c && b.avoids c

theorem Matches.not_mem {e : Ere} {w : Bytes} {c : UInt8} (h : e.Matches w)
    (hc : e.avoids c = true) : c ∉ w := by
  induction e generalizing w with
  | many set least most =>
    intro hmem
    have hset : (!set c) = true := hc
    rw [h.1 c hmem] at hset
    exact absurd hset (by decide)
  | seq a b iha ihb =>
    obtain ⟨u, v, rfl, ha, hb⟩ := h
    rw [avoids, Bool.and_eq_true] at hc
    rw [List.mem_append]
    exact not_or.mpr ⟨iha ha hc.1, ihb hb hc.2⟩
  | alt a b iha ihb =>
    rw [avoids, Bool.and_eq_true] at hc
    rcases h with h | h
    · exact iha h hc.1
    · exact ihb h hc.2

/-- A match ends before such a byte, whatever follows it. -/
theorem longest_before {e : Ere} {c : UInt8} (hc : e.avoids c = true) (s t : Bytes) :
    e.longest (s ++ c :: t) = e.longest s := by
  have hmem : ∀ n, n ≤ (s ++ c :: t).length ∧ e.Matches ((s ++ c :: t).take n) ↔
      n ≤ s.length ∧ e.Matches (s.take n) := by
    intro n
    constructor
    · rintro ⟨-, hmatch⟩
      have hle : n ≤ s.length := by
        by_contra hlong
        apply hmatch.not_mem hc
        rw [List.take_append, List.take_of_length_le (by omega)]
        obtain ⟨k, hk⟩ := Nat.exists_eq_add_of_lt (Nat.lt_of_not_le hlong)
        rw [show n - s.length = k + 1 by omega, List.take_succ_cons]
        simp
      rw [List.take_append_of_le_length hle] at hmatch
      exact ⟨hle, hmatch⟩
    · rintro ⟨hle, hmatch⟩
      rw [List.take_append_of_le_length hle, List.length_append]
      exact ⟨by omega, hmatch⟩
  cases h : e.longest s with
  | none =>
    rw [longest, List.max?_eq_none_iff, List.eq_nil_iff_forall_not_mem] at h ⊢
    intro n hn
    exact h n (mem_lengths.mpr ((hmem n).mp (mem_lengths.mp hn)))
  | some n =>
    rw [longest_eq_some] at h ⊢
    exact ⟨(hmem n).mpr h.1, fun m hm => h.2 m ((hmem m).mp hm)⟩

end Ere

end ForgeOps
