import ForgeOpsTracker.SqlNumber
import Mathlib.Order.Bounds.Basic

/-! The forms a number may have, and that `number_end` finds the longest reading of a text as
one of them that stands alone. -/

namespace ForgeOps.SqlStatement

/-! ## Forms -/

/-- One or more characters of a kind. -/
def Digits (p : UInt8 → Bool) (w : Bytes) : Prop := w ≠ [] ∧ ∀ c ∈ w, p c = true

/-- `.5` -/
inductive Fraction : Bytes → Prop
  | mk {w : Bytes} (hw : Digits isDigitChar w) : Fraction (46 :: w)

/-- `42`, `1.5` or `.5` -/
inductive Mantissa : Bytes → Prop
  | integer {w : Bytes} (hw : Digits isDigitChar w) : Mantissa w
  | both {w f : Bytes} (hw : Digits isDigitChar w) (hf : Fraction f) : Mantissa (w ++ f)
  | fraction {f : Bytes} (hf : Fraction f) : Mantissa f

/-- `e10`, `E-3` or `e+2` -/
inductive Exponent : Bytes → Prop
  | plain {e : UInt8} {w : Bytes} (he : e = 101 ∨ e = 69) (hw : Digits isDigitChar w) :
      Exponent (e :: w)
  | signed {e sign : UInt8} {w : Bytes} (he : e = 101 ∨ e = 69) (hsign : isSign sign = true)
      (hw : Digits isDigitChar w) : Exponent (e :: sign :: w)

inductive IsNumber : Bytes → Prop
  | hex {x : UInt8} {w : Bytes} (hx : x = 120 ∨ x = 88) (hw : Digits isHexChar w) :
      IsNumber (48 :: x :: w)
  | binary {x : UInt8} {w : Bytes} (hx : x = 98 ∨ x = 66) (hw : Digits isBinaryChar w) :
      IsNumber (48 :: x :: w)
  | decimal {m : Bytes} (hm : Mantissa m) : IsNumber m
  | scientific {m e : Bytes} (hm : Mantissa m) (he : Exponent e) : IsNumber (m ++ e)

/-- A number stands between two places of a text, and no word goes on behind it. -/
def Stands (text : Bytes) (i k : Nat) : Prop :=
  i ≤ k ∧ k ≤ text.length ∧ IsNumber ((text.drop i).take (k - i)) ∧ endsHere (text.drop k) = true

/-- `number_end` at a place of a text; `none` is its -1. -/
def numberEndAt (text : Bytes) (i : Nat) : Option Nat := (numberEnd (text.drop i)).map (i + ·)

/-! ## Runs -/

section
variable {p : UInt8 → Bool}

/-- A run and a byte that does not go on with it give the run back. -/
theorem takeWhile_digits {w t : Bytes} (hw : Digits p w) (ht : ∀ c ∈ t.head?, p c = false) :
    (w ++ t).takeWhile p = w := by
  rw [takeWhile_append_stop ht, List.takeWhile_eq_self_iff.mpr hw.2]

theorem digits_takeWhile {s : Bytes} (h : 0 < (s.takeWhile p).length) : Digits p (s.takeWhile p) :=
  ⟨List.ne_nil_of_length_pos h, fun _ hc => List.mem_takeWhile_imp hc⟩

theorem Digits.length_pos {w : Bytes} (hw : Digits p w) : 0 < w.length :=
  List.length_pos_iff.mpr hw.1

end

theorem take_digitsLength (s : Bytes) : s.take (digitsLength s) = s.takeWhile isDigitChar :=
  (List.prefix_iff_eq_take.mp (List.takeWhile_prefix _)).symm

theorem digitsLength_of_digits {w t : Bytes} (hw : Digits isDigitChar w)
    (ht : ∀ c ∈ t.head?, isDigitChar c = false) : digitsLength (w ++ t) = w.length :=
  congrArg List.length (takeWhile_digits hw ht)

theorem head_of_endsHere {t : Bytes} (h : endsHere t = true) : ∀ c ∈ t.head?, isWord c = false := by
  cases t with
  | nil => exact fun c hc => absurd hc (by simp)
  | cons d t =>
    intro c hc
    obtain rfl : d = c := by simpa using hc
    simpa [endsHere] using h

/-! ## Fractions and exponents -/

theorem fraction_take {s : Bytes} {n : Nat} (h : fractionLength s = some n) :
    Fraction (s.take n) := by
  obtain ⟨d, t, rfl, hd, rfl⟩ := fractionLength_eq_some.mp h
  rw [Nat.add_comm, List.take_succ_cons, take_digitsLength]
  refine .mk (digits_takeWhile ?_)
  rw [List.takeWhile_cons_of_pos hd, List.length_cons]
  exact Nat.succ_pos _

theorem fractionLength_of_fraction {f t : Bytes} (hf : Fraction f)
    (ht : ∀ c ∈ t.head?, isDigitChar c = false) : fractionLength (f ++ t) = some f.length := by
  obtain ⟨hw⟩ := hf
  rename_i w
  obtain ⟨d, w, rfl⟩ := List.exists_cons_of_ne_nil hw.1
  refine fractionLength_eq_some.mpr ⟨d, w ++ t, rfl, hw.2 d List.mem_cons_self, ?_⟩
  rw [← List.cons_append, digitsLength_of_digits hw ht, List.length_cons, Nat.add_comm]

theorem exponent_take {s : Bytes} {n : Nat} (h : exponentLength s = some n) :
    Exponent (s.take n) := by
  obtain ⟨e, t, rfl, he, hpos, rfl⟩ := exponentLength_eq_some.mp h
  have hrun := digits_takeWhile hpos
  rw [← take_digitsLength] at hrun
  rw [Nat.add_assoc, Nat.add_comm 1, List.take_succ_cons, List.take_add]
  cases t with
  | nil => exact absurd hpos (by simp [digitsLength])
  | cons sign t =>
    by_cases hsign : isSign sign = true
    · have hone : signLength (sign :: t) = 1 := by simp [signLength, hsign]
      rw [hone] at hrun ⊢
      exact .signed he hsign hrun
    · have hzero : signLength (sign :: t) = 0 := by simp [signLength, hsign]
      rw [hzero] at hrun ⊢
      exact .plain he hrun

theorem exponentLength_of_exponent {w t : Bytes} (hw : Exponent w)
    (ht : ∀ c ∈ t.head?, isDigitChar c = false) : exponentLength (w ++ t) = some w.length := by
  cases hw with
  | @plain e w he hw =>
    obtain ⟨d, w, rfl⟩ := List.exists_cons_of_ne_nil hw.1
    have hd : isDigitChar d = true := hw.2 d List.mem_cons_self
    have hsign : isSign d = false := by
      simp only [isDigitChar, Byte.isDigit, Bool.and_eq_true, decide_eq_true_eq] at hd
      simp only [isSign, Bool.or_eq_false_iff, beq_eq_false_iff_ne]
      constructor <;> rintro rfl <;> exact absurd hd (by decide)
    have hzero : signLength (d :: w ++ t) = 0 := by simp [signLength, hsign]
    refine exponentLength_eq_some.mpr ⟨e, d :: w ++ t, rfl, he, ?_, ?_⟩
    · rw [hzero, List.drop_zero, digitsLength_of_digits hw ht]
      exact hw.length_pos
    · rw [hzero, List.drop_zero, digitsLength_of_digits hw ht,
        List.length_cons (a := e), Nat.add_comm]
  | @signed e sign w he hsign hw =>
    have hone : signLength (sign :: w ++ t) = 1 := by simp [signLength, hsign]
    refine exponentLength_eq_some.mpr ⟨e, sign :: w ++ t, rfl, he, ?_, ?_⟩
    · rw [hone, List.cons_append, List.drop_succ_cons, List.drop_zero, digitsLength_of_digits hw ht]
      exact hw.length_pos
    · rw [hone, List.cons_append, List.drop_succ_cons, List.drop_zero, digitsLength_of_digits hw ht,
        List.length_cons, List.length_cons]
      omega

/-! ## Behind a mantissa -/

/-- The first `j` bytes behind a mantissa are its exponent, or it has none, and a number ends
there. -/
def Tail (u : Bytes) (j : Nat) : Prop :=
  (j = 0 ∨ j ≤ u.length ∧ Exponent (u.take j)) ∧ endsHere (u.drop j) = true

theorem Exponent.head {w : Bytes} (h : Exponent w) : ∃ e t, w = e :: t ∧ (e = 101 ∨ e = 69) := by
  cases h with
  | plain he _ => exact ⟨_, _, rfl, he⟩
  | signed he _ _ => exact ⟨_, _, rfl, he⟩

/-- What stands behind a mantissa: no word character, or the letter of its exponent. -/
theorem Tail.head {u : Bytes} {j : Nat} (h : Tail u j) :
    ∀ c ∈ u.head?, j = 0 ∧ isWord c = false ∨ c = 101 ∨ c = 69 := by
  obtain ⟨rfl | ⟨-, hexp⟩, hend⟩ := h
  · exact fun c hc => .inl ⟨rfl, head_of_endsHere hend c hc⟩
  · intro c hc
    obtain ⟨u, rfl⟩ := List.head?_eq_some_iff.mp hc
    obtain ⟨e, t, heq, he⟩ := hexp.head
    cases j with
    | zero => exact absurd heq (by simp)
    | succ j =>
      rw [List.take_succ_cons] at heq
      exact .inr ((List.cons.inj heq).1 ▸ he)

theorem Tail.not_digit {u : Bytes} {j : Nat} (h : Tail u j) :
    ∀ c ∈ u.head?, isDigitChar c = false := by
  intro c hc
  rcases h.head c hc with ⟨-, hword⟩ | rfl | rfl
  · by_contra hdigit
    rw [isWord_of_digit (by simpa using hdigit)] at hword
    exact absurd hword (by decide)
  · rfl
  · rfl

theorem exponentLength_of_endsHere {u : Bytes} (h : endsHere u = true) :
    exponentLength u = none := by
  cases u with
  | nil => rfl
  | cons c u =>
    apply if_neg
    have hword := head_of_endsHere h c rfl
    rintro (rfl | rfl) <;> exact absurd hword (by decide)

/-- Where the number of a mantissa ends. -/
theorem mantissaEnd_iff {s : Bytes} {n k : Nat} :
    mantissaEnd s n = some k ↔ ∃ j, k = n + j ∧ Tail (s.drop n) j := by
  constructor
  · intro h
    rcases mantissaEnd_cases h with ⟨e, he, rfl, hend⟩ | ⟨rfl, hend⟩
    · exact ⟨e, rfl, .inr ⟨exponentLength_le he, exponent_take he⟩, by rwa [List.drop_drop]⟩
    · exact ⟨0, rfl, .inl rfl, hend⟩
  · rintro ⟨j, rfl, hj, hend⟩
    rcases hj with rfl | ⟨hle, hexp⟩
    · rw [List.drop_zero] at hend
      rw [mantissaEnd, exponentLength_of_endsHere hend]
      exact if_pos hend
    · have hlength : exponentLength (s.drop n) = some j := by
        have hstop : ∀ c ∈ ((s.drop n).drop j).head?, isDigitChar c = false :=
          Tail.not_digit (j := 0) ⟨.inl rfl, hend⟩
        have := exponentLength_of_exponent hexp hstop
        rwa [List.take_append_drop, List.length_take, Nat.min_eq_left hle] at this
      rw [List.drop_drop] at hend
      rw [mantissaEnd, hlength]
      exact if_pos hend

/-! ## What is found is a number -/

theorem radix_sound {s : Bytes} {k : Nat} (h : radixEnd s = some k) :
    IsNumber (s.take k) ∧ endsHere (s.drop k) = true := by
  obtain ⟨x, t, rfl, hpos, hend, rfl⟩ := radixEnd_eq_some.mp h
  have hrun := digits_takeWhile hpos
  have htake : t.take (t.takeWhile (radixDigit x)).length = t.takeWhile (radixDigit x) :=
    (List.prefix_iff_eq_take.mp (List.takeWhile_prefix _)).symm
  rw [Nat.add_comm, List.take_succ_cons, List.take_succ_cons, htake]
  refine ⟨?_, hend⟩
  rcases radix_of_digits hpos with rfl | rfl | rfl | rfl
  · exact .hex (.inl rfl) hrun
  · exact .hex (.inr rfl) hrun
  · exact .binary (.inl rfl) hrun
  · exact .binary (.inr rfl) hrun

theorem mantissa_sound {s : Bytes} {n k : Nat} (hm : Mantissa (s.take n))
    (h : mantissaEnd s n = some k) : IsNumber (s.take k) ∧ endsHere (s.drop k) = true := by
  obtain ⟨j, rfl, hj, hend⟩ := mantissaEnd_iff.mp h
  rw [List.drop_drop] at hend
  refine ⟨?_, hend⟩
  rcases hj with rfl | ⟨-, hexp⟩
  · exact .decimal hm
  · rw [List.take_add]
    exact .scientific hm hexp

theorem numberEnd_sound {s : Bytes} {k : Nat} (h : numberEnd s = some k) :
    IsNumber (s.take k) ∧ endsHere (s.drop k) = true := by
  rcases numberEnd_cases h with hradix | ⟨f, hf, hmantissa⟩ | ⟨hpos, hmantissa⟩
  · exact radix_sound hradix
  · refine mantissa_sound ?_ hmantissa
    rcases Nat.eq_zero_or_pos (digitsLength s) with hzero | hpos
    · rw [hzero, Nat.zero_add]
      rw [hzero] at hf
      exact .fraction (fraction_take hf)
    · rw [List.take_add, take_digitsLength]
      exact .both (digits_takeWhile hpos) (fraction_take hf)
  · refine mantissa_sound ?_ hmantissa
    rw [take_digitsLength]
    exact .integer (digits_takeWhile hpos)

/-! ## No number is longer -/

/-- A number in another base is found. -/
theorem radix_complete {x : UInt8} {w t : Bytes} (hw : Digits (radixDigit x) w)
    (ht : endsHere t = true) : numberEnd (48 :: x :: w ++ t) = some (48 :: x :: w).length := by
  have hstop : ∀ c ∈ t.head?, radixDigit x c = false := by
    intro c hc
    by_contra hdigit
    have hword := head_of_endsHere ht c hc
    rw [isWord_of_radixDigit (by simpa using hdigit)] at hword
    exact absurd hword (by decide)
  have hrun := takeWhile_digits hw hstop
  have hradix : radixEnd (48 :: x :: w ++ t) = some (48 :: x :: w).length := by
    refine radixEnd_eq_some.mpr ⟨x, w ++ t, rfl, ?_, ?_, ?_⟩
    · rw [hrun]
      exact hw.length_pos
    · rw [hrun, List.drop_left]
      exact ht
    · rw [hrun, List.length_cons, List.length_cons, Nat.add_assoc, Nat.add_comm]
  rw [numberEnd, hradix]

/-- A mantissa is all the digits there are, or with the fraction behind them. -/
theorem mantissa_length {m u : Bytes} (hm : Mantissa m)
    (hu : ∀ c ∈ u.head?, isDigitChar c = false) :
    (0 < digitsLength (m ++ u) ∧ m.length = digitsLength (m ++ u)) ∨
      ∃ f, fractionLength ((m ++ u).drop (digitsLength (m ++ u))) = some f ∧
        m.length = digitsLength (m ++ u) + f := by
  have hdot : ∀ {f : Bytes} (t : Bytes), Fraction f →
      ∀ c ∈ (f ++ t).head?, isDigitChar c = false := by
    rintro f t ⟨-⟩ c hc
    obtain rfl : 46 = c := by simpa using hc
    rfl
  cases hm with
  | integer hw =>
    rw [digitsLength_of_digits hw hu]
    exact .inl ⟨hw.length_pos, rfl⟩
  | @both w f hw hf =>
    have hint : digitsLength (w ++ f ++ u) = w.length := by
      rw [List.append_assoc]
      exact digitsLength_of_digits hw (hdot u hf)
    refine .inr ⟨f.length, ?_, by rw [hint, List.length_append]⟩
    rw [hint, List.append_assoc, List.drop_left]
    exact fractionLength_of_fraction hf hu
  | fraction hf =>
    have hint : digitsLength (m ++ u) = 0 := by
      have hstop := hdot u hf
      obtain ⟨-⟩ := hf
      rw [List.cons_append, digitsLength, List.takeWhile_cons_of_neg (by decide)]
      rfl
    refine .inr ⟨m.length, ?_, by rw [hint, Nat.zero_add]⟩
    rw [hint, List.drop_zero]
    exact fractionLength_of_fraction hf hu

/-- Behind a mantissa that has a tail, no other base is read. -/
theorem radixEnd_of_mantissa {m u : Bytes} {j : Nat} (hm : Mantissa m) (hu : Tail u j) :
    radixEnd (m ++ u) = none := by
  rw [Option.eq_none_iff_forall_ne_some]
  intro n hn
  obtain ⟨x, t, heq, hpos, -, -⟩ := radixEnd_eq_some.mp hn
  have hx : isDigitChar x = false ∧ x ≠ 46 ∧ isWord x = true ∧ x ≠ 101 ∧ x ≠ 69 := by
    rcases radix_of_digits hpos with rfl | rfl | rfl | rfl <;> decide
  have hone : digitsLength (m ++ u) = 1 := by
    rw [heq, digitsLength, List.takeWhile_cons_of_pos (by decide),
      List.takeWhile_cons_of_neg (by simp [hx.1])]
    rfl
  have hrest : (m ++ u).drop (digitsLength (m ++ u)) = x :: t := by
    rw [hone, heq]
    rfl
  rcases mantissa_length hm hu.not_digit with ⟨-, hlength⟩ | ⟨f, hf, -⟩
  · rw [← hlength, List.drop_left] at hrest
    rcases hu.head x (by rw [hrest]; rfl) with ⟨-, hword⟩ | he
    · rw [hx.2.2.1] at hword
      exact absurd hword (by decide)
    · exact he.elim hx.2.2.2.1 hx.2.2.2.2
  · rw [hrest] at hf
    obtain ⟨d, t', hdot, -⟩ := fractionLength_eq_some.mp hf
    exact hx.2.1 (List.cons.inj hdot).1

/-- A reading of a mantissa and a tail is no longer than what is found. -/
theorem mantissa_complete {m u : Bytes} {j : Nat} (hm : Mantissa m) (hu : Tail u j) :
    ∃ n, numberEnd (m ++ u) = some n ∧ m.length + j ≤ n := by
  have hradix := radixEnd_of_mantissa hm hu
  rcases mantissa_length hm hu.not_digit with ⟨hpos, hlength⟩ | ⟨f, hf, hlength⟩
  · have hrest : (m ++ u).drop (digitsLength (m ++ u)) = u := by rw [← hlength, List.drop_left]
    have hint : mantissaEnd (m ++ u) (digitsLength (m ++ u)) = some (m.length + j) :=
      mantissaEnd_iff.mpr ⟨j, by rw [hlength], by rwa [hrest]⟩
    cases hfound : ((fractionLength u).map (digitsLength (m ++ u) + ·)).bind
      (mantissaEnd (m ++ u)) with
    | none =>
      exact ⟨m.length + j, by simp only [numberEnd, hradix, hrest, hfound, hpos, if_true,
        hint], Nat.le_refl _⟩
    | some n =>
      refine ⟨n, by simp only [numberEnd, hradix, hrest, hfound], ?_⟩
      -- a fraction starts with a dot, so there was no exponent
      obtain ⟨_, hf, hn⟩ := Option.bind_eq_some_iff.mp hfound
      obtain ⟨f, hdot, rfl⟩ := Option.map_eq_some_iff.mp hf
      obtain ⟨i, rfl, -⟩ := mantissaEnd_iff.mp hn
      obtain ⟨d, t, hu', -, -⟩ := fractionLength_eq_some.mp hdot
      have hj : j = 0 := by
        rcases hu.head 46 (by rw [hu']; rfl) with ⟨hzero, -⟩ | he
        · exact hzero
        · exact absurd he (by decide)
      omega
  · have hrest : (m ++ u).drop (digitsLength (m ++ u) + f) = u := by rw [← hlength, List.drop_left]
    have hfound : mantissaEnd (m ++ u) (digitsLength (m ++ u) + f) = some (m.length + j) :=
      mantissaEnd_iff.mpr ⟨j, by rw [hlength], by rwa [hrest]⟩
    exact ⟨m.length + j, by simp only [numberEnd, hradix, hf, Option.map_some,
      Option.bind_some, hfound], Nat.le_refl _⟩

theorem numberEnd_complete {w t : Bytes} (hw : IsNumber w) (ht : endsHere t = true) :
    ∃ n, numberEnd (w ++ t) = some n ∧ w.length ≤ n := by
  cases hw with
  | @hex x w hx hw =>
    have hrun : Digits (radixDigit x) w := by
      rcases hx with rfl | rfl <;> exact hw
    exact ⟨_, radix_complete hrun ht, Nat.le_refl _⟩
  | @binary x w hx hw =>
    have hrun : Digits (radixDigit x) w := by
      rcases hx with rfl | rfl <;> exact hw
    exact ⟨_, radix_complete hrun ht, Nat.le_refl _⟩
  | decimal hm => exact mantissa_complete (j := 0) hm ⟨.inl rfl, ht⟩
  | @scientific m e hm he =>
    rw [List.append_assoc, List.length_append]
    refine mantissa_complete hm ⟨.inr ⟨?_, ?_⟩, ?_⟩
    · rw [List.length_append]
      exact Nat.le_add_right _ _
    · rwa [List.take_left]
    · rwa [List.drop_left]

/-! ## The longest reading -/

/-- `number_end` returns the last place where a number that starts at `i` stands, and -1 when
there is none. -/
theorem numberEndAt_greatest (text : Bytes) (i : Nat) :
    (∀ k, numberEndAt text i = some k ↔ IsGreatest {k | Stands text i k} k) ∧
      (numberEndAt text i = none ↔ ∀ k, ¬ Stands text i k) := by
  have hsound : ∀ k, numberEndAt text i = some k → Stands text i k := by
    intro k hk
    obtain ⟨n, hn, rfl⟩ := Option.map_eq_some_iff.mp hk
    obtain ⟨hnumber, hend⟩ := numberEnd_sound hn
    have hle := numberEnd_le hn
    have hi : i ≤ text.length := by
      by_contra hlong
      have hnil : numberEnd [] = none := rfl
      rw [List.drop_eq_nil_of_le (by omega), hnil] at hn
      exact absurd hn (by simp)
    rw [List.length_drop] at hle
    rw [List.drop_drop] at hend
    exact ⟨Nat.le_add_right i n, by omega, by rwa [Nat.add_sub_cancel_left], hend⟩
  have hcomplete : ∀ k, Stands text i k → ∃ n, numberEndAt text i = some n ∧ k ≤ n := by
    rintro k ⟨hik, hle, hnumber, hend⟩
    have hdrop : (text.drop i).drop (k - i) = text.drop k := by
      rw [List.drop_drop, Nat.add_sub_cancel' hik]
    rw [← hdrop] at hend
    obtain ⟨n, hn, hlen⟩ := numberEnd_complete hnumber hend
    rw [List.take_append_drop] at hn
    rw [List.length_take, List.length_drop] at hlen
    exact ⟨i + n, by rw [numberEndAt, hn, Option.map_some], by omega⟩
  constructor
  · intro k
    constructor
    · intro hk
      refine ⟨hsound k hk, fun m hm => ?_⟩
      obtain ⟨n, hn, hle⟩ := hcomplete m hm
      rw [hk] at hn
      exact Option.some.inj hn ▸ hle
    · rintro ⟨hk, hmax⟩
      obtain ⟨n, hn, hle⟩ := hcomplete k hk
      rw [hn, Nat.le_antisymm hle (hmax (hsound n hn))]
  · constructor
    · intro hnone k hk
      obtain ⟨n, hn, -⟩ := hcomplete k hk
      rw [hnone] at hn
      exact absurd hn (by simp)
    · intro hno
      rw [Option.eq_none_iff_forall_ne_some]
      exact fun k hk => hno k (hsound k hk)

example : numberEndAt (ascii "x=1.5x") 2 = some 3 := by decide

end ForgeOps.SqlStatement
