import ForgeOpsTracker.Lib.Printf
import ForgeOpsTracker.Lib.JsonReader
import Mathlib.Tactic.FieldSimp
import Mathlib.Tactic.Positivity

/-! Seventeen digits are enough to tell a `double` from every other one: what `%.17g` writes, read
as a decimal number and rounded to the nearest `double`, is the value it was written for. -/

namespace ForgeOps

/-! ## Rounding to the nearest -/

theorem roundEven_near (x : Rat) : |(roundEven x : Rat) - x| ≤ 1 / 2 := by
  have hbelow : (⌊x⌋ : Rat) ≤ x := Int.floor_le x
  have habove : x < ⌊x⌋ + 1 := Int.lt_floor_add_one x
  unfold roundEven
  dsimp only
  split
  · rename_i hrest
    have hhalf : x - ⌊x⌋ ≤ 1 / 2 := by
      rcases hrest with h | h
      · exact h.le
      · exact h.1.le
    rw [abs_le]
    constructor <;> linarith
  · rename_i hrest
    have hhalf : 1 / 2 ≤ x - ⌊x⌋ := by
      by_contra hless
      exact hrest (.inl (not_le.mp hless))
    push_cast
    rw [abs_le]
    constructor <;> linarith

/-- An integer less than half away is the one that is rounded to. -/
theorem roundEven_eq {x : Rat} {n : Int} (h : |x - n| < 1 / 2) : roundEven x = n := by
  have hnear := roundEven_near x
  have htriangle : |(roundEven x : Rat) - n| ≤ |(roundEven x : Rat) - x| + |x - n| :=
    abs_sub_le _ _ _
  have hlt : |((roundEven x - n : Int) : Rat)| < 1 := by
    push_cast
    linarith
  have hzero : |roundEven x - n| < 1 := by exact_mod_cast hlt
  exact sub_eq_zero.mp (Int.abs_lt_one_iff.mp hzero)

namespace Double

/-! ## The place of the last bit -/

theorem abs_lt_place (q : Rat) : |q| < 2 ^ (lastPlace q + 53) := by
  have hlog : |q| < ((2 : Nat) : Rat) ^ (Int.log 2 |q| + 1) :=
    Int.lt_zpow_succ_log_self (by norm_num) |q|
  have hplace : Int.log 2 |q| - 52 ≤ lastPlace q := le_max_left _ _
  exact hlog.trans_le (zpow_le_zpow_right₀ (by norm_num) (by omega))

theorem lastPlace_le {q : Rat} (hq : q ≠ 0) {k : Int} (hk : -1074 ≤ k) (h : |q| < 2 ^ (k + 53)) :
    lastPlace q ≤ k := by
  have hlog : Int.log 2 |q| < k + 53 := by
    rw [← Int.lt_zpow_iff_log_lt (by norm_num) (abs_pos.mpr hq)]
    exact_mod_cast h
  exact max_le (by omega) hk

theorem le_lastPlace {q : Rat} (hq : q ≠ 0) {k : Int} (h : 2 ^ (k + 52) ≤ |q|) :
    k ≤ lastPlace q := by
  have hlog : k + 52 ≤ Int.log 2 |q| := by
    rw [← Int.zpow_le_iff_le_log (by norm_num) (abs_pos.mpr hq)]
    exact_mod_cast h
  exact le_max_of_le_left (by omega)

/-- Above the least place the leading bit is 52 places before the last. -/
theorem place_le_abs {q : Rat} (hq : q ≠ 0) (h : -1074 < lastPlace q) :
    2 ^ (lastPlace q + 52) ≤ |q| := by
  have hplace : lastPlace q = Int.log 2 |q| - 52 := by
    have hmax : lastPlace q = max (Int.log 2 |q| - 52) (-1074) := rfl
    omega
  have hlog : ((2 : Nat) : Rat) ^ Int.log 2 |q| ≤ |q| :=
    Int.zpow_log_le_self (by norm_num) (abs_pos.mpr hq)
  rw [hplace, sub_add_cancel]
  exact_mod_cast hlog

/-! ## What is rounded to a double -/

theorem round_eq {q d : Rat} {n : Int} (hn : q = n * 2 ^ lastPlace d)
    (h : |d - q| < 2 ^ lastPlace d / 2) (hfinite : |q| < 2 ^ 1024) : round d = finite q := by
  have hunit : (0 : Rat) < 2 ^ lastPlace d := zpow_pos (by norm_num) _
  have hnear : |d / 2 ^ lastPlace d - n| < 1 / 2 := by
    have hdiv : d / 2 ^ lastPlace d - n = (d - q) / 2 ^ lastPlace d := by
      rw [hn]
      field_simp
    rw [hdiv, abs_div, abs_of_pos hunit, div_lt_iff₀ hunit]
    linarith
  unfold round
  dsimp only
  rw [roundEven_eq hnear, ← hn, if_neg (not_le.mpr hfinite)]

/-- A double is a multiple of its last place, and finite. -/
theorem of_round_eq {q : Rat} (h : round q = finite q) :
    (∃ n : Int, q = n * 2 ^ lastPlace q) ∧ |q| < 2 ^ 1024 := by
  unfold round at h
  dsimp only at h
  split at h
  · exact absurd h (by simp)
  · rename_i hbound
    obtain hround := finite.inj h
    rw [hround] at hbound
    exact ⟨⟨_, hround.symm⟩, not_le.mp hbound⟩

theorem zpow_place (k : Int) : (2 : Rat) ^ (k + 53) = 2 ^ 53 * 2 ^ k ∧
    (2 : Rat) ^ (k + 52) = 2 ^ 52 * 2 ^ k ∧ (2 : Rat) ^ k = 2 * 2 ^ (k - 1) := by
  have hsplit : ∀ i j : Int, (2 : Rat) ^ (i + j) = 2 ^ j * 2 ^ i := fun i j => by
    rw [zpow_add₀ (by norm_num), mul_comm]
  refine ⟨hsplit k 53, hsplit k 52, ?_⟩
  have := hsplit (k - 1) 1
  rwa [sub_add_cancel, zpow_one] at this

/-- A multiple below another one is a whole unit below it. -/
theorem multiple_le {u a : Rat} (hu : 0 < u) {n m : Int} (ha : a = n * u) (h : a < m * u) :
    a ≤ (m - 1) * u := by
  have hlt : (n : Rat) < m := by
    rw [ha] at h
    exact lt_of_mul_lt_mul_right h hu.le
  have hle : (n : Rat) ≤ m - 1 := by
    have : n ≤ m - 1 := Int.le_sub_one_of_lt (Int.cast_lt.mp hlt)
    exact_mod_cast this
  rw [ha]
  exact mul_le_mul_of_nonneg_right hle hu.le

section
variable {q d : Rat} (hround : round q = finite q) (hd : |d - q| * 2 ^ 54 < |q|)
include hd

theorem abs_sub_near : |q| ≤ |d| + |d - q| ∧ |d| ≤ |q| + |d - q| ∧ q ≠ 0 ∧ d ≠ 0 := by
  have hnonneg : 0 ≤ |d - q| := abs_nonneg _
  have hpos : 0 < |q| := by linarith
  refine ⟨?_, ?_, abs_pos.mp hpos, ?_⟩
  · have := abs_add_le d (q - d)
    rwa [add_sub_cancel, abs_sub_comm q d] at this
  · have := abs_add_le q (d - q)
    rwa [add_sub_cancel] at this
  · rintro rfl
    rw [zero_sub, abs_neg] at hd
    linarith

/-- The distance is less than half the double's last place. -/
theorem near_place : |d - q| < 2 ^ lastPlace q / 2 := by
  have hbelow := abs_lt_place q
  rw [(zpow_place _).1] at hbelow
  linarith

include hround

/-- The rational's last place is no higher: a double stays a whole place below the next power of
two. -/
theorem lastPlace_le_near : lastPlace d ≤ lastPlace q := by
  obtain ⟨⟨n, hn⟩, -⟩ := of_round_eq hround
  obtain ⟨-, hdq, hq, hd0⟩ := abs_sub_near hd
  have hunit : (0 : Rat) < 2 ^ lastPlace q := zpow_pos (by norm_num) _
  have hnear := near_place hd
  have hbelow := abs_lt_place q
  have habs : |q| = ((|n| : Int) : Rat) * 2 ^ lastPlace q := by
    conv_lhs => rw [hn]
    rw [abs_mul, abs_of_pos hunit, Int.cast_abs]
  rw [(zpow_place _).1] at hbelow
  have hup := multiple_le (m := 2 ^ 53) hunit habs (by push_cast; exact hbelow)
  have hleast : -1074 ≤ lastPlace q := le_max_right _ _
  apply lastPlace_le hd0 hleast
  rw [(zpow_place _).1]
  push_cast at hup
  linarith

/-- Where it is lower, the double is a power of two and the rational just below it. -/
theorem lastPlace_near (h : lastPlace d < lastPlace q) :
    |d - q| < 2 ^ lastPlace q / 4 ∧ lastPlace d = lastPlace q - 1 := by
  obtain ⟨⟨n, hn⟩, -⟩ := of_round_eq hround
  obtain ⟨hqd, -, hq, hd0⟩ := abs_sub_near hd
  have hunit : (0 : Rat) < 2 ^ lastPlace q := zpow_pos (by norm_num) _
  have hnear := near_place hd
  have habs : |q| = ((|n| : Int) : Rat) * 2 ^ lastPlace q := by
    conv_lhs => rw [hn]
    rw [abs_mul, abs_of_pos hunit, Int.cast_abs]
  have hleast : -1074 ≤ lastPlace d := le_max_right _ _
  have hplace := place_le_abs hq (by omega)
  have hbelow : |d| < 2 ^ (lastPlace q + 52) :=
    (abs_lt_place d).trans_le (zpow_le_zpow_right₀ (by norm_num) (by omega))
  rw [(zpow_place _).2.1] at hplace hbelow
  have hpower := multiple_le (m := 2 ^ 52 + 1) hunit habs (by push_cast; linarith)
  push_cast at hpower
  refine ⟨by linarith, ?_⟩
  have hge : lastPlace q - 1 ≤ lastPlace d := by
    apply le_lastPlace hd0
    rw [(zpow_place _).2.1]
    have hhalf := (zpow_place (lastPlace q)).2.2
    linarith
  omega

/-- A rational as near to a double as one part in `2 ^ 54` is rounded to it. -/
theorem round_near : round d = finite q := by
  obtain ⟨⟨n, hn⟩, hfinite⟩ := of_round_eq hround
  rcases (lastPlace_le_near hround hd).eq_or_lt with heq | hless
  · have hnear := near_place hd
    rw [← heq] at hn hnear
    exact round_eq hn hnear hfinite
  · obtain ⟨hnear, hplace⟩ := lastPlace_near hround hd hless
    have hhalf := (zpow_place (lastPlace q)).2.2
    refine round_eq (n := n * 2) ?_ ?_ hfinite
    · rw [hplace, Int.cast_mul, Int.cast_ofNat, mul_assoc, ← hhalf]
      exact hn
    · rw [hplace]
      linarith

end

end Double

/-! ## Reading a decimal number -/

namespace Json

def digitsValue (ds : Bytes) : Nat := ds.foldl (fun n c => n * 10 + (c.toNat - 48)) 0

/-- The exponent behind its letter. -/
def exponentValue : Bytes → Int
  | _ :: 45 :: ds => -(digitsValue ds)
  | _ :: 43 :: ds => digitsValue ds
  | _ :: ds => digitsValue ds
  | [] => 0

/-- The places behind the point, and what follows them. -/
def placesOf : Bytes → Bytes × Bytes
  | 46 :: s => (s.takeWhile Byte.isDigit, s.dropWhile Byte.isDigit)
  | s => ([], s)

def magnitude (s : Bytes) : Rat :=
  let int := s.takeWhile Byte.isDigit
  let (places, exponent) := placesOf (s.dropWhile Byte.isDigit)
  digitsValue (int ++ places) * 10 ^ (exponentValue exponent - places.length)

/-- The number that a JSON number says. -/
def numberValue : Bytes → Rat
  | 45 :: s => -magnitude s
  | s => magnitude s

example : numberValue (ascii "-12.50e-1") = -5 / 4 := by decide +kernel

theorem digitsValue_concat (ds : Bytes) (c : UInt8) :
    digitsValue (ds ++ [c]) = digitsValue ds * 10 + (c.toNat - 48) := by
  rw [digitsValue, List.foldl_append]
  rfl

theorem digitsValue_append (a b : Bytes) :
    digitsValue (a ++ b) = digitsValue a * 10 ^ b.length + digitsValue b := by
  induction b using List.reverseRecOn with
  | nil => simp [digitsValue]
  | append_singleton b c ih =>
    rw [← List.append_assoc, digitsValue_concat, digitsValue_concat, ih, List.length_append,
      List.length_singleton, pow_succ]
    ring

theorem digitsValue_zeros (n : Nat) : digitsValue (List.replicate n 48) = 0 := by
  induction n with
  | zero => rfl
  | succ n ih =>
    rw [List.replicate_succ', digitsValue_append, ih]
    rfl

theorem digitsValue_decimal (n : Nat) : digitsValue (decimal n) = n := by
  induction n using Nat.strongRecOn with
  | ind n ih =>
    have hdigit : ∀ d < 10, digitsValue [UInt8.ofNat (48 + d)] = d := by decide
    by_cases hn : n < 10
    · rw [decimal_lt_ten hn, hdigit n hn]
    · rw [decimal_step (by omega), digitsValue_append, ih (n / 10) (by omega),
        List.length_singleton]
      have hlast := hdigit (n % 10) (Nat.mod_lt _ (by decide))
      rw [hlast]
      omega

theorem digitsValue_decimalPadded (width n : Nat) : digitsValue (decimalPadded width n) = n := by
  rw [decimalPadded, digitsValue_append, digitsValue_zeros, digitsValue_decimal,
    Nat.zero_mul, Nat.zero_add]

/-- Zeros at the end of the places change nothing. -/
theorem magnitude_zeros (int kept : Bytes) (zeros : Nat) (exponent : Int) :
    (digitsValue (int ++ (kept ++ List.replicate zeros 48)) : Rat) *
        10 ^ (exponent - (kept ++ List.replicate zeros 48).length) =
      digitsValue (int ++ kept) * 10 ^ (exponent - kept.length) := by
  have hten : (10 : Rat) ≠ 0 := by norm_num
  rw [← List.append_assoc, digitsValue_append (int ++ kept), digitsValue_zeros, Nat.add_zero,
    List.length_append, List.length_replicate]
  push_cast
  rw [mul_assoc, ← zpow_natCast, ← zpow_add₀ hten]
  congr 2
  ring

end Json

/-! ## What `%.17g` says -/

namespace Printf
open Json

theorem fraction_eq (places : Bytes) : ∃ kept zeros, places = kept ++ List.replicate zeros 48 ∧
    fraction places = if kept = [] then [] else 46 :: kept := by
  refine ⟨(places.reverse.dropWhile (· = 48)).reverse,
    (places.reverse.takeWhile (· = 48)).length, ?_, rfl⟩
  have hsplit := congrArg List.reverse
    (List.takeWhile_append_dropWhile (p := (· = (48 : UInt8))) (l := places.reverse))
  rw [List.reverse_append, List.reverse_reverse] at hsplit
  have hzeros : (places.reverse.takeWhile (· = (48 : UInt8))).reverse =
      List.replicate (places.reverse.takeWhile (· = (48 : UInt8))).length 48 := by
    rw [List.eq_replicate_iff, List.length_reverse]
    refine ⟨rfl, fun c hc => ?_⟩
    simpa using List.mem_takeWhile_imp (List.mem_reverse.mp hc)
  rw [← hzeros]
  exact hsplit.symm

/-- Nothing that is read as part of the digits follows them. -/
def EndsDigits (exponent : Bytes) : Prop := ∀ c ∈ exponent.head?, Byte.isDigit c = false ∧ c ≠ 46

theorem magnitude_text {int places exponent : Bytes} (hint : int.all Byte.isDigit = true)
    (hplaces : places.all Byte.isDigit = true) (hend : EndsDigits exponent) :
    magnitude (int ++ fraction places ++ exponent) =
      digitsValue (int ++ places) * 10 ^ (exponentValue exponent - places.length) := by
  obtain ⟨kept, zeros, hsplit, hfraction⟩ := fraction_eq places
  have hkept : kept.all Byte.isDigit = true := by
    rw [hsplit, List.all_append, Bool.and_eq_true] at hplaces
    exact hplaces.1
  have hexponent : ∀ c ∈ exponent.head?, Byte.isDigit c = false := fun c hc => (hend c hc).1
  rw [hfraction, hsplit, magnitude_zeros, List.append_assoc]
  unfold magnitude
  split
  · rename_i hempty
    subst hempty
    have hplain : placesOf exponent = ([], exponent) := by
      unfold placesOf
      split
      · exact absurd rfl (hend 46 rfl).2
      · rfl
    rw [List.nil_append, (takeWhile_digits hint hexponent).1,
      (takeWhile_digits hint hexponent).2, hplain]
  · have hpoint : ∀ c ∈ (46 :: kept ++ exponent).head?, Byte.isDigit c = false := by
      rintro c hc
      obtain rfl := Option.some.inj hc
      rfl
    rw [(takeWhile_digits hint hpoint).1, (takeWhile_digits hint hpoint).2, List.cons_append,
      placesOf, (takeWhile_digits hkept hexponent).1, (takeWhile_digits hkept hexponent).2]

/-- Cutting a number's last places off and writing them behind the point moves the point. -/
theorem digitsValue_places (digits places : Nat) (exponent : Int) :
    (digitsValue (decimal (digits / 10 ^ places) ++
      decimalPadded places (digits % 10 ^ places)) : Rat) *
        10 ^ (exponent - (decimalPadded places (digits % 10 ^ places)).length) =
        digits * 10 ^ (exponent - places) := by
  rw [digitsValue_append, digitsValue_decimal, digitsValue_decimalPadded]
  rcases Nat.eq_zero_or_pos places with rfl | hpos
  · rw [pow_zero, Nat.mod_one, Nat.div_one]
    have hzero : (decimalPadded 0 0).length = 1 := rfl
    rw [hzero, Nat.add_zero, pow_one, Nat.cast_mul, mul_assoc]
    congr 1
    rw [Nat.cast_ofNat, Nat.cast_one, Nat.cast_zero, sub_zero, ← zpow_one_add₀ (by norm_num),
      add_sub_cancel]
  · rw [decimalPadded_length hpos (Nat.mod_lt _ (Nat.pow_pos (by norm_num))), Nat.div_add_mod']

theorem exponentValue_exponentText (exponent : Int) :
    exponentValue (exponentText exponent) = exponent := by
  unfold exponentText
  split
  · show -(digitsValue (decimalPadded 2 exponent.natAbs) : Int) = exponent
    rw [digitsValue_decimalPadded]
    omega
  · show (digitsValue (decimalPadded 2 exponent.natAbs) : Int) = exponent
    rw [digitsValue_decimalPadded]
    omega

theorem endsDigits_exponentText (exponent : Int) : EndsDigits (exponentText exponent) := by
  rintro c hc
  obtain rfl := Option.some.inj hc
  exact ⟨rfl, by decide⟩

/-- The sign stands before the digits. -/
theorem numberValue_sign (q : Rat) (digits : Nat) (rest : Bytes) :
    numberValue (sign q ++ decimal digits ++ rest) =
      (if q < 0 then -1 else 1) * magnitude (decimal digits ++ rest) := by
  rw [List.append_assoc]
  unfold sign
  split
  · rw [neg_one_mul]
    rfl
  · rw [List.nil_append, one_mul]
    obtain ⟨c, ds, hc⟩ := List.exists_cons_of_ne_nil (decimal_ne_nil digits)
    have hdigit := decimal_isDigit digits c (hc ▸ List.mem_cons_self ..)
    rw [hc, List.cons_append, numberValue]
    rintro s hs
    obtain ⟨rfl, -⟩ := List.cons.inj hs
    exact absurd hdigit (by decide)

/-- The text says the digits and the exponent it was made of. -/
theorem numberValue_generalFinite (q : Rat) : numberValue (generalFinite q) =
    (if q < 0 then -1 else 1) * ((scientific q).1 * 10 ^ ((scientific q).2 - 16)) := by
  have hdecimal : ∀ n, (decimal n).all Byte.isDigit = true := fun n =>
    List.all_eq_true.mpr (decimal_isDigit n)
  unfold generalFinite
  dsimp only
  generalize (scientific q).1 = digits
  generalize (scientific q).2 = exponent
  split
  · rename_i hrange
    have hplain : EndsDigits [] := fun c hc => nomatch hc
    have htext := magnitude_text (hdecimal (digits / 10 ^ (16 - exponent).toNat))
      (decimalPadded_isDigit (16 - exponent).toNat (digits % 10 ^ (16 - exponent).toNat)) hplain
    rw [List.append_nil, digitsValue_places, exponentValue, Int.toNat_of_nonneg (by omega),
      zero_sub, neg_sub] at htext
    rw [numberValue_sign, htext]
  · have htext := magnitude_text (hdecimal (digits / 10 ^ 16))
      (decimalPadded_isDigit 16 (digits % 10 ^ 16))
      (endsDigits_exponentText exponent)
    rw [digitsValue_places, exponentValue_exponentText] at htext
    rw [List.append_assoc, numberValue_sign, ← List.append_assoc, htext]
    rfl

/-- Seventeen digits come within half a unit of the last one. -/
theorem scientific_near {q : Rat} (hq : q ≠ 0) :
    |((scientific q).1 : Rat) * 10 ^ ((scientific q).2 - 16) - (|q|)| * 2 ^ 54 < |q| := by
  have hpos : 0 < |q| := abs_pos.mpr hq
  obtain ⟨exponent, hexponent⟩ : ∃ exponent, Int.log 10 |q| = exponent := ⟨_, rfl⟩
  have hunit : (0 : Rat) < 10 ^ (exponent - 16) := zpow_pos (by norm_num) _
  have hlog : (10 : Rat) ^ exponent ≤ |q| := by
    have := Int.zpow_log_le_self (b := 10) (by norm_num) hpos
    rwa [hexponent] at this
  have hsplit : (10 : Rat) ^ exponent = 10 ^ 16 * 10 ^ (exponent - 16) := by
    rw [show exponent = 16 + (exponent - 16) by ring, zpow_add₀ (by norm_num)]
    norm_num
  have hnear := roundEven_near (|q| / 10 ^ (exponent - 16))
  have hdigits : 0 ≤ roundEven (|q| / 10 ^ (exponent - 16)) := by
    have hge : (10 : Rat) ^ 16 ≤ |q| / 10 ^ (exponent - 16) := by
      rw [le_div_iff₀ hunit, ← hsplit]
      exact hlog
    have hlow := (abs_le.mp hnear).1
    have hcast : (0 : Rat) ≤ roundEven (|q| / 10 ^ (exponent - 16)) := by linarith
    exact_mod_cast hcast
  have hvalue : ((scientific q).1 : Rat) * 10 ^ ((scientific q).2 - 16) =
      roundEven (|q| / 10 ^ (exponent - 16)) * 10 ^ (exponent - 16) := by
    unfold scientific
    rw [if_neg hq, hexponent]
    dsimp only
    have hcast : ((roundEven (|q| / 10 ^ (exponent - 16))).toNat : Rat) =
        roundEven (|q| / 10 ^ (exponent - 16)) := by
      exact_mod_cast Int.toNat_of_nonneg hdigits
    split
    · rename_i hcarry
      rw [← hcast, hcarry, show exponent + 1 - 16 = 1 + (exponent - 16) by
        ring, zpow_add₀ (by norm_num)]
      norm_num
      ring
    · rw [hcast]
  have hscaled : |(roundEven (|q| / 10 ^ (exponent - 16)) : Rat) * 10 ^ (exponent - 16) - (|q|)| ≤
      10 ^ (exponent - 16) / 2 := by
    have hfactor : (roundEven (|q| / 10 ^ (exponent - 16)) : Rat) * 10 ^ (exponent - 16) - |q| =
        (roundEven (|q| / 10 ^ (exponent - 16)) - |q| / 10 ^ (exponent - 16)) *
        10 ^ (exponent - 16) := by
      field_simp
    rw [hfactor, abs_mul, abs_of_pos hunit]
    calc _ ≤ 1 / 2 * (10 : Rat) ^ (exponent - 16) := mul_le_mul_of_nonneg_right hnear hunit.le
      _ = 10 ^ (exponent - 16) / 2 := by ring
  rw [hvalue]
  rw [hsplit] at hlog
  linarith

/-- The exponent of a `double` has at most four digits. -/
theorem scientific_exponent {q : Rat} (h : Double.round q = .finite q) :
    (scientific q).2.natAbs < 10 ^ 4 := by
  by_cases hq : q = 0
  · subst hq
    decide
  have hpos : 0 < |q| := abs_pos.mpr hq
  obtain ⟨⟨n, hn⟩, hfinite⟩ := Double.of_round_eq h
  have hleast : (2 : Rat) ^ (-1074 : Int) ≤ |q| := by
    have hplace : (2 : Rat) ^ (-1074 : Int) ≤ 2 ^ Double.lastPlace q :=
      zpow_le_zpow_right₀ (by norm_num) (le_max_right _ _)
    have hunit : (0 : Rat) < 2 ^ Double.lastPlace q := zpow_pos (by norm_num) _
    have hone : (1 : Rat) ≤ |(n : Rat)| := by
      have hn0 : n ≠ 0 := by
        rintro rfl
        rw [Int.cast_zero, zero_mul] at hn
        exact hq hn
      exact_mod_cast Int.one_le_abs hn0
    rw [hn, abs_mul, abs_of_pos hunit]
    nlinarith
  have hlow : -1074 ≤ Int.log 10 |q| := by
    rw [← Int.zpow_le_iff_le_log (by norm_num) hpos]
    refine le_trans ?_ hleast
    rw [zpow_neg, zpow_neg]
    apply inv_anti₀ (zpow_pos (by norm_num) _)
    rw [zpow_ofNat, zpow_ofNat]
    exact pow_le_pow_left₀ (by norm_num) (by norm_num) 1074
  have hhigh : Int.log 10 |q| < 1024 := by
    rw [← Int.lt_zpow_iff_log_lt (by norm_num) hpos]
    rw [zpow_ofNat]
    exact hfinite.trans_le (pow_le_pow_left₀ (by norm_num) (by norm_num) 1024)
  have hcases : (scientific q).2 = Int.log 10 |q| ∨ (scientific q).2 = Int.log 10 |q| + 1 := by
    unfold scientific
    rw [if_neg hq]
    dsimp only
    split
    · exact .inr rfl
    · exact .inl rfl
  omega

theorem generalFinite_length {q : Rat} (h : Double.round q = .finite q) :
    (generalFinite q).length < 64 := by
  have hdigits := scientific_digits_le q
  have hint : ∀ k, (decimal ((scientific q).1 / 10 ^ k)).length ≤ 18 := fun k =>
    decimal_length_le (by norm_num)
      ((Nat.div_le_self _ _).trans_lt (hdigits.trans_lt (by norm_num)))
  have hsign : (sign q).length ≤ 1 := by
    rcases sign_cases q with hs | hs <;> rw [hs] <;> decide
  have hpadded : ∀ places ≤
      20, (decimalPadded places ((scientific q).1 % 10 ^ places)).length ≤ 20 := by
    intro places hle
    rcases Nat.eq_zero_or_pos places with rfl | hpos
    · rw [pow_zero, Nat.mod_one]
      decide
    · rw [decimalPadded_length hpos (Nat.mod_lt _ (Nat.pow_pos (by norm_num)))]
      exact hle
  have hexponent : (exponentText (scientific q).2).length ≤ 6 := by
    have hle := decimal_length_le (by norm_num) (scientific_exponent h)
    have hmark : ∀ n : Int, (if n < 0 then ascii "-" else ascii "+").length = 1 := fun n =>
      by split <;> rfl
    rw [exponentText, decimalPadded, List.length_append, List.length_append,
      List.length_append, hmark, List.length_replicate]
    show 1 + 1 + _ ≤ 6
    omega
  unfold generalFinite
  dsimp only
  split
  · have := hint (16 - (scientific q).2).toNat
    have hplaces := hpadded (16 - (scientific q).2).toNat (by omega)
    have := fraction_length_le (decimalPadded (16 - (scientific q).2).toNat
      ((scientific q).1 % 10 ^ (16 - (scientific q).2).toNat))
    simp only [List.length_append]
    omega
  · have := hint 16
    have hplaces := hpadded 16 (by norm_num)
    have := fraction_length_le (decimalPadded 16 ((scientific q).1 % 10 ^ 16))
    simp only [List.length_append]
    omega

/-- What `%.17g` writes for a `double` is rounded to that `double` when it is read. -/
theorem generalFinite_exact {q : Rat} (h : Double.round q = .finite q) :
    Double.round (numberValue (generalFinite q)) = .finite q := by
  by_cases hq : q = 0
  · subst hq
    decide +kernel
  refine Double.round_near h ?_
  have hnear := scientific_near hq
  rw [numberValue_generalFinite]
  split
  · rename_i hneg
    rw [abs_of_neg hneg] at hnear ⊢
    rwa [neg_one_mul, neg_sub_left, abs_neg, add_comm, ← sub_neg_eq_add]
  · rename_i hnonneg
    rw [abs_of_nonneg (not_lt.mp hnonneg)] at hnear ⊢
    rwa [one_mul]

/-! ## `%f` -/

theorem numberValue_fixed (places : Nat) (q : Rat) : numberValue (fixed places (.finite q)) =
    (if q < 0 then -1 else 1) * (((roundEven (|q| * 10 ^ places)).toNat : Rat) / 10 ^ places) := by
  generalize hscaled : (roundEven (|q| * 10 ^ places)).toNat = scaled
  have hint : (decimal (scaled / 10 ^ places)).all Byte.isDigit = true :=
    List.all_eq_true.mpr (decimal_isDigit _)
  have hplaces := decimalPadded_isDigit places (scaled % 10 ^ places)
  have hpoint : ∀ c ∈ (46 :: decimalPadded places (scaled % 10 ^ places)).head?,
      Byte.isDigit c = false := by
    rintro c hc
    obtain rfl := Option.some.inj hc
    rfl
  have hend : ∀ c ∈ ([] : Bytes).head?, Byte.isDigit c = false := fun c hc => nomatch hc
  have hsplit := takeWhile_digits hplaces hend
  rw [List.append_nil] at hsplit
  have hmagnitude : magnitude (decimal (scaled / 10 ^ places) ++ 46 ::
      decimalPadded places (scaled % 10 ^ places)) = scaled / 10 ^ places := by
    rw [magnitude, (takeWhile_digits hint hpoint).1, (takeWhile_digits hint hpoint).2, placesOf,
      hsplit.1, hsplit.2]
    dsimp only
    rw [exponentValue, digitsValue_places, zero_sub, zpow_neg, zpow_natCast, div_eq_mul_inv]
  unfold fixed
  dsimp only
  rw [hscaled, numberValue_sign, hmagnitude]

/-- The places written come within half a unit of the last one. -/
theorem fixed_near (places : Nat) (q : Rat) :
    |numberValue (fixed places (.finite q)) - q| ≤ 1 / (2 * 10 ^ places) := by
  have hunit : (0 : Rat) < 10 ^ places := by positivity
  have hscaled : 0 ≤ |q| * 10 ^ places := by positivity
  have hnear := roundEven_near (|q| * 10 ^ places)
  have hnonneg : 0 ≤ roundEven (|q| * 10 ^ places) := by
    by_contra hneg
    have hle : ((roundEven (|q| * 10 ^ places) : Int) : Rat) ≤ ((-1 : Int) : Rat) :=
      Int.cast_le.mpr (by omega)
    have hbelow := (abs_le.mp hnear).1
    push_cast at hle
    linarith
  have hcast : (((roundEven (|q| * 10 ^ places)).toNat : Nat) : Rat) =
      (roundEven (|q| * 10 ^ places) : Int) := by
    exact_mod_cast Int.toNat_of_nonneg hnonneg
  have hmagnitude : |(roundEven (|q| * 10 ^ places) : Rat) / 10 ^ places - (|q|)| ≤
      1 / (2 * 10 ^ places) := by
    have hsplit : (roundEven (|q| * 10 ^ places) : Rat) / 10 ^ places - |q| =
        ((roundEven (|q| * 10 ^ places) : Rat) - |q| * 10 ^ places) / 10 ^ places := by
      field_simp
    rw [hsplit, abs_div, abs_of_pos hunit, div_le_div_iff₀ hunit (by positivity)]
    nlinarith
  rw [numberValue_fixed, hcast]
  split
  · rename_i hneg
    rw [abs_of_neg hneg] at hmagnitude ⊢
    rwa [neg_one_mul, neg_sub_left, abs_neg, add_comm, ← sub_neg_eq_add]
  · rename_i hpositive
    rw [abs_of_nonneg (not_lt.mp hpositive)] at hmagnitude ⊢
    rwa [one_mul]

end Printf

end ForgeOps
