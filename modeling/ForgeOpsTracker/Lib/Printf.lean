import ForgeOpsTracker.Lib.Double
import ForgeOpsTracker.Lib.Json

/-! `printf` for `double`s in the C locale, and which of the texts are JSON numbers. -/

namespace ForgeOps.Printf

/-- `snprintf` into a buffer of `size` bytes. -/
def snprintf (size : Nat) (text : Bytes) : Bytes := text.take (size - 1)

theorem snprintf_of_fits {size : Nat} {text : Bytes} (h : text.length < size) :
    snprintf size text = text := List.take_of_length_le (by omega)

/-! ## The conversions -/

def sign (q : Rat) : Bytes := if q < 0 then ascii "-" else []

/-- `%.<places>f`. The sign that some libraries write before `nan` is left out. -/
def fixed (places : Nat) : Double → Bytes
  | .nan => ascii "nan"
  | .infinity negative => (if negative then ascii "-" else []) ++ ascii "inf"
  | .finite q =>
    let scaled := (roundEven (|q| * 10 ^ places)).toNat
    sign q ++ decimal (scaled / 10 ^ places) ++
      46 :: decimalPadded places (scaled % 10 ^ places)

/-- The `%e` form of `q` with 17 digits: the digits as one number and the exponent of
the first. -/
def scientific (q : Rat) : Nat × Int :=
  if q = 0 then (0, 0)
  else
    let exponent := Int.log 10 |q|
    let digits := (roundEven (|q| / 10 ^ (exponent - 16))).toNat
    if digits = 10 ^ 17 then (10 ^ 16, exponent + 1) else (digits, exponent)

/-- What `%g` leaves of the places behind the point. -/
def fraction (places : Bytes) : Bytes :=
  let kept := (places.reverse.dropWhile (· = 48)).reverse
  if kept = [] then [] else 46 :: kept

def exponentText (exponent : Int) : Bytes :=
  ascii "e" ++ (if exponent < 0 then ascii "-" else ascii "+") ++ decimalPadded 2 exponent.natAbs

def generalFinite (q : Rat) : Bytes :=
  let (digits, exponent) := scientific q
  if -4 ≤ exponent ∧ exponent < 17 then
    let places := (16 - exponent).toNat
    sign q ++ decimal (digits / 10 ^ places) ++
      fraction (decimalPadded places (digits % 10 ^ places))
  else
    sign q ++ decimal (digits / 10 ^ 16) ++ fraction (decimalPadded 16 (digits % 10 ^ 16)) ++
      exponentText exponent

/-- `%.17g` -/
def general : Double → Bytes
  | .nan => ascii "nan"
  | .infinity negative => (if negative then ascii "-" else []) ++ ascii "inf"
  | .finite q => generalFinite q

example : fixed 3 (.finite (-1 / 16)) = ascii "-0.062" := by decide +kernel
example : general (.finite (1 / 10)) = ascii "0.1" := by decide +kernel
example : general (.finite (2 ^ 70)) = ascii "1.1805916207174113e+21" := by decide +kernel

/-! ## Digits -/

theorem decimal_head {n : Nat} (h : 0 < n) : (decimal n).head? ≠ some 48 := by
  induction n using Nat.strongRecOn with
  | ind n ih =>
    by_cases hn : n < 10
    · rw [decimal_lt_ten hn]
      interval_cases n <;> decide
    · have hne := decimal_ne_nil (n / 10)
      rw [decimal_step (by omega), List.head?_append_of_ne_nil _ hne]
      exact ih (n / 10) (by omega) (by omega)

/-- The digits in front of the point. -/
def IsInteger (int : Bytes) : Prop :=
  int = ascii "0" ∨ int ≠ [] ∧ int.head? ≠ some 48 ∧ int.all Byte.isDigit

theorem isInteger_decimal (n : Nat) : IsInteger (decimal n) := by
  rcases Nat.eq_zero_or_pos n with rfl | hn
  · exact .inl rfl
  · exact .inr ⟨decimal_ne_nil n, decimal_head hn, List.all_eq_true.mpr (decimal_isDigit n)⟩

theorem decimalPadded_isDigit (width n : Nat) : (decimalPadded width n).all Byte.isDigit := by
  rw [decimalPadded, List.all_append, List.all_eq_true.mpr (decimal_isDigit n), Bool.and_true]
  simp [Byte.isDigit]

theorem decimalPadded_ne_nil (width n : Nat) : decimalPadded width n ≠ [] := fun h =>
  decimal_ne_nil n (List.append_eq_nil_iff.mp h).2

theorem decimalPadded_length {width n : Nat} (hwidth : 0 < width) (h : n < 10 ^ width) :
    (decimalPadded width n).length = width := by
  have hle := decimal_length_le hwidth h
  rw [decimalPadded, List.length_append, List.length_replicate]
  omega

theorem sign_cases (q : Rat) : sign q = [] ∨ sign q = ascii "-" := by
  unfold sign
  split
  · exact .inr rfl
  · exact .inl rfl

/-! ## Which texts are JSON numbers -/

/-- `%f` of a finite value is one, with its places behind the point. -/
theorem isNumber_fixed (places : Nat) (q : Rat) : Json.IsNumber (fixed places (.finite q)) := by
  refine ⟨sign q, _, _, [], (List.append_nil _).symm, sign_cases q, isInteger_decimal _,
    .inr ⟨_, rfl, decimalPadded_ne_nil _ _, decimalPadded_isDigit _ _⟩, .inl rfl⟩

def IsFraction (frac : Bytes) : Prop :=
  frac = [] ∨ ∃ ds : Bytes, frac = 46 :: ds ∧ ds ≠ [] ∧ ds.all Byte.isDigit

theorem isFraction_fraction {places : Bytes} (h : places.all Byte.isDigit) :
    IsFraction (fraction places) := by
  unfold fraction
  dsimp only
  split
  · exact .inl rfl
  · rename_i hne
    refine .inr ⟨_, rfl, hne, ?_⟩
    rw [List.all_reverse, List.all_eq_true] at *
    intro c hc
    exact h c (List.mem_reverse.mp ((List.dropWhile_suffix _).mem hc))

theorem fraction_length_le (places : Bytes) : (fraction places).length ≤ places.length + 1 := by
  have hdrop :=
    (List.dropWhile_suffix (p := fun c : UInt8 => decide (c = 48)) (l := places.reverse)).length_le
  rw [List.length_reverse] at hdrop
  unfold fraction
  dsimp only
  split
  · exact Nat.zero_le _
  · rw [List.length_cons, List.length_reverse]
    omega

theorem isNumber_of {sgn int frac : Bytes} (hsgn : sgn = [] ∨ sgn = ascii "-")
    (hint : IsInteger int) (hfrac : IsFraction frac) : Json.IsNumber (sgn ++ int ++ frac) :=
  ⟨sgn, int, frac, [], (List.append_nil _).symm, hsgn, hint, hfrac, .inl rfl⟩

theorem exponentText_eq (exponent : Int) : ∃ (sgn ds : Bytes),
    exponentText exponent = 101 :: sgn ++ ds ∧ (sgn = ascii "+" ∨ sgn = ascii "-") ∧ ds ≠ [] ∧
      ds.all Byte.isDigit := by
  refine ⟨if exponent < 0 then ascii "-" else ascii "+", decimalPadded 2 exponent.natAbs, rfl, ?_,
    decimalPadded_ne_nil _ _, decimalPadded_isDigit _ _⟩
  split
  · exact .inr rfl
  · exact .inl rfl

/-- A number cut behind the sign of its exponent and a digit is one. -/
theorem isNumber_cut {sgn int frac : Bytes} (hsgn : sgn = [] ∨ sgn = ascii "-")
    (hint : IsInteger int) (hfrac : IsFraction frac) (exponent : Int) {k : Nat}
    (hk : (sgn ++ int ++ frac).length + 2 < k) :
    Json.IsNumber ((sgn ++ int ++ frac ++ exponentText exponent).take k) := by
  obtain ⟨esgn, ds, heq, hesgn, hne, hds⟩ := exponentText_eq exponent
  have hlength : esgn.length = 1 := by rcases hesgn with rfl | rfl <;> rfl
  have hcut : (sgn ++ int ++ frac ++ exponentText exponent).take k =
      sgn ++ int ++ frac ++ (101 :: esgn ++ ds.take (k - (sgn ++ int ++ frac).length - 2)) := by
    have htail : 101 :: esgn ++ ds = (101 :: esgn) ++ ds := rfl
    rw [heq, List.take_append, List.take_of_length_le (by omega), htail, List.take_append,
      List.take_of_length_le (by rw [List.length_cons]; omega), List.length_cons, hlength]
  rw [hcut]
  refine ⟨sgn, int, frac, _, rfl, hsgn, hint, hfrac,
    .inr ⟨101, esgn, _, rfl, .inl rfl, .inr hesgn, ?_, ?_⟩⟩
  · rw [Ne, List.take_eq_nil_iff, not_or]
    exact ⟨by omega, hne⟩
  · rw [List.all_eq_true] at *
    exact fun c hc => hds c (List.mem_of_mem_take hc)

theorem scientific_digits_le (q : Rat) : (scientific q).1 ≤ 10 ^ 17 := by
  unfold scientific
  split
  · exact Nat.zero_le _
  have hlog : |q| < ((10 : Nat) : Rat) ^ (Int.log 10 |q| + 1) :=
    Int.lt_zpow_succ_log_self (by norm_num) |q|
  have hunit : (0 : Rat) < 10 ^ (Int.log 10 |q| - 16) := zpow_pos (by norm_num) _
  have hsplit : ((10 : Nat) : Rat) ^ (Int.log 10 |q| + 1) =
      10 ^ 17 * 10 ^ (Int.log 10 |q| - 16) := by
    rw [show Int.log 10 |q| + 1 = 17 + (Int.log 10 |q| - 16) by ring, zpow_add₀ (by norm_num)]
    norm_num
  have hle : |q| / 10 ^ (Int.log 10 |q| - 16) ≤ ((10 ^ 17 : Int) : Rat) := by
    rw [div_le_iff₀ hunit]
    push_cast
    exact (hlog.trans_eq hsplit).le
  have hround := roundEven_le hle
  dsimp only
  split
  · exact Nat.pow_le_pow_right (by norm_num) (by norm_num)
  · omega

/-- No finite value's `%.17g` is cut by a buffer of 64 bytes to anything else than a number. -/
theorem isNumber_general (q : Rat) : Json.IsNumber (snprintf 64 (generalFinite q)) := by
  have hdigits := scientific_digits_le q
  have hint : ∀ k, (decimal ((scientific q).1 / 10 ^ k)).length ≤ 18 := by
    intro k
    apply decimal_length_le (by norm_num)
    exact (Nat.div_le_self _ _).trans_lt (hdigits.trans_lt (by norm_num))
  have hsign : (sign q).length ≤ 1 := by
    rcases sign_cases q with h | h <;> rw [h] <;> decide
  have hfrac : ∀ places ≤ 20,
      (fraction (decimalPadded places ((scientific q).1 % 10 ^ places))).length ≤ 21 := by
    intro places hle
    have hlength := fraction_length_le (decimalPadded places ((scientific q).1 % 10 ^ places))
    rcases Nat.eq_zero_or_pos places with rfl | hpos
    · rw [pow_zero, Nat.mod_one] at hlength ⊢
      exact hlength.trans (by decide)
    · rw [decimalPadded_length hpos (Nat.mod_lt _ (Nat.pow_pos (by norm_num)))] at hlength
      omega
  unfold generalFinite
  dsimp only
  split
  · rename_i hrange
    have := hint (16 - (scientific q).2).toNat
    have := hfrac (16 - (scientific q).2).toNat (by omega)
    rw [snprintf_of_fits (by simp only [List.length_append]; omega)]
    exact isNumber_of (sign_cases q) (isInteger_decimal _)
      (isFraction_fraction (decimalPadded_isDigit _ _))
  · have := hint 16
    have := hfrac 16 (by norm_num)
    apply isNumber_cut (sign_cases q) (isInteger_decimal _)
      (isFraction_fraction (decimalPadded_isDigit _ _))
    simp only [List.length_append]
    omega

theorem fixed_wellFormed (places : Nat) {d : Double} (h : d.isfinite = true) :
    Json.WellFormed (fixed places d) := by
  cases d with
  | finite q => exact .number (isNumber_fixed places q)
  | infinity negative => exact absurd h Bool.false_ne_true
  | nan => exact absurd h Bool.false_ne_true

theorem general_wellFormed {d : Double} (h : d.isfinite = true) :
    Json.WellFormed (snprintf 64 (general d)) := by
  cases d with
  | finite q => exact .number (isNumber_general q)
  | infinity negative => exact absurd h Bool.false_ne_true
  | nan => exact absurd h Bool.false_ne_true

theorem decimal_wellFormed (n : Nat) : Json.WellFormed (decimal n) := by
  have h := isNumber_of (.inl rfl) (isInteger_decimal n) (.inl rfl)
  simp only [List.nil_append, List.append_nil] at h
  exact .number h

end ForgeOps.Printf
