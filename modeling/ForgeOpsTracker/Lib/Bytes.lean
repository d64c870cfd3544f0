import Mathlib.Data.Nat.Digits.Lemmas
import Mathlib.Data.List.TakeWhile
import Mathlib.Tactic.Linarith

/-! Byte strings: the text of a C string is the list of its bytes, without the
closing NUL. Character classes are the ASCII ones of the C locale. -/

namespace ForgeOps

abbrev Bytes := List UInt8

/-- The bytes of an ASCII literal. -/
def ascii (s : String) : Bytes := s.toList.map fun c => UInt8.ofNat c.toNat

namespace Byte

def isDigit (c : UInt8) : Bool := 48 ≤ c && c ≤ 57
def isUpper (c : UInt8) : Bool := 65 ≤ c && c ≤ 90
def isLower (c : UInt8) : Bool := 97 ≤ c && c ≤ 122
def isAlpha (c : UInt8) : Bool := isUpper c || isLower c
def isAlnum (c : UInt8) : Bool := isAlpha c || isDigit c
/-- `[A-Za-z0-9_]` -/
def isWord (c : UInt8) : Bool := isAlnum c || c == 95
def isHex (c : UInt8) : Bool := isDigit c || (97 ≤ c && c ≤ 102) || (65 ≤ c && c ≤ 70)
/-- Space, `\t`, `\n`, `\v`, `\f` and `\r`. -/
def isSpace (c : UInt8) : Bool := c == 32 || (9 ≤ c && c ≤ 13)
/-- `10xxxxxx`: inside a multi-byte UTF-8 character. -/
def isContinuation (c : UInt8) : Bool := c &&& 0xC0 == 0x80

def toUpper (c : UInt8) : UInt8 := if isLower c then c - 32 else c
def toLower (c : UInt8) : UInt8 := if isUpper c then c + 32 else c

end Byte

/-- `strcasecmp(a, b) == 0` -/
def equalsIgnoringCase (a b : Bytes) : Bool := a.map Byte.toLower == b.map Byte.toLower

/-- `strcmp(a + (strlen(a) - strlen(suffix)), suffix) == 0` -/
def hasSuffix (a suffix : Bytes) : Bool := suffix.isSuffixOf a

/-- The last position up to the given one at which no character is cut in half:
`while (n > 0 && (value[n] & 0xC0) == 0x80) n--`. -/
def cutBack (value : Bytes) : Nat → Nat
  | 0 => 0
  | n + 1 => if (value[n + 1]?.map Byte.isContinuation).getD false then cutBack value n else n + 1

/-- At most `most` bytes of `value`, cut between two characters. -/
def cutAtCharacter (most : Nat) (value : Bytes) : Bytes :=
  if value.length > most then value.take (cutBack value most) else value

theorem cutBack_le (value : Bytes) (n : Nat) : cutBack value n ≤ n := by
  induction n with
  | zero => exact Nat.le_refl _
  | succ n ih =>
    rw [cutBack]
    split
    · exact Nat.le_succ_of_le ih
    · exact Nat.le_refl _

theorem cutBack_self {value : Bytes} {n : Nat}
    (h : (value[n]?.map Byte.isContinuation).getD false = false) : cutBack value n = n := by
  cases n with
  | zero => rfl
  | succ n => rw [cutBack, h, if_neg (by decide)]

theorem cutBack_lt {value : Bytes} {n : Nat} (hpos : 0 < n)
    (h : (value[n]?.map Byte.isContinuation).getD false = true) : cutBack value n < n := by
  cases n with
  | zero => exact absurd hpos (Nat.lt_irrefl 0)
  | succ n =>
    rw [cutBack, if_pos h]
    exact Nat.lt_succ_of_le (cutBack_le value n)

/-- The cut does not go back past a byte that starts a character. -/
theorem le_cutBack {value : Bytes} {k n : Nat} (hk : k ≤ n)
    (h : (value[k]?.map Byte.isContinuation).getD false = false) : k ≤ cutBack value n := by
  induction n with
  | zero => exact hk
  | succ n ih =>
    rw [cutBack]
    split
    · rename_i hcontinuation
      refine ih (Nat.le_of_lt_succ (Nat.lt_of_le_of_ne hk ?_))
      rintro rfl
      exact Bool.false_ne_true (h.symm.trans hcontinuation)
    · exact hk

/-- Only the bytes up to the position matter. -/
theorem cutBack_append {value : Bytes} {n : Nat} (h : n < value.length) (more : Bytes) :
    cutBack (value ++ more) n = cutBack value n := by
  induction n with
  | zero => rfl
  | succ n ih => rw [cutBack, cutBack, List.getElem?_append_left h, ih (Nat.lt_of_succ_lt h)]

/-! ## Runs at the head of a text -/

theorem exists_of_lt_takeWhile {p : UInt8 → Bool} {s : Bytes} {i : Nat}
    (h : i < (s.takeWhile p).length) : ∃ x ∈ s[i]?, p x = true := by
  induction s generalizing i with
  | nil => exact absurd h (Nat.not_lt_zero i)
  | cons c s ih =>
    by_cases hc : p c = true
    · rw [List.takeWhile_cons, if_pos hc] at h
      cases i with
      | zero => exact ⟨c, rfl, hc⟩
      | succ i => exact ih (Nat.lt_of_succ_lt_succ h)
    · rw [List.takeWhile_cons, if_neg hc] at h
      exact absurd h (Nat.not_lt_zero i)

theorem drop_length_takeWhile {α : Type*} (p : α → Bool) (s : List α) :
    s.drop (s.takeWhile p).length = s.dropWhile p := by
  calc s.drop (s.takeWhile p).length
    _ = (s.takeWhile p ++ s.dropWhile p).drop (s.takeWhile p).length := by
      rw [List.takeWhile_append_dropWhile]
    _ = s.dropWhile p := List.drop_left

/-- What ends a run is not of its kind. -/
theorem not_of_dropWhile {α : Type*} {p : α → Bool} {s rest : List α} {c : α}
    (h : s.dropWhile p = c :: rest) : p c = false := by
  have := List.head?_dropWhile_not p s
  rwa [h] at this

theorem getElem?_takeWhile_length {α : Type*} {p : α → Bool} {s : List α}
    (h : (s.takeWhile p).length < s.length) : ∃ b ∈ s[(s.takeWhile p).length]?, p b = false := by
  have hhead := List.head?_drop (l := s) (i := (s.takeWhile p).length)
  rw [drop_length_takeWhile] at hhead
  rw [← hhead]
  cases hrest : s.dropWhile p with
  | nil =>
    have hlength := congrArg List.length (List.takeWhile_append_dropWhile (p := p) (l := s))
    rw [hrest, List.append_nil] at hlength
    omega
  | cons b rest => exact ⟨b, rfl, not_of_dropWhile hrest⟩

theorem le_length_takeWhile {α : Type*} {p : α → Bool} {s : List α} {n : Nat} :
    n ≤ (s.takeWhile p).length ↔ n ≤ s.length ∧ ∀ c ∈ s.take n, p c = true := by
  induction s generalizing n with
  | nil => simp
  | cons c s ih =>
    cases n with
    | zero => simp
    | succ n =>
      by_cases hc : p c = true
      · simp [hc, ih]
      · simp [hc]

/-- A run does not go on into a text that starts with something else. -/
theorem takeWhile_append_stop {α : Type*} {p : α → Bool} {rest : List α}
    (h : ∀ c ∈ rest.head?, p c = false) (s : List α) : (s ++ rest).takeWhile p = s.takeWhile p := by
  induction s with
  | nil =>
    cases rest with
    | nil => rfl
    | cons c rest => exact List.takeWhile_cons_of_neg (by simp [h c rfl])
  | cons c s ih => rw [List.cons_append, List.takeWhile_cons, List.takeWhile_cons, ih]

/-- A byte that a text does not have cannot help it to be a beginning. -/
theorem prefix_append_cons_iff {α : Type*} {w s t : List α} {c : α} (hc : c ∉ w) :
    w <+: s ++ c :: t ↔ w <+: s := by
  constructor
  · rintro ⟨u, hu⟩
    rcases List.append_eq_append_iff.mp hu with ⟨b, rfl, -⟩ | ⟨b, rfl, hb⟩
    · exact List.prefix_append w b
    · cases b with
      | nil => exact ⟨[], by simp⟩
      | cons d b =>
        obtain ⟨rfl, -⟩ := List.cons.inj hb
        exact absurd (by simp) hc
  · exact List.prefix_append_of_prefix

/-! ## Numbers as text -/

/-- `%ld` of a number that is not negative. -/
def decimal (n : Nat) : Bytes :=
  if n = 0 then ascii "0" else (Nat.digits 10 n).reverse.map fun d => UInt8.ofNat (48 + d)

/-- `%0<width>d` -/
def decimalPadded (width n : Nat) : Bytes :=
  List.replicate (width - (decimal n).length) 48 ++ decimal n

def hexDigit (n : Nat) : UInt8 := UInt8.ofNat (if n < 10 then 48 + n else 87 + n)

/-- `%02x` -/
def hexByte (c : UInt8) : Bytes := [hexDigit (c.toNat / 16), hexDigit (c.toNat % 16)]

theorem isHex_hexDigit {n : Nat} (h : n < 16) : Byte.isHex (hexDigit n) = true := by
  interval_cases n <;> rfl

theorem digitChar_injOn {a b : Nat} (ha : a < 10) (hb : b < 10)
    (h : UInt8.ofNat (48 + a) = UInt8.ofNat (48 + b)) : a = b := by
  have := congrArg UInt8.toNat h
  simp only [UInt8.toNat_ofNat'] at this
  omega

theorem isDigit_digitChar {d : Nat} (hd : d < 10) : Byte.isDigit (UInt8.ofNat (48 + d)) = true := by
  interval_cases d <;> rfl

theorem decimal_of_pos {n : Nat} (h : 0 < n) :
    decimal n = (Nat.digits 10 n).reverse.map fun d => UInt8.ofNat (48 + d) :=
  if_neg (Nat.pos_iff_ne_zero.mp h)

theorem decimal_ne_nil (n : Nat) : decimal n ≠ [] := by
  unfold decimal
  split
  · decide
  · simpa [Nat.digits_eq_nil_iff_eq_zero]

theorem decimal_isDigit (n : Nat) : ∀ c ∈ decimal n, Byte.isDigit c = true := by
  unfold decimal
  split
  · exact List.all_eq_true.mp (by decide)
  · intro c hc
    obtain ⟨d, hd, rfl⟩ := List.mem_map.mp hc
    exact isDigit_digitChar (Nat.digits_lt_base (by decide) (List.mem_reverse.mp hd))

/-- One more digit at the end. -/
theorem decimal_step {n : Nat} (h : 10 ≤ n) :
    decimal n = decimal (n / 10) ++ [UInt8.ofNat (48 + n % 10)] := by
  rw [decimal_of_pos (by omega), decimal_of_pos (by omega),
    Nat.digits_of_two_le_of_pos (by decide) (by omega)]
  simp

theorem decimal_lt_ten {n : Nat} (h : n < 10) : decimal n = [UInt8.ofNat (48 + n)] := by
  interval_cases n <;> rfl

theorem decimal_injective {m n : Nat} (h : decimal m = decimal n) : m = n := by
  induction m using Nat.strongRecOn generalizing n with
  | ind m ih =>
    have hlen := congrArg List.length h
    by_cases hm : m < 10 <;> by_cases hn : n < 10
    · rw [decimal_lt_ten hm, decimal_lt_ten hn] at h
      exact digitChar_injOn hm hn (List.singleton_inj.mp h)
    · have := List.length_pos_iff.mpr (decimal_ne_nil (n / 10))
      rw [decimal_lt_ten hm, decimal_step (by omega), List.length_append,
        List.length_singleton] at hlen
      simp only [List.length_singleton] at hlen
      omega
    · have := List.length_pos_iff.mpr (decimal_ne_nil (m / 10))
      rw [decimal_step (by omega), decimal_lt_ten hn, List.length_append,
        List.length_singleton] at hlen
      simp only [List.length_singleton] at hlen
      omega
    · rw [decimal_step (by omega : 10 ≤ m), decimal_step (by omega : 10 ≤ n)] at h
      obtain ⟨hq, hr⟩ := List.append_inj' h rfl
      have hdiv := ih (m / 10) (by omega) hq
      have hmod := digitChar_injOn (by omega) (by omega) (List.singleton_inj.mp hr)
      omega

theorem decimal_length_le {n k : Nat} (hk : 0 < k) (h : n < 10 ^ k) : (decimal n).length ≤ k := by
  by_cases hn : n = 0
  · subst hn
    exact hk
  · rw [decimal_of_pos (Nat.pos_of_ne_zero hn), List.length_map, List.length_reverse]
    exact (Nat.digits_length_le_iff (by decide) n).mpr h

/-! ## Numbers in the order of their text -/

theorem decimal_length_mono {m n : Nat} (h : m ≤ n) : (decimal m).length ≤ (decimal n).length := by
  refine decimal_length_le (List.length_pos_iff.mpr (decimal_ne_nil n)) ?_
  by_cases hn : n = 0
  · obtain rfl : m = 0 := by omega
    exact Nat.pow_pos (by decide)
  · rw [decimal_of_pos (Nat.pos_of_ne_zero hn), List.length_map, List.length_reverse]
    exact Nat.lt_of_le_of_lt h (Nat.lt_base_pow_length_digits (by decide))

theorem ten_le_of_decimal_length {n : Nat} (h : 1 < (decimal n).length) : 10 ≤ n := by
  by_contra hn
  rw [decimal_lt_ten (by omega)] at h
  exact Nat.lt_irrefl _ h

/-- The last `k` digits, and the number the others are the text of. -/
theorem decimal_split {n k : Nat} (h : k < (decimal n).length) :
    ∃ rest, decimal n = decimal (n / 10 ^ k) ++ rest ∧ rest.length = k := by
  induction k with
  | zero => exact ⟨[], by simp, rfl⟩
  | succ k ih =>
    obtain ⟨rest, hrest, hlen⟩ := ih (by omega)
    have hlength := congrArg List.length hrest
    rw [List.length_append] at hlength
    have hten := ten_le_of_decimal_length (n := n / 10 ^ k) (by omega)
    refine ⟨UInt8.ofNat (48 + n / 10 ^ k % 10) :: rest, ?_, by simp [hlen]⟩
    rw [hrest, decimal_step hten, Nat.div_div_eq_div_mul, ← Nat.pow_succ, List.append_assoc,
      List.singleton_append]

theorem digitChar_lt {a b : Nat} (hb : b < 10) (h : a < b) :
    UInt8.ofNat (48 + a) < UInt8.ofNat (48 + b) := by
  rw [UInt8.lt_iff_toNat_lt, UInt8.toNat_ofNat', UInt8.toNat_ofNat']
  omega

/-- Numbers of equally many digits sort as text the way they sort as numbers. -/
theorem decimal_append_lt {m n : Nat} (hlen : (decimal m).length = (decimal n).length) (h : m < n)
    (a b : Bytes) : decimal m ++ a < decimal n ++ b := by
  induction m using Nat.strongRecOn generalizing n a b with
  | ind m ih =>
    by_cases hn : n < 10
    · rw [decimal_lt_ten hn, decimal_lt_ten (by omega : m < 10)]
      exact List.cons_lt_cons_iff.mpr (.inl (digitChar_lt hn h))
    · have hm : 10 ≤ m := by
        refine ten_le_of_decimal_length ?_
        rw [hlen, decimal_step (by omega), List.length_append]
        have := List.length_pos_iff.mpr (decimal_ne_nil (n / 10))
        simp only [List.length_singleton]
        omega
      rw [decimal_step hm, decimal_step (by omega : 10 ≤ n)] at hlen ⊢
      simp only [List.length_append, List.length_singleton, Nat.add_right_cancel_iff,
        List.append_assoc, List.singleton_append] at hlen ⊢
      rcases Nat.lt_or_eq_of_le (Nat.div_le_div_right (c := 10) h.le) with hlt | heq
      · exact ih (m / 10) (by omega) hlen hlt _ _
      · rw [heq]
        refine List.append_left_lt (List.cons_lt_cons_iff.mpr (.inl (digitChar_lt ?_ ?_)))
        · exact Nat.mod_lt _ (by decide)
        · omega

/-- A number and a dot sort before a greater number and a dot if and only if the
lesser one is at most the greater one cut to as many digits. -/
theorem decimal_dot_le_iff {i j : Nat} (h : i < j) (a : Bytes) :
    decimal i ++ 46 :: a ≤ decimal j ++ 46 :: a ↔
      i ≤ j / 10 ^ ((decimal j).length - (decimal i).length) := by
  have hpos := List.length_pos_iff.mpr (decimal_ne_nil i)
  have hmono := decimal_length_mono h.le
  obtain ⟨rest, hj, hrest⟩ := decimal_split (n := j)
    (k := (decimal j).length - (decimal i).length) (by omega)
  generalize htop : j / 10 ^ ((decimal j).length - (decimal i).length) = top at hj
  have hlen : (decimal i).length = (decimal top).length := by
    have := congrArg List.length hj
    rw [List.length_append] at this
    omega
  rw [hj, List.append_assoc]
  rcases Nat.lt_trichotomy i top with hlt | rfl | hgt
  · exact iff_of_true (List.le_of_lt (decimal_append_lt hlen hlt _ _)) hlt.le
  · refine iff_of_true (List.append_left_le (List.le_of_lt ?_)) (Nat.le_refl _)
    cases rest with
    | nil =>
      exfalso
      simp only [List.length_nil] at hrest
      rw [← hrest, Nat.pow_zero, Nat.div_one] at htop
      omega
    | cons c rest =>
      refine List.cons_lt_cons_iff.mpr (.inl ?_)
      have hc : Byte.isDigit c = true := decimal_isDigit j c (by rw [hj]; simp)
      simp only [Byte.isDigit, Bool.and_eq_true, decide_eq_true_eq] at hc
      grind
  · refine iff_of_false (not_not.mpr ?_) (by omega)
    exact decimal_append_lt hlen.symm hgt _ _

end ForgeOps
