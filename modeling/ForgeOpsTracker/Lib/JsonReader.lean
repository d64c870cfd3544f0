import ForgeOpsTracker.Lib.Json

/-! Reading JSON. The parser takes every well-formed text, and what it makes of arrays and objects
is made of what it makes of their parts. -/

namespace ForgeOps.Json

/-- A number is kept as it is written; members of an object are kept in order. -/
inductive Value
  | null
  | bool (b : Bool)
  | number (text : Bytes)
  | string (text : Bytes)
  | array (values : List Value)
  | object (members : List (Bytes × Value))

/-! ## Strings -/

def hexValue (c : UInt8) : Nat :=
  if Byte.isDigit c then c.toNat - 48 else if c.toNat < 97 then c.toNat - 55 else c.toNat - 87

/-- The number of a `\u` escape. -/
def codeUnit (a b c d : UInt8) : Nat :=
  ((hexValue a * 16 + hexValue b) * 16 + hexValue c) * 16 + hexValue d

/-- The bytes of a character; half a surrogate pair is replaced. -/
def character (n : Nat) : Bytes :=
  String.utf8EncodeChar (if n.isValidChar then Char.ofNat n else Char.ofNat 0xFFFD)

def shortEscape (c : UInt8) : UInt8 :=
  if c = 98 then 8 else if c = 102 then 12 else if c = 110 then 10 else if c = 114 then 13
  else if c = 116 then 9 else c

def isHigh (unit : Nat) : Bool := 0xD800 ≤ unit && unit < 0xDC00
def isLow (unit : Nat) : Bool := 0xDC00 ≤ unit && unit < 0xE000

/-- What a `\u` escape stands for behind the first half of a pair, or behind none. -/
def unitText (high : Option Nat) (unit : Nat) : Bytes :=
  match high with
  | none => if isHigh unit then [] else character unit
  | some h =>
    if isLow unit then character (0x10000 + (h - 0xD800) * 0x400 + (unit - 0xDC00))
    else character h ++ if isHigh unit then [] else character unit

/-- The first half of a pair that stands alone. -/
def unpaired (high : Option Nat) : Bytes := (high.map character).getD []

/-- What the characters between two quotes stand for, behind the first half of a pair or behind
none. -/
def unescapeFrom : Option Nat → Bytes → Bytes
  | high, 92 :: 117 :: a :: b :: c :: d :: s =>
    let unit := codeUnit a b c d
    unitText high unit ++ unescapeFrom (if isHigh unit then some unit else none) s
  | high, 92 :: e :: s => unpaired high ++ shortEscape e :: unescapeFrom none s
  | high, c :: s => unpaired high ++ c :: unescapeFrom none s
  | high, [] => unpaired high

def unescape (s : Bytes) : Bytes := unescapeFrom none s

/-- How many bytes the character at the head of a string takes. -/
def charLength : Bytes → Option Nat
  | [] => none
  | c :: s =>
    if c = 92 then
      match s with
      | [] => none
      | e :: s =>
        if e = 117 then if (s.take 4).length = 4 ∧ (s.take 4).all Byte.isHex then some 6 else none
        else if isEscape e then some 2
        else none
    else if isPlain c then some 1
    else none

/-- The characters up to the closing quote, and what stands behind it. The first argument is how
many bytes of a character are still to be passed over. -/
def readString : Nat → Bytes → Option (Bytes × Bytes)
  | _, [] => none
  | k + 1, c :: s => (readString k s).map fun r => (c :: r.1, r.2)
  | 0, c :: s =>
    if c = 34 then some ([], s)
    else (charLength (c :: s)).bind fun n => (readString (n - 1) s).map fun r => (c :: r.1, r.2)

theorem readString_skip (s t : Bytes) :
    readString s.length (s ++ t) = (readString 0 t).map fun r => (s ++ r.1, r.2) := by
  induction s with
  | nil =>
    show readString 0 t = _
    cases readString 0 t <;> rfl
  | cons c s ih =>
    rw [List.length_cons, List.cons_append, readString, ih, Option.map_map]
    rfl

/-- A character whose first byte is no quote. -/
theorem readString_char {c : UInt8} (hc : c ≠ 34) (s t : Bytes)
    (hlength : charLength (c :: (s ++ t)) = some (s.length + 1)) :
    readString 0 (c :: (s ++ t)) = (readString 0 t).map fun r => (c :: (s ++ r.1), r.2) := by
  rw [readString, if_neg hc, hlength, Option.bind_some, Nat.add_sub_cancel, readString_skip,
    Option.map_map]
  rfl

theorem readString_of_chars {s : Bytes} (h : Chars s) (rest : Bytes) :
    readString 0 (s ++ 34 :: rest) = some (s, rest) := by
  induction h with
  | nil => rw [List.nil_append, readString, if_pos rfl]
  | @plain c s hc _ ih =>
    have hquote : c ≠ 34 := by
      rintro rfl
      exact absurd hc (by decide)
    have hback : c ≠ 92 := by
      rintro rfl
      exact absurd hc (by decide)
    have hlength : charLength (c :: ([] ++ (s ++ 34 :: rest))) = some 1 := by
      simp only [charLength, if_neg hback, if_pos hc]
    exact (readString_char hquote [] _ hlength).trans (by rw [ih]; rfl)
  | @escape c s hc _ ih =>
    have hunicode : c ≠ 117 := by
      rintro rfl
      exact absurd hc (by decide)
    have hlength : charLength (92 :: ([c] ++ (s ++ 34 :: rest))) = some 2 := by
      simp only [charLength, List.singleton_append, if_true, if_neg hunicode, if_pos hc]
    exact (readString_char (by decide) [c] _ hlength).trans (by rw [ih]; rfl)
  | @unicode a b c d s ha hb hc hd _ ih =>
    have hlength : charLength (92 :: ([117, a, b, c, d] ++ (s ++ 34 :: rest))) = some 6 := by
      simp [charLength, ha, hb, hc, hd]
    exact (readString_char (by decide) [117, a, b, c, d] _ hlength).trans (by rw [ih]; rfl)

/-! ## Numbers -/

def isNumberByte (c : UInt8) : Bool :=
  Byte.isDigit c || c == 43 || c == 45 || c == 46 || c == 69 || c == 101

def isExponent : Bytes → Bool
  | [] => true
  | e :: s =>
    let digits := if s.head? = some 43 ∨ s.head? = some 45 then s.drop 1 else s
    (e == 101 || e == 69) && digits != [] && digits.all Byte.isDigit

def isFraction : Bytes → Bool
  | 46 :: s => s.takeWhile Byte.isDigit != [] && isExponent (s.dropWhile Byte.isDigit)
  | s => isExponent s

def isNumber (n : Bytes) : Bool :=
  let s := if n.head? = some 45 then n.drop 1 else n
  let int := s.takeWhile Byte.isDigit
  (int == [48] || int != [] && int.head? != some 48) && isFraction (s.dropWhile Byte.isDigit)

/-- What may stand behind a number without being taken for more of it. -/
def NumberEnd (rest : Bytes) : Prop := ∀ c ∈ rest.head?, isNumberByte c = false

theorem NumberEnd.takeWhile {rest : Bytes} (h : NumberEnd rest) {n : Bytes}
    (hn : n.all isNumberByte = true) : (n ++ rest).takeWhile isNumberByte = n := by
  rw [takeWhile_append_stop h, List.takeWhile_eq_self_iff]
  exact fun c hc => List.all_eq_true.mp hn c hc

theorem isNumberByte_of_isDigit {c : UInt8} (h : Byte.isDigit c = true) :
    isNumberByte c = true := by
  simp only [isNumberByte, h, Bool.true_or]

theorem all_isNumberByte {ds : Bytes} (h : ds.all Byte.isDigit = true) :
    ds.all isNumberByte = true :=
  List.all_eq_true.mpr fun c hc => isNumberByte_of_isDigit (List.all_eq_true.mp h c hc)

theorem takeWhile_digits {ds rest : Bytes} (h : ds.all Byte.isDigit = true)
    (hrest : ∀ c ∈ rest.head?, Byte.isDigit c = false) :
    (ds ++ rest).takeWhile Byte.isDigit = ds ∧ (ds ++ rest).dropWhile Byte.isDigit = rest := by
  have htake : (ds ++ rest).takeWhile Byte.isDigit = ds := by
    rw [takeWhile_append_stop hrest, List.takeWhile_eq_self_iff]
    exact fun c hc => List.all_eq_true.mp h c hc
  refine ⟨htake, ?_⟩
  rw [← drop_length_takeWhile, htake, List.drop_left]

/-- The exponent of the grammar: nothing, or a letter, a sign and digits. -/
theorem isExponent_of_grammar {exp : Bytes}
    (h : exp = [] ∨ ∃ (e : UInt8) (s ds : Bytes), exp = e :: s ++ ds ∧ (e = 101 ∨ e = 69) ∧
      (s = [] ∨ s = ascii "+" ∨ s = ascii "-") ∧ ds ≠ [] ∧ ds.all Byte.isDigit) :
    isExponent exp = true ∧ exp.all isNumberByte = true ∧
      ∀ c ∈ exp.head?, Byte.isDigit c = false ∧ c ≠ 46 := by
  rcases h with rfl | ⟨e, s, ds, rfl, he, hs, hne, hds⟩
  · exact ⟨rfl, rfl, fun c hc => absurd hc (by simp)⟩
  have hbytes := all_isNumberByte hds
  obtain ⟨d, ds, rfl⟩ := List.exists_cons_of_ne_nil hne
  have hd : d ≠ 43 ∧ d ≠ 45 := by
    have hfirst := List.all_eq_true.mp hds d List.mem_cons_self
    constructor <;> (rintro rfl; exact absurd hfirst (by decide))
  refine ⟨?_, ?_, ?_⟩
  · rcases he with rfl | rfl <;> rcases hs with rfl | rfl | rfl <;>
      simp [isExponent, hd, hds, ascii]
  · rcases he with rfl | rfl <;> rcases hs with rfl | rfl | rfl <;>
      simpa [isNumberByte, ascii] using hbytes
  · intro c hc
    obtain rfl := Option.some.inj hc
    rcases he with rfl | rfl <;> decide

theorem isFraction_of_grammar {frac exp : Bytes}
    (hfrac : frac = [] ∨ ∃ ds : Bytes, frac = 46 :: ds ∧ ds ≠ [] ∧ ds.all Byte.isDigit)
    (hexp : isExponent exp = true) (hhead : ∀ c ∈ exp.head?, Byte.isDigit c = false ∧ c ≠ 46) :
    isFraction (frac ++ exp) = true ∧ frac.all isNumberByte = true ∧
      ∀ c ∈ (frac ++ exp).head?, Byte.isDigit c = false := by
  rcases hfrac with rfl | ⟨ds, rfl, hne, hds⟩
  · refine ⟨?_, rfl, fun c hc => (hhead c hc).1⟩
    unfold isFraction
    split
    · rename_i heq
      exact absurd rfl (hhead 46 (by rw [← List.nil_append exp, heq]; rfl)).2
    · exact hexp
  · obtain ⟨htake, hdrop⟩ := takeWhile_digits hds fun c hc => (hhead c hc).1
    refine ⟨?_, ?_, ?_⟩
    · simp only [List.cons_append, isFraction, htake, hdrop, hexp, Bool.and_true, bne_iff_ne]
      exact hne
    · simpa [isNumberByte] using all_isNumberByte hds
    · intro c hc
      obtain rfl := Option.some.inj hc
      rfl

/-- The grammar's numbers. -/
theorem isNumber_of_grammar {n : Bytes} (h : IsNumber n) :
    isNumber n = true ∧ n.all isNumberByte = true := by
  obtain ⟨sign, int, frac, exp, rfl, hsign, hint, hfrac, hexp⟩ := h
  obtain ⟨hexpOk, hexpBytes, hexpHead⟩ := isExponent_of_grammar hexp
  obtain ⟨hfracOk, hfracBytes, hfracHead⟩ := isFraction_of_grammar hfrac hexpOk hexpHead
  have hdigits : int.all Byte.isDigit = true ∧ (int = [48] ∨ int ≠ [] ∧ int.head? ≠ some 48) := by
    rcases hint with rfl | ⟨hne, hhead, hall⟩
    · exact ⟨rfl, .inl rfl⟩
    · exact ⟨hall, .inr ⟨hne, hhead⟩⟩
  obtain ⟨hall, hshape⟩ := hdigits
  obtain ⟨htake, hdrop⟩ := takeWhile_digits hall hfracHead
  have hunsigned : ((int == [48] || int != [] && int.head? != some 48) &&
      isFraction (frac ++ exp)) = true := by
    rw [hfracOk, Bool.and_true]
    simpa using hshape
  have hminus : (int ++ (frac ++ exp)).head? ≠ some 45 := by
    obtain ⟨d, ds, rfl⟩ : ∃ d ds, int = d :: ds := by
      rcases hshape with rfl | ⟨hne, -⟩
      · exact ⟨48, [], rfl⟩
      · exact List.exists_cons_of_ne_nil hne
    intro hhead
    obtain rfl := Option.some.inj hhead
    exact absurd (List.all_eq_true.mp hall 45 List.mem_cons_self) (by decide)
  have hbytes := all_isNumberByte hall
  simp only [List.append_assoc]
  rcases hsign with rfl | rfl
  · refine ⟨?_, by simp [hbytes, hfracBytes, hexpBytes]⟩
    rw [List.nil_append, isNumber, if_neg hminus, htake, hdrop]
    exact hunsigned
  · refine ⟨?_, by simp [hbytes, hfracBytes, hexpBytes, ascii, isNumberByte]⟩
    have hdash : (ascii "-" ++ (int ++ (frac ++ exp))).head? = some 45 := rfl
    have hrest : (ascii "-" ++ (int ++ (frac ++ exp))).drop 1 = int ++ (frac ++ exp) := rfl
    rw [isNumber, if_pos hdash, hrest, htake, hdrop]
    exact hunsigned

/-! ## Values -/

def skipWhite (s : Bytes) : Bytes := s.dropWhile isWhite

mutual

/-- A value and what stands behind it and the white space after it. The fuel bounds how deep it
goes. -/
def readValue : Nat → Bytes → Option (Value × Bytes)
  | 0, _ => none
  | fuel + 1, s => (readCore fuel (skipWhite s)).map fun r => (r.1, skipWhite r.2)

def readCore : Nat → Bytes → Option (Value × Bytes)
  | 0, _ => none
  | fuel + 1, s =>
    if s.head? = some 123 then
      if (skipWhite (s.drop 1)).head? =
        some 125 then some (.object [], (skipWhite (s.drop 1)).drop 1)
      else (readMembers fuel (s.drop 1)).map fun r => (.object r.1, r.2)
    else if s.head? = some 91 then
      if (skipWhite (s.drop 1)).head? = some 93 then some (.array [], (skipWhite (s.drop 1)).drop 1)
      else (readValues fuel (s.drop 1)).map fun r => (.array r.1, r.2)
    else if s.head? = some 34 then (readString 0 (s.drop 1)).map fun r =>
      (.string (unescape r.1), r.2)
    else if (ascii "null").isPrefixOf s then some (.null, s.drop 4)
    else if (ascii "true").isPrefixOf s then some (.bool true, s.drop 4)
    else if (ascii "false").isPrefixOf s then some (.bool false, s.drop 5)
    else if isNumber (s.takeWhile isNumberByte) then
      some (.number (s.takeWhile isNumberByte), s.dropWhile isNumberByte)
    else none

/-- The values of an array up to its closing bracket. -/
def readValues : Nat → Bytes → Option (List Value × Bytes)
  | 0, _ => none
  | fuel + 1, s =>
    (readValue fuel s).bind fun v =>
      if v.2.head? = some 44 then (readValues fuel (v.2.drop 1)).map fun r => (v.1 :: r.1, r.2)
      else if v.2.head? = some 93 then some ([v.1], v.2.drop 1)
      else none

/-- The members of an object up to its closing brace. -/
def readMembers : Nat → Bytes → Option (List (Bytes × Value) × Bytes)
  | 0, _ => none
  | fuel + 1, s =>
    if (skipWhite s).head? = some 34 then
      (readString 0 ((skipWhite s).drop 1)).bind fun k =>
        if (skipWhite k.2).head? = some 58 then
          (readValue fuel ((skipWhite k.2).drop 1)).bind fun v =>
            if v.2.head? = some 44 then
              (readMembers fuel (v.2.drop 1)).map fun r => ((unescape k.1, v.1) :: r.1, r.2)
            else if v.2.head? = some 125 then some ([(unescape k.1, v.1)], v.2.drop 1)
            else none
        else none
    else none

end

/-- The value of a text. -/
def parse (s : Bytes) : Option Value :=
  (readValue (2 * s.length + 2) s).bind fun r => if r.2 = [] then some r.1 else none

/-- The parser takes this text for this value, wherever it stands. -/
def Reads (s : Bytes) (v : Value) : Prop :=
  ∀ fuel rest,
    2 * s.length + 1 < fuel → NumberEnd rest → readValue fuel (s ++ rest) = some (v, skipWhite rest)

def ReadsValues (s : Bytes) (vs : List Value) : Prop :=
  ∀ fuel rest, 2 * s.length + 2 < fuel → readValues fuel (s ++ 93 :: rest) = some (vs, rest)

def ReadsMembers (s : Bytes) (ms : List (Bytes × Value)) : Prop :=
  ∀ fuel rest, 2 * s.length + 2 < fuel → readMembers fuel (s ++ 125 :: rest) = some (ms, rest)

/-! ## Single values -/

theorem skipWhite_cons_of_not {c : UInt8} (h : isWhite c = false) (s : Bytes) :
    skipWhite (c :: s) = c :: s :=
  List.dropWhile_cons_of_neg (by simp [h])

theorem skipWhite_append {w : Bytes} (h : w.all isWhite = true) (s : Bytes) :
    skipWhite (w ++ s) = skipWhite s := by
  induction w with
  | nil => rfl
  | cons c w ih =>
    rw [List.all_cons, Bool.and_eq_true] at h
    rw [List.cons_append, skipWhite, List.dropWhile_cons_of_pos h.1]
    exact ih h.2

theorem numberEnd_cons {c : UInt8} (h : isNumberByte c = false) (s : Bytes) :
    NumberEnd (c :: s) := by
  intro d hd
  obtain rfl := Option.some.inj hd
  exact h

/-- A value is read once what stands behind the white space is. -/
theorem reads_of_core {c : UInt8} {s : Bytes} {v : Value} (hc : isWhite c = false)
    (h : ∀ fuel rest, 2 * s.length + 2 < fuel → NumberEnd rest → readCore fuel (c :: s ++ rest) =
      some (v, rest)) :
    Reads (c :: s) v := by
  intro fuel rest hfuel hrest
  cases fuel with
  | zero => exact absurd hfuel (Nat.not_lt_zero _)
  | succ fuel =>
    rw [List.length_cons] at hfuel
    rw [readValue, List.cons_append, skipWhite_cons_of_not hc, ← List.cons_append,
      h fuel rest (by omega) hrest]
    rfl

theorem reads_null : Reads (ascii "null") .null := by
  refine reads_of_core rfl fun fuel rest hfuel _ => ?_
  cases fuel with
  | zero => exact absurd hfuel (Nat.not_lt_zero _)
  | succ fuel => rfl

theorem reads_true : Reads (ascii "true") (.bool true) := by
  refine reads_of_core rfl fun fuel rest hfuel _ => ?_
  cases fuel with
  | zero => exact absurd hfuel (Nat.not_lt_zero _)
  | succ fuel => rfl

theorem reads_false : Reads (ascii "false") (.bool false) := by
  refine reads_of_core rfl fun fuel rest hfuel _ => ?_
  cases fuel with
  | zero => exact absurd hfuel (Nat.not_lt_zero _)
  | succ fuel => rfl

theorem reads_string {s : Bytes} (h : Chars s) : Reads (quoted s) (.string (unescape s)) := by
  refine reads_of_core rfl fun fuel rest hfuel _ => ?_
  cases fuel with
  | zero => exact absurd hfuel (Nat.not_lt_zero _)
  | succ fuel =>
    simp [readCore, readString_of_chars h rest]

theorem reads_number {n : Bytes} (h : IsNumber n) : Reads n (.number n) := by
  obtain ⟨hok, hbytes⟩ := isNumber_of_grammar h
  obtain ⟨c, s, rfl⟩ : ∃ c s, n = c :: s := by
    refine List.exists_cons_of_ne_nil ?_
    rintro rfl
    exact absurd hok (by decide)
  have hc := List.all_eq_true.mp hbytes c List.mem_cons_self
  have hnot : ∀ d, isNumberByte d = false → c ≠ d := by
    rintro d hd rfl
    exact absurd (hd.symm.trans hc) (by simp)
  have hwhite : isWhite c = false := by
    simp only [isWhite, Bool.or_eq_false_iff, beq_eq_false_iff_ne]
    exact ⟨⟨⟨hnot 32 rfl, hnot 9 rfl⟩, hnot 10 rfl⟩, hnot 13 rfl⟩
  refine reads_of_core hwhite fun fuel rest hfuel hrest => ?_
  cases fuel with
  | zero => exact absurd hfuel (Nat.not_lt_zero _)
  | succ fuel =>
    have htake := hrest.takeWhile hbytes
    have hdrop : (c :: s ++ rest).dropWhile isNumberByte = rest := by
      rw [← drop_length_takeWhile, htake, List.drop_left]
    have hword : ∀ (d : UInt8) w, isNumberByte d = false →
        ((d :: w).isPrefixOf (c :: s ++ rest)) = false := by
      intro d w hd
      rw [List.cons_append, List.isPrefixOf, beq_eq_false_iff_ne.mpr (hnot d hd).symm,
        Bool.false_and]
    have hnull : (ascii "null").isPrefixOf (c :: s ++ rest) = false := hword 110 _ rfl
    have htrue : (ascii "true").isPrefixOf (c :: s ++ rest) = false := hword 116 _ rfl
    have hfalse : (ascii "false").isPrefixOf (c :: s ++ rest) = false := hword 102 _ rfl
    have hhead : ∀ d, isNumberByte d = false → ¬ (c :: s ++ rest).head? = some d := fun d hd heq =>
      hnot d hd (Option.some.inj heq)
    rw [readCore, if_neg (hhead 123 rfl), if_neg (hhead 91 rfl), if_neg (hhead 34 rfl), hnull,
      htrue, hfalse, htake, hdrop, if_pos hok]
    rfl

/-! ## Arrays and objects -/

theorem Reads.last {s : Bytes} {v : Value} (h : Reads s v) : ReadsValues s [v] := by
  intro fuel rest hfuel
  cases fuel with
  | zero => exact absurd hfuel (Nat.not_lt_zero _)
  | succ fuel =>
    have hread := h fuel (93 :: rest) (by omega) (numberEnd_cons rfl rest)
    rw [skipWhite_cons_of_not rfl] at hread
    rw [readValues, hread]
    rfl

theorem Reads.next {s t : Bytes} {v : Value} {vs : List Value} (h : Reads s v)
    (ht : ReadsValues t vs) : ReadsValues (s ++ 44 :: t) (v :: vs) := by
  intro fuel rest hfuel
  cases fuel with
  | zero => exact absurd hfuel (Nat.not_lt_zero _)
  | succ fuel =>
    rw [List.length_append, List.length_cons] at hfuel
    have hread := h fuel (44 :: (t ++ 93 :: rest)) (by omega) (numberEnd_cons rfl _)
    have hmore := ht fuel rest (by omega)
    rw [skipWhite_cons_of_not rfl] at hread
    rw [readValues, List.append_assoc, List.cons_append, hread]
    simp [hmore]

/-- A closing bracket is no value. -/
theorem readValue_bracket (fuel : Nat) {s : Bytes} (h : (skipWhite s).head? = some 93) :
    readValue fuel s = none := by
  obtain ⟨rest, hrest⟩ : ∃ rest, skipWhite s = 93 :: rest := by
    cases hs : skipWhite s with
    | nil => rw [hs] at h; exact absurd h (by simp)
    | cons c rest =>
      rw [hs] at h
      exact ⟨rest, by rw [Option.some.inj h]⟩
  cases fuel with
  | zero => rfl
  | succ fuel =>
    rw [readValue, hrest]
    cases fuel <;> rfl

theorem readCore_bracket (fuel : Nat) (s : Bytes) : readCore (fuel + 1) (91 :: s) =
    if (skipWhite s).head? = some 93 then some (.array [], (skipWhite s).drop 1)
    else (readValues fuel s).map fun r => (.array r.1, r.2) := rfl

theorem readCore_brace (fuel : Nat) (s : Bytes) : readCore (fuel + 1) (123 :: s) =
    if (skipWhite s).head? = some 125 then some (.object [], (skipWhite s).drop 1)
    else (readMembers fuel s).map fun r => (.object r.1, r.2) := rfl

theorem ReadsValues.array {s : Bytes} {vs : List Value} (h : ReadsValues s vs) :
    Reads (91 :: (s ++ [93])) (.array vs) := by
  refine reads_of_core rfl fun fuel rest hfuel _ => ?_
  cases fuel with
  | zero => exact absurd hfuel (Nat.not_lt_zero _)
  | succ fuel =>
    rw [List.length_append, List.length_singleton] at hfuel
    have hread := h fuel rest (by omega)
    have htext : 91 :: (s ++ [93]) ++ rest = 91 :: (s ++ 93 :: rest) := by simp
    have hopen : ¬ (skipWhite (s ++ 93 :: rest)).head? = some 93 := by
      intro hclose
      cases fuel with
      | zero => exact absurd hfuel (by omega)
      | succ fuel =>
        rw [readValues, readValue_bracket fuel hclose] at hread
        exact absurd hread (by simp)
    rw [htext, readCore_bracket, if_neg hopen, hread]
    rfl

theorem reads_emptyArray {w : Bytes} (hw : w.all isWhite = true) :
    Reads (91 :: (w ++ [93])) (.array []) := by
  refine reads_of_core rfl fun fuel rest hfuel _ => ?_
  cases fuel with
  | zero => exact absurd hfuel (Nat.not_lt_zero _)
  | succ fuel =>
    have htext : 91 :: (w ++ [93]) ++ rest = 91 :: (w ++ 93 :: rest) := by simp
    have hskip : skipWhite (w ++ 93 :: rest) = 93 :: rest := by
      rw [skipWhite_append hw, skipWhite_cons_of_not rfl]
    rw [htext, readCore_bracket, hskip]
    rfl

/-- A name, a colon and a value, with white space before the name and behind it. -/
structure ReadsMember (name value : Bytes) (m : Bytes × Value) : Prop where
  chars : Chars name
  name : unescape name = m.1
  value : Reads value m.2

theorem readMembers_succ {w u name value : Bytes} {m : Bytes × Value} (hw : w.all isWhite = true)
    (hu : u.all isWhite = true) (h : ReadsMember name value m) {fuel : Nat} {rest : Bytes}
    (hfuel : 2 * value.length + 1 < fuel) (hrest : NumberEnd rest) :
    readMembers (fuel + 1) (w ++ quoted name ++ u ++ 58 :: value ++ rest) =
      if (skipWhite rest).head? = some 44 then
        (readMembers fuel ((skipWhite rest).drop 1)).map fun r => (m :: r.1, r.2)
      else if (skipWhite rest).head? = some 125 then some ([m], (skipWhite rest).drop 1)
      else none := by
  have htext : w ++ quoted name ++ u ++ 58 :: value ++ rest =
      w ++ (34 :: (name ++ 34 :: (u ++ 58 :: (value ++ rest)))) := by
    simp [quoted]
  have hskip : skipWhite (w ++ (34 :: (name ++ 34 :: (u ++ 58 :: (value ++ rest))))) =
      34 :: (name ++ 34 :: (u ++ 58 :: (value ++ rest))) := by
    rw [skipWhite_append hw, skipWhite_cons_of_not rfl]
  have hcolon : skipWhite (u ++ 58 :: (value ++ rest)) = 58 :: (value ++ rest) := by
    rw [skipWhite_append hu, skipWhite_cons_of_not rfl]
  have hstring := readString_of_chars h.chars (u ++ 58 :: (value ++ rest))
  have hvalue := h.value fuel rest hfuel hrest
  rw [htext, readMembers, hskip, List.head?_cons, if_pos rfl, List.drop_one, List.tail_cons,
    hstring, Option.bind_some]
  dsimp only
  rw [hcolon, List.head?_cons, if_pos rfl, List.drop_one, List.tail_cons, hvalue,
    Option.bind_some, h.name]

theorem ReadsMember.last {w u name value : Bytes} {m : Bytes × Value} (hw : w.all isWhite = true)
    (hu : u.all isWhite = true) (h : ReadsMember name value m) :
    ReadsMembers (w ++ quoted name ++ u ++ 58 :: value) [m] := by
  intro fuel rest hfuel
  cases fuel with
  | zero => exact absurd hfuel (Nat.not_lt_zero _)
  | succ fuel =>
    simp only [List.length_append, List.length_cons] at hfuel
    rw [readMembers_succ hw hu h (by omega) (numberEnd_cons rfl rest), skipWhite_cons_of_not rfl]
    rfl

theorem ReadsMember.next {w u name value t : Bytes} {m : Bytes × Value} {ms : List (Bytes × Value)}
    (hw : w.all isWhite = true) (hu : u.all isWhite = true) (h : ReadsMember name value m)
    (ht : ReadsMembers t ms) :
    ReadsMembers (w ++ quoted name ++ u ++ 58 :: value ++ 44 :: t) (m :: ms) := by
  intro fuel rest hfuel
  cases fuel with
  | zero => exact absurd hfuel (Nat.not_lt_zero _)
  | succ fuel =>
    simp only [List.length_append, List.length_cons] at hfuel
    have hmore := ht fuel rest (by omega)
    rw [List.append_assoc, List.cons_append,
      readMembers_succ hw hu h (by omega) (numberEnd_cons rfl _), skipWhite_cons_of_not rfl,
      List.head?_cons, if_pos rfl, List.drop_one, List.tail_cons, hmore]
    rfl

theorem readMembers_brace (fuel : Nat) {s : Bytes} (h : (skipWhite s).head? = some 125) :
    readMembers fuel s = none := by
  cases fuel with
  | zero => rfl
  | succ fuel =>
    rw [readMembers, h]
    rfl

theorem ReadsMembers.object {s : Bytes} {ms : List (Bytes × Value)} (h : ReadsMembers s ms) :
    Reads (123 :: (s ++ [125])) (.object ms) := by
  refine reads_of_core rfl fun fuel rest hfuel _ => ?_
  cases fuel with
  | zero => exact absurd hfuel (Nat.not_lt_zero _)
  | succ fuel =>
    rw [List.length_append, List.length_singleton] at hfuel
    have hread := h fuel rest (by omega)
    have htext : 123 :: (s ++ [125]) ++ rest = 123 :: (s ++ 125 :: rest) := by simp
    have hopen : ¬ (skipWhite (s ++ 125 :: rest)).head? = some 125 := by
      intro hclose
      rw [readMembers_brace fuel hclose] at hread
      exact absurd hread (by simp)
    rw [htext, readCore_brace, if_neg hopen, hread]
    rfl

theorem reads_emptyObject {w : Bytes} (hw : w.all isWhite = true) :
    Reads (123 :: (w ++ [125])) (.object []) := by
  refine reads_of_core rfl fun fuel rest hfuel _ => ?_
  cases fuel with
  | zero => exact absurd hfuel (Nat.not_lt_zero _)
  | succ fuel =>
    have htext : 123 :: (w ++ [125]) ++ rest = 123 :: (w ++ 125 :: rest) := by simp
    have hskip : skipWhite (w ++ 125 :: rest) = 125 :: rest := by
      rw [skipWhite_append hw, skipWhite_cons_of_not rfl]
    rw [htext, readCore_brace, hskip]
    rfl

/-! ## Every well-formed text -/

theorem isNumberByte_of_isWhite {c : UInt8} (h : isWhite c = true) : isNumberByte c = false := by
  simp only [isWhite, Bool.or_eq_true, beq_iff_eq] at h
  rcases h with ((rfl | rfl) | rfl) | rfl <;> rfl

theorem Reads.before {c : UInt8} {s : Bytes} {v : Value} (hc : isWhite c = true) (h : Reads s v) :
    Reads (c :: s) v := by
  intro fuel rest hfuel hrest
  rw [List.length_cons] at hfuel
  have hread := h fuel rest (by omega) hrest
  cases fuel with
  | zero => exact absurd hfuel (Nat.not_lt_zero _)
  | succ fuel =>
    have hskip : skipWhite (c :: s ++ rest) = skipWhite (s ++ rest) := List.dropWhile_cons_of_pos hc
    rw [readValue, hskip, ← readValue]
    exact hread

theorem Reads.after {c : UInt8} {s : Bytes} {v : Value} (hc : isWhite c = true) (h : Reads s v) :
    Reads (s ++ [c]) v := by
  intro fuel rest hfuel _
  rw [List.length_append, List.length_singleton] at hfuel
  have hread := h fuel (c :: rest) (by omega) (numberEnd_cons (isNumberByte_of_isWhite hc) rest)
  rw [List.append_assoc, List.singleton_append, hread]
  rw [show skipWhite (c :: rest) = skipWhite rest from List.dropWhile_cons_of_pos hc]

/-- What the parser makes of a text of this kind. -/
def Readable : Kind → Bytes → Prop
  | .value, s => ∃ v, Reads s v
  | .values, s => ∃ vs, ReadsValues s vs
  | .members, s => ∃ ms, ReadsMembers s ms

theorem Text.readable {k : Kind} {s : Bytes} (h : Text k s) : Readable k s := by
  induction h with
  | null => exact ⟨_, reads_null⟩
  | true => exact ⟨_, reads_true⟩
  | false => exact ⟨_, reads_false⟩
  | number hn => exact ⟨_, reads_number hn⟩
  | string hs => exact ⟨_, reads_string hs⟩
  | emptyArray => exact ⟨_, reads_emptyArray (w := []) rfl⟩
  | array _ ih =>
    obtain ⟨vs, hvs⟩ := ih
    exact ⟨_, hvs.array⟩
  | emptyObject => exact ⟨_, reads_emptyObject (w := []) rfl⟩
  | object _ ih =>
    obtain ⟨ms, hms⟩ := ih
    exact ⟨_, hms.object⟩
  | blankArray hw => exact ⟨_, reads_emptyArray hw⟩
  | blankObject hw => exact ⟨_, reads_emptyObject hw⟩
  | before hc _ ih =>
    obtain ⟨v, hv⟩ := ih
    exact ⟨v, hv.before hc⟩
  | after hc _ ih =>
    obtain ⟨v, hv⟩ := ih
    exact ⟨v, hv.after hc⟩
  | last _ ih =>
    obtain ⟨v, hv⟩ := ih
    exact ⟨_, hv.last⟩
  | next _ _ ihv ihvs =>
    obtain ⟨v, hv⟩ := ihv
    obtain ⟨vs, hvs⟩ := ihvs
    exact ⟨_, hv.next hvs⟩
  | @lastMember w u k v hw hk hu _ ih =>
    obtain ⟨x, hx⟩ := ih
    have hmember : ReadsMember k v (unescape k, x) := ⟨hk, rfl, hx⟩
    exact ⟨_, hmember.last hw hu⟩
  | @nextMember w u k v ms hw hk hu _ _ ihv ihms =>
    obtain ⟨x, hx⟩ := ihv
    obtain ⟨ms, hms⟩ := ihms
    have hmember : ReadsMember k v (unescape k, x) := ⟨hk, rfl, hx⟩
    exact ⟨_, hmember.next hw hu hms⟩

theorem Reads.parse {s : Bytes} {v : Value} (h : Reads s v) : parse s = some v := by
  have hread := h (2 * s.length + 2) [] (Nat.lt_succ_self _) fun c hc => absurd hc (by simp)
  rw [List.append_nil] at hread
  rw [Json.parse, hread]
  rfl

/-- The parser takes every well-formed text, and takes it for the same value wherever it stands. -/
theorem WellFormed.reads {s : Bytes} (h : WellFormed s) : ∃ v, Reads s v ∧ parse s = some v := by
  obtain ⟨v, hv⟩ := Text.readable h
  exact ⟨v, hv, hv.parse⟩

/-! ## Texts with commas between them -/

theorem readsValues_joined {t : Bytes} {v : Value} (h : Reads t v) {ts : List Bytes}
    {vs : List Value} (hs : List.Forall₂ Reads ts vs) :
    ReadsValues (joined (t :: ts)) (v :: vs) := by
  induction hs generalizing t v with
  | nil => exact h.last
  | cons hu _ ih => exact h.next (ih hu)

theorem reads_array {ts : List Bytes} {vs : List Value} (h : List.Forall₂ Reads ts vs) :
    Reads (array ts) (.array vs) := by
  cases h with
  | nil => exact reads_emptyArray (w := []) rfl
  | cons hv hvs => exact (readsValues_joined hv hvs).array

theorem readsMembers_joined {n : Member} {m : Bytes × Value} (h : ReadsMember n.name n.value m)
    {ns : List Member} {ms : List (Bytes × Value)}
    (hs : List.Forall₂ (fun n m => ReadsMember n.name n.value m) ns ms) :
    ReadsMembers (joined ((n :: ns).map Member.text)) (m :: ms) := by
  induction hs generalizing n m with
  | nil => simpa [joined, Member.text] using ReadsMember.last (w := []) (u := []) rfl rfl h
  | cons hu _ ih =>
    simpa [joined, Member.text] using ReadsMember.next (w := []) (u := []) rfl rfl h (ih hu)

theorem reads_object {ns : List Member} {ms : List (Bytes × Value)}
    (h : List.Forall₂ (fun n m => ReadsMember n.name n.value m) ns ms) :
    Reads (object ns) (.object ms) := by
  cases h with
  | nil => exact reads_emptyObject (w := []) rfl
  | cons hm hms => exact (readsMembers_joined hm hms).object

/-- The values of well-formed texts, read one by one. -/
theorem exists_reads_all {ts : List Bytes} (h : ∀ t ∈ ts, WellFormed t) :
    ∃ vs, List.Forall₂ Reads ts vs ∧ ts.map parse = vs.map some := by
  induction ts with
  | nil => exact ⟨[], .nil, rfl⟩
  | cons t ts ih =>
    obtain ⟨ht, hts⟩ := List.forall_mem_cons.mp h
    obtain ⟨v, hread, hparse⟩ := ht.reads
    obtain ⟨vs, hreads, hparses⟩ := ih hts
    exact ⟨v :: vs, .cons hread hreads, by rw [List.map_cons, List.map_cons, hparse, hparses]⟩

theorem exists_readsMember_all {ns : List Member} (h : ∀ n ∈ ns, n.Valid) :
    ∃ ms : List (Bytes × Value), List.Forall₂ (fun n m => ReadsMember n.name n.value m) ns ms ∧
      ms.map Prod.fst = ns.map fun n => unescape n.name := by
  induction ns with
  | nil => exact ⟨[], .nil, rfl⟩
  | cons n ns ih =>
    obtain ⟨hn, hns⟩ := List.forall_mem_cons.mp h
    obtain ⟨v, hread, -⟩ := WellFormed.reads hn.value
    obtain ⟨ms, hreads, hnames⟩ := ih hns
    exact ⟨(unescape n.name, v) :: ms, .cons ⟨hn.name, rfl, hread⟩ hreads, by
      rw [List.map_cons, List.map_cons, hnames]⟩

end ForgeOps.Json
