import ForgeOpsTracker.Lib.JsonReader
import ForgeOpsTracker.Lib.Utf8

/-! The JSON encoder. The same static function stands in six files
(`append_json_string`, `json_append_escaped_string`); each appends the text below
to its buffer. -/

namespace ForgeOps.JsonText

def escapeByte (c : UInt8) : Bytes :=
  if c = 34 then ascii "\\\""
  else if c = 92 then ascii "\\\\"
  else if c = 10 then ascii "\\n"
  else if c = 13 then ascii "\\r"
  else if c = 9 then ascii "\\t"
  else if c < 0x20 then ascii "\\u00" ++ hexByte c
  else [c]

def jsonString (value : Bytes) : Bytes :=
  ascii "\"" ++ value.flatMap escapeByte ++ ascii "\""

/-- `json_append_string_or_null` -/
def jsonStringOrNull : Option Bytes → Bytes
  | none => ascii "null"
  | some value => jsonString value

/-- The loops that append a comma before every element but the first. -/
def commaSeparated : List Bytes → Bytes
  | [] => []
  | [x] => x
  | x :: y :: rest => x ++ ascii "," ++ commaSeparated (y :: rest)

example : jsonString (ascii "a\"\n") = ascii "\"a\\\"\\n\"" := by decide

/-! ## What the encoder writes is JSON -/

/-- A byte is written with a short escape, as a `\u` escape, or as it is. -/
theorem escapeByte_cases (c : UInt8) :
    (∃ e, Json.isEscape e = true ∧ Json.shortEscape e = c ∧ Byte.isAscii c = true ∧
    escapeByte c = [92, e]) ∨
      c < 0x20 ∧ escapeByte c = ascii "\\u00" ++ hexByte c ∨ Json.isPlain c = true ∧
      escapeByte c = [c] := by
  unfold escapeByte
  by_cases hquote : c = 34
  · exact .inl ⟨34, rfl, hquote.symm, hquote ▸ rfl, if_pos hquote⟩
  rw [if_neg hquote]
  by_cases hback : c = 92
  · exact .inl ⟨92, rfl, hback.symm, hback ▸ rfl, if_pos hback⟩
  rw [if_neg hback]
  by_cases hnewline : c = 10
  · exact .inl ⟨110, rfl, hnewline.symm, hnewline ▸ rfl, if_pos hnewline⟩
  rw [if_neg hnewline]
  by_cases hreturn : c = 13
  · exact .inl ⟨114, rfl, hreturn.symm, hreturn ▸ rfl, if_pos hreturn⟩
  rw [if_neg hreturn]
  by_cases htab : c = 9
  · exact .inl ⟨116, rfl, htab.symm, htab ▸ rfl, if_pos htab⟩
  rw [if_neg htab]
  by_cases hlow : c < 0x20
  · exact .inr (.inl ⟨hlow, if_pos hlow⟩)
  · refine .inr (.inr ⟨?_, if_neg hlow⟩)
    simp only [Json.isPlain, Bool.and_eq_true, bne_iff_ne, decide_eq_true_eq]
    exact ⟨⟨UInt8.not_lt.mp hlow, hquote⟩, hback⟩

theorem chars_escapeByte (c : UInt8) : Json.Chars (escapeByte c) := by
  rcases escapeByte_cases c with ⟨e, he, -, -, heq⟩ | ⟨-, heq⟩ | ⟨hplain, heq⟩
  · rw [heq]
    exact .escape he .nil
  · rw [heq]
    apply Json.Chars.unicode rfl rfl _ _ .nil
    · apply isHex_hexDigit
      have := c.toNat_lt
      omega
    · exact isHex_hexDigit (Nat.mod_lt _ (by decide))
  · rw [heq]
    exact .plain hplain .nil

theorem chars_escaped (value : Bytes) : Json.Chars (value.flatMap escapeByte) := by
  induction value with
  | nil => exact .nil
  | cons c value ih => exact (chars_escapeByte c).append ih

theorem jsonString_eq_quoted (value : Bytes) :
    jsonString value = Json.quoted (value.flatMap escapeByte) := rfl

theorem jsonString_wellFormed (value : Bytes) : Json.WellFormed (jsonString value) :=
  .string (chars_escaped value)

theorem jsonStringOrNull_wellFormed (value : Option Bytes) :
    Json.WellFormed (jsonStringOrNull value) := by
  cases value with
  | none => exact .null
  | some value => exact jsonString_wellFormed value

theorem commaSeparated_eq_joined (xs : List Bytes) : commaSeparated xs = Json.joined xs := by
  induction xs with
  | nil => rfl
  | cons x xs ih =>
    cases xs with
    | nil => rfl
    | cons y ys =>
      rw [commaSeparated, ih, List.append_assoc]
      rfl

/-- A name and a value as the encoders write them. -/
theorem pair_text (name value : Bytes) :
    jsonString name ++ ascii ":" ++ value =
      (Json.Member.mk (name.flatMap escapeByte) value).text := by
  rw [jsonString_eq_quoted, List.append_assoc]
  rfl

/-- A body with one member, a list: `label` is an opening brace, a quoted name, a colon and an
opening bracket. -/
theorem listBody_wellFormed (name label : Bytes)
    (hlabel : label = 123 :: (Json.quoted name ++ [58, 91])) (hname : name.all Json.isPlain)
    {values : List Bytes} (h : ∀ v ∈ values, Json.WellFormed v) :
    Json.WellFormed (label ++ commaSeparated values ++ ascii "]\x7d") := by
  have hclosed := (Json.Opened.first (Json.chars_of_plain hname) (Json.array_wellFormed h)).close
  have hend : ascii "]\x7d" = [93, 125] := rfl
  rw [hlabel, hend, commaSeparated_eq_joined]
  simpa [Json.array] using hclosed

def isPrintable (c : UInt8) : Bool := 32 ≤ c

theorem hexDigit_printable {n : Nat} (h : n < 16) : isPrintable (hexDigit n) = true := by
  interval_cases n <;> rfl

theorem escapeByte_printable (c : UInt8) : (escapeByte c).all isPrintable := by
  rcases escapeByte_cases c with ⟨e, he, -, -, heq⟩ | ⟨-, heq⟩ | ⟨hplain, heq⟩
  · have hprintable : isPrintable e = true := by
      simp only [Json.isEscape, Bool.or_eq_true, beq_iff_eq] at he
      rcases he with ((((((rfl | rfl) | rfl) | rfl) | rfl) | rfl) | rfl) | rfl <;> rfl
    rw [heq, List.all_cons, List.all_cons, hprintable]
    rfl
  · have := c.toNat_lt
    rw [heq, List.all_append, hexByte, List.all_cons, List.all_cons, hexDigit_printable (by omega),
      hexDigit_printable (by omega)]
    rfl
  · simp only [Json.isPlain, Bool.and_eq_true] at hplain
    rw [heq, List.all_cons, List.all_nil, Bool.and_true]
    exact hplain.1.1

/-- No control character, and so neither a newline nor a NUL. -/
theorem jsonString_printable (value : Bytes) : (jsonString value).all isPrintable := by
  rw [jsonString_eq_quoted, Json.quoted, List.all_cons, List.all_append, List.all_flatMap]
  have hall : value.all (fun c => (escapeByte c).all isPrintable) = true :=
    List.all_eq_true.mpr fun c _ => escapeByte_printable c
  rw [hall]
  rfl

/-! ## How long it gets -/

theorem escapeByte_length_le (c : UInt8) : (escapeByte c).length ≤ 6 := by
  rcases escapeByte_cases c with ⟨e, -, -, -, heq⟩ | ⟨-, heq⟩ | ⟨-, heq⟩
  · rw [heq]
    exact (by decide : 2 ≤ 6)
  · rw [heq]
    exact Nat.le_refl 6
  · rw [heq]
    exact (by decide : 1 ≤ 6)

theorem escapeByte_plain {c : UInt8} (h : Json.isPlain c = true) : escapeByte c = [c] := by
  simp only [Json.isPlain, Bool.and_eq_true, bne_iff_ne, decide_eq_true_eq] at h
  obtain ⟨⟨hlow, hquote⟩, hback⟩ := h
  have hnot : ∀ d : UInt8, d < 32 → c ≠ d := by
    rintro d hd rfl
    exact absurd hd (UInt8.not_lt.mpr hlow)
  rw [escapeByte, if_neg hquote, if_neg hback, if_neg (hnot 10 (by decide)),
    if_neg (hnot 13 (by decide)), if_neg (hnot 9 (by decide)), if_neg (UInt8.not_lt.mpr hlow)]

theorem jsonString_length_le (value : Bytes) :
    (jsonString value).length ≤ 6 * value.length + 2 := by
  have hescaped : (value.flatMap escapeByte).length ≤ 6 * value.length := by
    induction value with
    | nil => exact Nat.le_refl _
    | cons c value ih =>
      have := escapeByte_length_le c
      rw [List.flatMap_cons, List.length_append, List.length_cons]
      omega
  show (34 :: (value.flatMap escapeByte ++ [34])).length ≤ _
  simp only [List.length_cons, List.length_append, List.length_nil]
  omega

theorem jsonString_plain {value : Bytes} (h : value.all Json.isPlain = true) :
    jsonString value = 34 :: (value ++ [34]) := by
  have hescaped : value.flatMap escapeByte = value := by
    induction value with
    | nil => rfl
    | cons c value ih =>
      rw [List.all_cons, Bool.and_eq_true] at h
      rw [List.flatMap_cons, escapeByte_plain h.1, ih h.2]
      rfl
  rw [jsonString, hescaped]
  rfl

/-! ## What a reader makes of it -/

theorem hexValue_hexDigit {n : Nat} (h : n < 16) : Json.hexValue (hexDigit n) = n := by
  interval_cases n <;> rfl

theorem character_of_lt {n : Nat} (h : n < 32) : Json.character n = [UInt8.ofNat n] := by
  interval_cases n <;> rfl

theorem unescapeFrom_plain {c : UInt8} (h : c ≠ 92) (s : Bytes) :
    Json.unescapeFrom none (c :: s) = c :: Json.unescapeFrom none s := by
  rw [Json.unescapeFrom]
  · rfl
  · rintro _ _ _ _ _ rfl
    exact absurd rfl h
  · rintro _ _ rfl
    exact absurd rfl h

theorem unescapeFrom_short {e : UInt8} (h : Json.isEscape e = true) (s : Bytes) :
    Json.unescapeFrom none (92 :: e :: s) = Json.shortEscape e :: Json.unescapeFrom none s := by
  rw [Json.unescapeFrom]
  · rfl
  · rintro _ _ _ _ _ rfl
    exact absurd h (by decide)

/-- Reading a byte that was written. -/
theorem unescapeFrom_escapeByte (c : UInt8) (s : Bytes) :
    Json.unescapeFrom none (escapeByte c ++ s) = c :: Json.unescapeFrom none s := by
  rcases escapeByte_cases c with ⟨e, he, hshort, -, heq⟩ | ⟨hlow, heq⟩ | ⟨hplain, heq⟩
  · rw [heq, List.cons_append, List.singleton_append, unescapeFrom_short he, hshort]
  · have hlt : c.toNat < 32 := UInt8.lt_iff_toNat_lt.mp hlow
    have hunit : Json.codeUnit 48 48 (hexDigit (c.toNat / 16))
        (hexDigit (c.toNat % 16)) = c.toNat := by
      have hzero : Json.hexValue 48 = 0 := rfl
      rw [Json.codeUnit, hexValue_hexDigit (by omega),
        hexValue_hexDigit (Nat.mod_lt _ (by omega)), hzero]
      omega
    have hhigh : Json.isHigh c.toNat = false := by
      rw [Json.isHigh, Bool.and_eq_false_iff]
      exact .inl (decide_eq_false (by omega))
    have htext : ascii "\\u00" ++ hexByte c ++ s =
        92 :: 117 :: 48 :: 48 :: hexDigit (c.toNat / 16) :: hexDigit (c.toNat % 16) :: s := rfl
    rw [heq, htext, Json.unescapeFrom]
    simp only [hunit, Json.unitText, hhigh, character_of_lt hlt, UInt8.ofNat_toNat]
    rfl
  · have hback : c ≠ 92 := by
      rintro rfl
      exact absurd hplain (by decide)
    rw [heq]
    exact unescapeFrom_plain hback s

theorem unescape_escaped (value : Bytes) : Json.unescape (value.flatMap escapeByte) = value := by
  rw [Json.unescape]
  induction value with
  | nil => rfl
  | cons c value ih => rw [List.flatMap_cons, unescapeFrom_escapeByte, ih]

theorem reads_jsonString (value : Bytes) : Json.Reads (jsonString value) (.string value) := by
  have hreads := Json.reads_string (chars_escaped value)
  rwa [unescape_escaped] at hreads

theorem unescape_plain {name : Bytes} (h : name.all Json.isPlain = true) :
    Json.unescape name = name := by
  rw [Json.unescape]
  induction name with
  | nil => rfl
  | cons c name ih =>
    rw [List.all_cons, Bool.and_eq_true] at h
    have hback : c ≠ 92 := by
      rintro rfl
      exact absurd h.1 (by decide)
    rw [unescapeFrom_plain hback, ih h.2]

theorem readsMember_plain {name value : Bytes} {v : Json.Value} (h : name.all Json.isPlain = true)
    (hv : Json.Reads value v) : Json.ReadsMember name value (name, v) :=
  ⟨Json.chars_of_plain h, unescape_plain h, hv⟩

theorem readsMember_escaped (name : Bytes) {value : Bytes} {v : Json.Value}
    (hv : Json.Reads value v) : Json.ReadsMember (name.flatMap escapeByte) value (name, v) :=
  ⟨chars_escaped name, unescape_escaped name, hv⟩

/-- The value of a text that may be missing. -/
def stringOrNull : Option Bytes → Json.Value
  | none => .null
  | some value => .string value

theorem reads_jsonStringOrNull (value : Option Bytes) :
    Json.Reads (jsonStringOrNull value) (stringOrNull value) := by
  cases value with
  | none => exact Json.reads_null
  | some value => exact reads_jsonString value

theorem readsMember_string {name : Bytes} (h : name.all Json.isPlain = true) (text : Bytes) :
    Json.ReadsMember name (jsonString text) (name, .string text) :=
  readsMember_plain h (reads_jsonString text)

theorem readsMember_stringOrNull {name : Bytes} (h : name.all Json.isPlain = true)
    (text : Option Bytes) :
    Json.ReadsMember name (jsonStringOrNull text) (name, stringOrNull text) :=
  readsMember_plain h (reads_jsonStringOrNull text)

theorem isAscii_hexDigit {n : Nat} (h : n < 16) : Byte.isAscii (hexDigit n) = true := by
  interval_cases n <;> rfl

theorem isAscii_hexByte (c : UInt8) : (hexByte c).all Byte.isAscii = true := by
  have hlt := c.toNat_lt
  rw [hexByte, List.all_cons, List.all_cons, isAscii_hexDigit (by omega),
    isAscii_hexDigit (Nat.mod_lt _ (by omega))]
  rfl

theorem utf8_escaped {value : Bytes} (h : Utf8 value) : Utf8 (value.flatMap escapeByte) := by
  refine h.flatMap fun c => ?_
  rcases escapeByte_cases c with ⟨e, he, -, hascii, heq⟩ | ⟨hlow, heq⟩ | ⟨-, heq⟩
  · have hshort : Byte.isAscii e = true := by
      simp only [Json.isEscape, Bool.or_eq_true, beq_iff_eq] at he
      rcases he with ((((((rfl | rfl) | rfl) | rfl) | rfl) | rfl) | rfl) | rfl <;> rfl
    rw [heq]
    refine .inr ⟨hascii, utf8_of_isAscii ?_⟩
    rw [List.all_cons, List.all_cons, hshort]
    rfl
  · rw [heq]
    refine .inr ⟨decide_eq_true (UInt8.lt_trans hlow (by decide)), utf8_of_isAscii ?_⟩
    rw [List.all_append, isAscii_hexByte]
    rfl
  · exact .inl heq

theorem utf8_jsonString {value : Bytes} (h : Utf8 value) : Utf8 (jsonString value) := by
  have hquote : Utf8 (ascii "\"") := utf8_of_isAscii rfl
  exact (hquote.append (utf8_escaped h)).append hquote

theorem utf8_jsonStringOrNull {value : Option Bytes} (h : ∀ v ∈ value, Utf8 v) :
    Utf8 (jsonStringOrNull value) := by
  cases value with
  | none => exact utf8_of_isAscii rfl
  | some value => exact utf8_jsonString (h value rfl)

theorem utf8_commaSeparated {texts : List Bytes} (h : ∀ t ∈ texts, Utf8 t) :
    Utf8 (commaSeparated texts) := by
  induction texts with
  | nil => exact utf8_nil
  | cons t texts ih =>
    obtain ⟨ht, hrest⟩ := List.forall_mem_cons.mp h
    cases texts with
    | nil => exact ht
    | cons u texts => exact (ht.append (utf8_of_isAscii rfl)).append (ih hrest)

theorem utf8_object {ms : List Json.Member} (h : ∀ m ∈ ms, Utf8 m.name ∧ Utf8 m.value) :
    Utf8 (Json.object ms) := by
  have hascii : ∀ {c : UInt8}, Byte.isAscii c = true → Utf8 [c] := fun hc =>
    utf8_of_isAscii (by rw [List.all_cons, hc]; rfl)
  have hmembers : ∀ text ∈ ms.map Json.Member.text, Utf8 text := by
    intro text htext
    obtain ⟨m, hm, rfl⟩ := List.mem_map.mp htext
    obtain ⟨hname, hvalue⟩ := h m hm
    have hquoted : Utf8 (Json.quoted m.name) := (hascii rfl).append (hname.append (hascii rfl))
    exact hquoted.append ((hascii rfl).append hvalue)
  rw [Json.object, ← commaSeparated_eq_joined]
  exact (hascii rfl).append ((utf8_commaSeparated hmembers).append (hascii rfl))

end ForgeOps.JsonText
