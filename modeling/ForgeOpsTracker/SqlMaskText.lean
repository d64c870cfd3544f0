import ForgeOpsTracker.SqlMaskAgain
import ForgeOpsTracker.Lib.Utf8

/-! What `forgeops_sql_mask_for_system` makes of any statement: stretches of it are replaced by
question marks, the whole is cut when it is too long, and what was valid text stays valid text. -/

namespace ForgeOps.SqlStatement

/-! ## Numbers are ASCII -/

theorem takeWhile_isAscii {p : UInt8 → Bool} (hp : ∀ c, p c = true → isWord c = true) (s : Bytes) :
    (s.take (s.takeWhile p).length).all Byte.isAscii = true := by
  rw [← List.prefix_iff_eq_take.mp (List.takeWhile_prefix p)]
  exact List.all_eq_true.mpr fun c hc => isAscii_of_isWord (hp c (List.mem_takeWhile_imp hc))

theorem digits_isAscii (s : Bytes) : (s.take (digitsLength s)).all Byte.isAscii = true :=
  takeWhile_isAscii (fun _ h => isWord_of_digit h) s

theorem fraction_isAscii {s : Bytes} {n : Nat} (h : fractionLength s = some n) :
    (s.take n).all Byte.isAscii = true := by
  obtain ⟨d, t, rfl, -, rfl⟩ := fractionLength_eq_some.mp h
  rw [Nat.add_comm, List.take_succ_cons, List.all_cons, digits_isAscii]
  rfl

theorem sign_isAscii (s : Bytes) : (s.take (signLength s)).all Byte.isAscii = true := by
  cases s with
  | nil => rfl
  | cons c s =>
    unfold signLength
    split
    · rename_i hsign
      have hc : c = 43 ∨ c = 45 := by simpa [isSign] using hsign
      rcases hc with rfl | rfl <;> rfl
    · rfl

theorem exponent_isAscii {s : Bytes} {n : Nat} (h : exponentLength s = some n) :
    (s.take n).all Byte.isAscii = true := by
  obtain ⟨e, t, rfl, he, -, rfl⟩ := exponentLength_eq_some.mp h
  have hletter : Byte.isAscii e = true := by rcases he with rfl | rfl <;> rfl
  rw [Nat.add_assoc, Nat.add_comm 1, List.take_succ_cons, List.all_cons, List.take_add,
    List.all_append, sign_isAscii, digits_isAscii, hletter]
  rfl

theorem mantissa_isAscii {s : Bytes} {n k : Nat} (hn : (s.take n).all Byte.isAscii = true)
    (h : mantissaEnd s n = some k) : (s.take k).all Byte.isAscii = true := by
  rcases mantissaEnd_cases h with ⟨e, he, rfl, -⟩ | ⟨rfl, -⟩
  · rw [List.take_add, List.all_append, hn, exponent_isAscii he]
    rfl
  · exact hn

theorem radix_isAscii {s : Bytes} {n : Nat} (h : radixEnd s = some n) :
    (s.take n).all Byte.isAscii = true := by
  obtain ⟨x, t, rfl, hpos, -, rfl⟩ := radixEnd_eq_some.mp h
  have hx : Byte.isAscii x = true := by
    rcases radix_of_digits hpos with rfl | rfl | rfl | rfl <;> rfl
  rw [Nat.add_comm, List.take_succ_cons, List.take_succ_cons, List.all_cons, List.all_cons, hx,
    takeWhile_isAscii (fun _ hc => isWord_of_radixDigit hc)]
  rfl

theorem number_isAscii {s : Bytes} {n : Nat} (h : numberEnd s = some n) :
    (s.take n).all Byte.isAscii = true := by
  rcases numberEnd_cases h with hradix | ⟨f, hf, hend⟩ | ⟨-, hend⟩
  · exact radix_isAscii hradix
  · refine mantissa_isAscii ?_ hend
    rw [List.take_add, List.all_append, digits_isAscii, fraction_isAscii hf]
    rfl
  · exact mantissa_isAscii (digits_isAscii s) hend

/-! ## Where a literal ends -/

/-- A dollar-quoted body that does not run to the end of the text ends with its tag. -/
theorem closingLength_last {tag body : Bytes} (hne : tag ≠ [])
    (h : closingLength tag body < body.length) :
    (body.take (closingLength tag body)).getLast? = tag.getLast? := by
  induction body with
  | nil => exact absurd h (by simp)
  | cons c s ih =>
    rw [closingLength] at h ⊢
    split
    · rename_i htag
      rw [← List.prefix_iff_eq_take.mp htag]
    · rename_i htag
      rw [if_neg htag, List.length_cons] at h
      rw [Nat.add_comm, List.take_succ_cons, List.getLast?_cons, ih (by omega),
        List.getLast?_eq_some_getLast hne]
      rfl

theorem getElem?_of_getLast?_take {s : Bytes} {n : Nat} {b : UInt8}
    (h : (s.take (n + 1)).getLast? = some b) : ∀ d ∈ s[n]?, d = b := by
  intro d hd
  rw [List.getLast?_take, if_neg (Nat.succ_ne_zero n), Nat.add_sub_cancel,
    Option.mem_def.mp hd] at h
  exact Option.some.inj h

theorem isAscii_of_stringQuote {prev : Option UInt8} {c : UInt8} {rest : Bytes} {quote : Nat}
    (h : stringQuote prev c rest = some quote) : Byte.isAscii c = true := by
  by_contra hc
  have hne : ∀ d, Byte.isAscii d = true → c ≠ d := fun d hd heq => hc (heq ▸ hd)
  have hnone : stringQuote prev c rest = none := by
    refine stringQuote_eq_none (hne 39 rfl) ?_ fun h => h.elim (hne 85 rfl) (hne 117 rfl)
    rw [← Bool.not_eq_true, List.contains_iff_mem]
    exact fun hmem =>
      hne c (List.all_eq_true.mp (show (ascii "EeXxNnBb").all Byte.isAscii =
        true from rfl) c hmem) rfl
  exact absurd (h.symm.trans hnone) (by simp)

/-- One turn of the loop, with what it writes. -/
def maskPiece (doubleQuoted : Bool) (prev : Option UInt8) (c : UInt8)
    (rest : Bytes) : Bytes × Nat :=
  ([(nextPiece doubleQuoted prev c rest).1.text], (nextPiece doubleQuoted prev c rest).2)

theorem map_text_pieces (doubleQuoted : Bool) (s : Bytes) :
    (pieces doubleQuoted s).map Piece.text = pass (maskPiece doubleQuoted) s := by
  have hscan : ∀ k prev, (scan (nextPiece doubleQuoted) k prev s).map Piece.text =
      (scan (maskPiece doubleQuoted) k prev s).flatten := by
    induction s with
    | nil => exact fun k prev => by rw [scan_nil, scan_nil]; rfl
    | cons c s ih =>
      intro k prev
      cases k with
      | zero => rw [scan, scan, List.map_cons, List.flatten_cons, ih]; rfl
      | succ k => exact ih k (some c)
  exact hscan 0 none

section
variable {doubleQuoted : Bool} {prev : Option UInt8} {c : UInt8} {rest : Bytes}

theorem isAscii_of_literal (h : nextPiece doubleQuoted prev c rest ≠ (.byte c, 0)) :
    Byte.isAscii c = true := by
  by_contra hc
  have hne : ∀ d, Byte.isAscii d = true → c ≠ d := fun d hd heq => hc (heq ▸ hd)
  refine h (nextPiece_copies.mpr ⟨?_, fun h => hne 34 rfl h.2,
    fun h => absurd h (hne 36 rfl), fun _ => ?_⟩)
  · by_contra hquote
    obtain ⟨quote, hquote⟩ := Option.ne_none_iff_exists'.mp hquote
    exact hc (isAscii_of_stringQuote hquote)
  · by_contra hnumber
    rcases numberEnd_head (Option.isSome_iff_ne_none.mpr hnumber) with hdigit | hdot
    · exact hc (isAscii_of_isWord (isWord_of_digit hdigit))
    · exact hne 46 rfl hdot

theorem string_last {quote : Nat} {q : UInt8} (hq : Byte.isAscii q = true)
    (hle : quote ≤ rest.length) (h : quote + quotedLength q (rest.drop quote) < rest.length) :
    ∀ d ∈ (c :: rest)[quote + quotedLength q (rest.drop quote)]?, Byte.isAscii d = true := by
  have hlast := @quotedLength_last q (rest.drop quote) (by rw [List.length_drop]; omega)
  have htake :
      ((c :: rest).take (quote + quotedLength q (rest.drop quote) + 1)).getLast? = some q := by
    rw [List.take_succ_cons, List.take_add, List.getLast?_cons, List.getLast?_append, hlast]
    rfl
  exact fun d hd => getElem?_of_getLast?_take htake d hd ▸ hq

theorem dollar_last {n : Nat} (hn : dollarLength rest = some n) (h : n < rest.length) :
    ∀ d ∈ (c :: rest)[n]?, Byte.isAscii d = true := by
  obtain ⟨⟨tag, body⟩, htag, rfl⟩ := Option.map_eq_some_iff.mp hn
  obtain ⟨name, htagEq, rfl, -⟩ := dollarTag_eq_some htag
  have hne : tag ≠ [] := (dollarTag_spec htag).1
  have hlength : tag.length - 1 = name.length + 1 := by
    rw [htagEq]
    simp
  dsimp only at h ⊢
  rw [hlength] at h ⊢
  have hlast := @closingLength_last tag body hne (by
    simp only [List.length_append, List.length_cons] at h
    omega)
  have htake :
      ((c :: (name ++ 36 :: body)).take
        (name.length + 1 + closingLength tag body + 1)).getLast? = some 36 := by
    have hsplit : c :: (name ++ 36 :: body) = c :: name ++ [36] ++ body := by simp
    have hopener : (c :: name ++ [36]).length = name.length + 1 + 1 := by simp
    rw [hsplit, Nat.add_right_comm _ _ 1, ← hopener, List.take_length_add_append,
      List.getLast?_append, hlast, htagEq, ← List.cons_append, List.getLast?_concat]
    rfl
  exact fun d hd => getElem?_of_getLast?_take htake d hd ▸ rfl

/-- A literal that text follows on ends with an ASCII byte. -/
theorem nextPiece_last (hfits : (nextPiece doubleQuoted prev c rest).2 < rest.length)
    (hc : Byte.isAscii c = true) :
    ∀ d ∈ (c :: rest)[(nextPiece doubleQuoted prev c rest).2]?, Byte.isAscii d = true := by
  have hhere : ∀ d ∈ (c :: rest)[0]?, Byte.isAscii d = true := fun d hd => Option.some.inj hd ▸ hc
  unfold nextPiece at hfits ⊢
  split
  · rename_i quote hquote
    rw [hquote] at hfits
    exact string_last rfl (Nat.le_trans (Nat.le_add_right _ _) hfits.le) hfits
  rename_i hquote
  rw [hquote] at hfits
  dsimp only at hfits
  split
  · rename_i hdouble
    rw [if_pos hdouble] at hfits
    simpa using @string_last c rest 0 34 rfl (Nat.zero_le _) (by simpa using hfits)
  rename_i hdouble
  rw [if_neg hdouble] at hfits
  split
  · rename_i hdollar
    rw [if_pos hdollar] at hfits
    split
    · rename_i n hn
      rw [hn] at hfits
      exact dollar_last hn hfits
    · exact hhere
  rename_i hdollar
  rw [if_neg hdollar] at hfits
  split
  · rename_i hdigit
    rw [if_pos hdigit] at hfits
    split
    · rename_i n hn
      split at hn
      · exact absurd hn (by simp)
      · have hnumber := number_isAscii hn
        intro d hd
        rcases Nat.eq_zero_or_pos n with rfl | hpos
        · exact hhere d hd
        · have htake : ((c :: rest).take n)[n - 1]? = some d := by
            rw [List.getElem?_take, if_pos (Nat.sub_lt hpos Nat.one_pos), Option.mem_def.mp hd]
          exact List.all_eq_true.mp hnumber d (List.mem_of_getElem? htake)
    · exact hhere
  · exact hhere

theorem maskPiece_keepsCharacters : KeepsCharacters (maskPiece doubleQuoted) := by
  intro prev c rest
  by_cases hcopy : nextPiece doubleQuoted prev c rest = (.byte c, 0)
  · rw [maskPiece, hcopy]
    exact .inl rfl
  · have hc := isAscii_of_literal hcopy
    refine .inr ⟨hc, ?_, fun hfits => nextPiece_last hfits hc⟩
    have htext : (nextPiece doubleQuoted prev c rest).1.text = 63 := by
      rcases text_nextPiece_cases with htext | htext
      · exact absurd (text_nextPiece.mp htext) hcopy
      · exact htext
    rw [maskPiece, htext]
    exact utf8_of_isAscii rfl

theorem maskPiece_replaces : maskPiece doubleQuoted prev c rest = ([c], 0) ∨
    (maskPiece doubleQuoted prev c rest).1 = ascii "?" ∧
    (maskPiece doubleQuoted prev c rest).2 ≤ rest.length := by
  by_cases hcopy : nextPiece doubleQuoted prev c rest = (.byte c, 0)
  · rw [maskPiece, hcopy]
    exact .inl rfl
  · refine .inr ⟨?_, nextPiece_le doubleQuoted prev c rest⟩
    rcases text_nextPiece_cases with htext | htext
    · exact absurd (text_nextPiece.mp htext) hcopy
    · rw [maskPiece, htext]
      rfl

end

/-! ## The whole statement -/

/-- What is sent of a masked statement: all of it, or its first bytes and three dots. -/
def CutTo (most : Nat) (full out : Bytes) : Prop :=
  full.length ≤ most ∧ out = full ∨ most < full.length ∧
    ∃ k ≤ most, out = full.take k ++ ascii "..."

theorem cutStatement_cutTo (full : Bytes) : CutTo maxSqlLength full (cutStatement full) := by
  unfold cutStatement
  split
  · rename_i hlong
    exact .inr ⟨hlong, _, cutBack_le full maxSqlLength, rfl⟩
  · rename_i hlong
    exact .inl ⟨Nat.le_of_not_lt hlong, rfl⟩

theorem CutTo.length_le {most : Nat} {full out : Bytes} (h : CutTo most full out) :
    out.length ≤ most + 3 := by
  rcases h with ⟨hle, rfl⟩ | ⟨-, k, hk, rfl⟩
  · exact Nat.le_add_right_of_le hle
  · rw [List.length_append, List.length_take]
    show min k full.length + 3 ≤ most + 3
    omega

theorem CutTo.not_mem {most : Nat} {full out : Bytes} (h : CutTo most full out) {c : UInt8}
    (hc : c ∉ full) (hdots : c ≠ 46) : c ∉ out := by
  rcases h with ⟨-, rfl⟩ | ⟨-, k, -, rfl⟩
  · exact hc
  · intro hmem
    rcases List.mem_append.mp hmem with hmem | hmem
    · exact hc (List.mem_of_mem_take hmem)
    · have hdot : c = 46 := by simpa [ascii] using hmem
      exact hdots hdot

theorem cutStatement_utf8 {full : Bytes} (h : Utf8 full) : Utf8 (cutStatement full) := by
  unfold cutStatement
  split
  · exact (h.charPrefix_take (boundary_cutBack h.boundary maxSqlLength)).utf8.append
      (utf8_of_isAscii rfl)
  · exact h

/-- What a statement is masked to. -/
structure MaskOf (dbSystem : Option Bytes) (statement masked : Bytes) : Prop where
  text : ∃ full, Replaced (ascii "?") statement full ∧ CutTo 4000 full masked
  length_le : masked.length ≤ 4003
  no_quote : 39 ∉ masked
  no_double_quote : ∀ system ∈ dbSystem, system.map Byte.toLower = ascii "mysql" ∨
    system.map Byte.toLower = ascii "mariadb" → 34 ∉ masked
  utf8 : Utf8 statement → Utf8 masked

theorem maskForSystem_eq {statement : Bytes} (h : ¬ statement.all isSpaceChar = true)
    (dbSystem : Option Bytes) : maskForSystem (some statement) dbSystem =
      some (cutStatement (pass (maskPiece (doubleQuotedStrings dbSystem)) statement)) := by
  rw [maskForSystem, if_neg h, map_text_pieces]

theorem mask_utf8 {statement masked : Bytes} (h : mask (some statement) = some masked)
    (hutf8 : Utf8 statement) : Utf8 masked := by
  by_cases hblank : statement.all isSpaceChar = true
  · rw [mask, maskForSystem, if_pos hblank] at h
    exact absurd h (by simp)
  · obtain rfl := Option.some.inj ((maskForSystem_eq hblank none).symm.trans h)
    exact cutStatement_utf8 (maskPiece_keepsCharacters.pass hutf8)

/-- A statement that is not blank is masked, whatever is in it and whatever database it is for. -/
theorem maskForSystem_text (statement : Bytes) (dbSystem : Option Bytes)
    (h : ¬ statement.all isSpaceChar = true) :
    ∃ masked, maskForSystem (some statement) dbSystem = some masked ∧
      MaskOf dbSystem statement masked := by
  have hmask := maskForSystem_eq h dbSystem
  have hcut := cutStatement_cutTo (pass (maskPiece (doubleQuotedStrings dbSystem)) statement)
  have hbyte : ∀ b ∈ pass (maskPiece (doubleQuotedStrings dbSystem)) statement,
      b ≠ 39 ∧ (doubleQuotedStrings dbSystem = true → b ≠ 34) := by
    intro b hb
    rw [← map_text_pieces] at hb
    obtain ⟨p, hp, rfl⟩ := List.mem_map.mp hb
    exact text_ne_quote hp
  refine ⟨_, hmask, ⟨_, pass_replaced (fun _ _ _ => maskPiece_replaces) statement, hcut⟩,
    hcut.length_le, ?_, ?_, ?_⟩
  · exact hcut.not_mem (fun hmem => (hbyte 39 hmem).1 rfl) (by decide)
  · intro system hsystem hname
    obtain rfl := Option.mem_def.mp hsystem
    have hdouble : doubleQuotedStrings (some system) = true := by
      rcases hname with hname | hname
      · simp [doubleQuotedStrings, equalsIgnoringCase, hname,
          show (ascii "mysql").map Byte.toLower = ascii "mysql" from rfl]
      · simp [doubleQuotedStrings, equalsIgnoringCase, hname,
          show (ascii "mariadb").map Byte.toLower = ascii "mariadb" from rfl]
    exact hcut.not_mem (fun hmem => (hbyte 34 hmem).2 hdouble rfl) (by decide)
  · exact fun hutf8 => cutStatement_utf8 (maskPiece_keepsCharacters.pass hutf8)

theorem maskForSystem_text_mysql : ∃ masked,
    maskForSystem (some (ascii "SELECT \"Jane\" WHERE name = 'Joe"))
      (some (ascii "MySQL")) = some masked ∧
      MaskOf (some (ascii "MySQL")) (ascii "SELECT \"Jane\" WHERE name = 'Joe") masked := by
  have hblank : ¬ (ascii "SELECT \"Jane\" WHERE name = 'Joe").all isSpaceChar = true := by decide
  exact maskForSystem_text _ _ hblank

end ForgeOps.SqlStatement
