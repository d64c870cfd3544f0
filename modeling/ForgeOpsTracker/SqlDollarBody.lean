import ForgeOpsTracker.SqlMaskText

/-! What the masking of a statement says about a dollar-quoted body: nothing, unless its tag has a
digit. PostgreSQL takes digits in a tag; the loop that looks for the end of one stops at them, so
the dollar sign is copied and the body is read as code. -/

namespace ForgeOps.SqlStatement

/-- A tag PostgreSQL accepts between the two dollar signs. -/
structure IsTag (tag : Bytes) : Prop where
  first : ∀ c ∈ tag.head?, isDigitChar c = false
  word : ∀ c ∈ tag, isWord c = true

def delimiter (tag : Bytes) : Bytes := 36 :: (tag ++ [36])

/-- The body does not hold its own delimiter, also not with the beginning of the closing one. -/
def Closes (tag body : Bytes) : Prop :=
  ∀ u v, body ++ delimiter tag = u ++ delimiter tag ++ v → v = []

def dollarQuoted (tag body : Bytes) : Bytes := delimiter tag ++ body ++ delimiter tag

/-- The text in front of a dollar-quoted body. -/
structure IsPrefix ( before : Bytes) : Prop where
  no_quote : 39 ∉ before
  no_dollar : 36 ∉ before
  ends : before = [] ∨ before.getLast? = some 32

/-! ## The text in front -/

theorem nextPiece_code {prev : Option UInt8} {c : UInt8} {rest : Bytes} (hquote : 39 ∉ c :: rest)
    (hdollar : c ≠ 36) (u : Bytes) : nextPiece false prev c (rest ++ 32 :: u) =
      nextPiece false prev c rest := by
  have hnumber : numberEnd (c :: (rest ++ 32 :: u)) = numberEnd (c :: rest) :=
    @numberEnd_append (32 :: u) rfl (c :: rest)
  have hstring : stringQuote prev c (rest ++ 32 :: u) = none := by
    rw [List.mem_cons, not_or] at hquote
    have hc : c ≠ 39 := fun h => hquote.1 h.symm
    rcases rest with _ | ⟨d, _ | ⟨e, rest⟩⟩
    · simp [stringQuote, hc]
    · have hd : d ≠ 39 := fun h => hquote.2 (by rw [h]; exact List.mem_cons_self)
      simp [stringQuote, hc, hd]
    · have hd : d ≠ 39 := fun h => hquote.2 (by rw [h]; exact List.mem_cons_self)
      have he : e ≠ 39 := fun h => hquote.2
        (by rw [h]; exact List.mem_cons_of_mem _ List.mem_cons_self)
      simp [stringQuote, hc, hd, he]
  unfold nextPiece
  rw [hstring, stringQuote_of_not_mem hquote, hnumber]
  simp [hdollar]

theorem scan_code {p : Bytes} (hquote : 39 ∉ p) (hdollar : 36 ∉ p) {k : Nat} (hk : k ≤ p.length)
    (prev : Option UInt8) (u : Bytes) : scan (nextPiece false) k prev (p ++ 32 :: u) =
      scan (nextPiece false) k prev p ++ scan (nextPiece false) 0 (lastOr prev p) (32 :: u) := by
  induction p generalizing k prev with
  | nil =>
    obtain rfl := Nat.le_zero.mp hk
    rfl
  | cons c rest ih =>
    have hrest : 39 ∉ rest := fun h => hquote (List.mem_cons_of_mem c h)
    have hrest' : 36 ∉ rest := fun h => hdollar (List.mem_cons_of_mem c h)
    rw [lastOr_cons]
    cases k with
    | succ k => exact ih hrest hrest' (Nat.le_of_succ_le_succ hk) (some c)
    | zero =>
      have hc : c ≠ 36 := fun h => hdollar (h ▸ List.mem_cons_self)
      rw [List.cons_append, scan, nextPiece_code hquote hc,
        ih hrest hrest' (nextPiece_le false prev c rest), scan]
      rfl

theorem nextPiece_space (prev : Option UInt8) (rest : Bytes) :
    nextPiece false prev 32 rest = (.byte 32, 0) :=
  nextPiece_plain (stringQuote_eq_none (by decide) (by decide) (by decide)) (by decide) (by decide)

theorem IsPrefix.scan {p : Bytes} (h : IsPrefix p) (u : Bytes) :
    ForgeOps.scan (nextPiece false) 0 none (p ++ u) =
      pieces false p ++ ForgeOps.scan (nextPiece false) 0 (lastOr none p) u := by
  rcases h.ends with rfl | hlast
  · rfl
  · obtain ⟨p', rfl⟩ := List.getLast?_eq_some_iff.mp hlast
    have hquote : 39 ∉ p' := fun hmem => h.no_quote (List.mem_append_left _ hmem)
    have hdollar : 36 ∉ p' := fun hmem => h.no_dollar (List.mem_append_left _ hmem)
    have hscan := fun u => scan_code hquote hdollar (Nat.zero_le _) none u
    rw [List.append_assoc, List.singleton_append, hscan, pieces, hscan, lastOr_append,
      ForgeOps.scan, ForgeOps.scan, nextPiece_space, nextPiece_space, List.append_assoc]
    rfl

/-! ## The tag -/

/-- Behind a word or a dollar sign a word is copied. -/
theorem scan_word {w : Bytes} (hw : ∀ c ∈ w, isWord c = true) {prev : Option UInt8}
    (hprev : afterWord prev = true) (u : Bytes) : scan (nextPiece false) 0 prev (w ++ u) =
      w.map .byte ++ scan (nextPiece false) 0 (lastOr prev w) u := by
  induction w generalizing prev with
  | nil => rfl
  | cons c w ih =>
    obtain ⟨hc, hrest⟩ := List.forall_mem_cons.mp hw
    have hne : ∀ d, isWord d = false → c ≠ d := fun d hd heq =>
      Bool.false_ne_true (hd.symm.trans (heq ▸ hc))
    have hpart : partOfSomething prev = true := by
      cases prev with
      | none => exact absurd hprev (by decide)
      | some b =>
        have hb : (isWord b || b == 36) = true := hprev
        simp only [partOfSomething, Option.map_some, Option.getD_some, hb, Bool.true_or]
    have hnext : nextPiece false prev c (w ++ u) = (.byte c, 0) := by
      refine nextPiece_copies.mpr ⟨?_, by
        simp, fun h => absurd h (hne 36 rfl), fun h => absurd (h.symm.trans hpart) (by simp)⟩
      simp [stringQuote, hne 39 rfl, hprev]
    rw [List.cons_append, scan, hnext, ih hrest (by simp [afterWord, hc]), lastOr_cons]
    rfl

theorem isTagChar_of_word {c : UInt8} (hword : isWord c = true) (hdigit : isDigitChar c = false) :
    isTagChar c = true := by
  simp only [isWord, Byte.isWord, Byte.isAlnum, Bool.or_eq_true, beq_iff_eq] at hword
  simp only [isTagChar, isAlphaChar, Bool.or_eq_true, beq_iff_eq]
  rcases hword with (halpha | hd) | hunder
  · exact .inr halpha
  · exact absurd (hdigit.symm.trans hd) (by simp)
  · exact .inl hunder

theorem dollarTag_of_letters {tag : Bytes} (h : ∀ c ∈ tag, isTagChar c = true) (u : Bytes) :
    dollarTag (tag ++ 36 :: u) = some (delimiter tag, u) := by
  have hrun : (tag ++ 36 :: u).takeWhile isTagChar = tag := by
    rw [List.takeWhile_append_of_pos h, List.takeWhile_cons_of_neg (by decide), List.append_nil]
  simp only [dollarTag, hrun, List.drop_left, if_true, delimiter]

/-- A tag with a digit does not open a body. -/
theorem dollarLength_of_digit {tag : Bytes} (hword : ∀ c ∈ tag, isWord c = true) {d : UInt8}
    (hmem : d ∈ tag) (hdigit : isDigitChar d = true) (u : Bytes) :
    dollarLength (tag ++ u) = none := by
  rw [dollarLength_eq_none]
  induction tag with
  | nil => exact absurd hmem List.not_mem_nil
  | cons c tag ih =>
    obtain ⟨hc, hrest⟩ := List.forall_mem_cons.mp hword
    rw [opensBody, List.cons_append]
    by_cases htag : isTagChar c = true
    · rw [List.dropWhile_cons_of_pos htag]
      refine ih hrest ((List.mem_cons.mp hmem).resolve_left ?_)
      rintro rfl
      exact not_digit_of_tagChar htag hdigit
    · rw [List.dropWhile_cons_of_neg htag, List.head?_cons, Option.some.injEq]
      rintro rfl
      exact absurd hc (by decide)

/-! ## The body -/

theorem closingLength_closes {tag body : Bytes} (h : Closes tag body) (q : Bytes) :
    closingLength (delimiter tag) (body ++ delimiter tag ++ q) =
      body.length + (delimiter tag).length := by
  induction body with
  | nil =>
    have hopen : delimiter tag ++ q = 36 :: (tag ++ [36] ++ q) := rfl
    rw [List.nil_append, hopen, closingLength, ← hopen, if_pos (List.prefix_append _ _),
      List.length_nil, Nat.zero_add]
  | cons c body ih =>
    have hrest : Closes tag body := fun u v heq => h (c :: u) v (by rw [List.cons_append, heq]; rfl)
    have hnot : ¬ delimiter tag <+: c :: (body ++ delimiter tag ++ q) := by
      intro hpre
      have hwhole : c :: (body ++ delimiter tag ++ q) = (c :: body ++ delimiter tag) ++ q := rfl
      rw [hwhole] at hpre
      have hfits : (delimiter tag).length ≤ (c :: body ++ delimiter tag).length := by
        rw [List.length_append]
        exact Nat.le_add_left _ _
      obtain ⟨v, hv⟩ := List.prefix_of_prefix_length_le hpre (List.prefix_append _ q) hfits
      obtain rfl := h [] v hv.symm
      have hlength := congrArg List.length hv
      simp only [List.length_append, List.length_cons, List.length_nil] at hlength
      omega
    rw [List.cons_append, List.cons_append, closingLength, if_neg hnot, ih hrest, List.length_cons]
    omega

section
variable {p tag : Bytes} (hp : IsPrefix p) (q : Bytes)
include hp

/-- A body whose tag has no digit is one piece. -/
theorem pieces_letters (htag : ∀ c ∈ tag, isTagChar c = true) {body : Bytes} (h : Closes tag body) :
    pieces false (p ++ dollarQuoted tag body ++ q) =
      pieces false p ++ .dollar :: scan (nextPiece false) 0 (some 36) q := by
  have hlength : dollarLength (tag ++ 36 :: (body ++ delimiter tag ++ q)) =
      some (tag ++ 36 :: (body ++ delimiter tag)).length := by
    rw [dollarLength, dollarTag_of_letters htag, Option.map_some, closingLength_closes h]
    simp only [delimiter, List.length_append, List.length_cons, List.length_nil, Option.some.injEq]
    omega
  have htext : p ++ dollarQuoted tag body ++ q =
      p ++ 36 :: (tag ++ 36 :: (body ++ delimiter tag ++ q)) := by
    simp [dollarQuoted, delimiter]
  have hskip := @scan_skip _ (nextPiece false) (some 36) (tag ++ 36 :: (body ++ delimiter tag)) q
  have hlast : lastOr (some 36) (tag ++ 36 :: (body ++ delimiter tag)) = some 36 := by
    have hends : tag ++ 36 :: (body ++ delimiter tag) = tag ++ 36 :: (body ++ 36 :: tag) ++
        [36] := by simp [delimiter]
    rw [hends, lastOr_append]
    rfl
  have hassoc : tag ++ 36 :: (body ++ delimiter tag) ++ q =
      tag ++ 36 :: (body ++ delimiter tag ++ q) := by simp
  rw [hlast, hassoc] at hskip
  rw [pieces, htext, hp.scan, scan, nextPiece_dollar hlength, hskip]

/-- The dollar sign, the tag with a digit and what follows them. -/
theorem pieces_digit (hword : ∀ c ∈ tag, isWord c = true) {d : UInt8} (hmem : d ∈ tag)
    (hdigit : isDigitChar d = true) (body : Bytes) :
    (pieces false (p ++ dollarQuoted tag body ++ q)).map Piece.text =
      (pieces false p).map Piece.text ++ 36 :: tag ++
        (scan (nextPiece false) 0 (lastOr (some 36) tag) (36 :: (body ++ delimiter tag ++ q))).map
          Piece.text := by
  have htext : p ++ dollarQuoted tag body ++ q =
      p ++ 36 :: (tag ++ 36 :: (body ++ delimiter tag ++ q)) := by
    simp [dollarQuoted, delimiter]
  have hcopy : nextPiece false (lastOr none p) 36 (tag ++ 36 :: (body ++ delimiter tag ++ q)) =
      (.byte 36, 0) := by
    refine nextPiece_copies.mpr ⟨stringQuote_eq_none (by decide) (by decide) (by decide), by simp,
      fun _ => dollarLength_of_digit hword hmem hdigit _, fun _ => ?_⟩
    by_contra hnumber
    exact absurd (numberEnd_head (Option.isSome_iff_ne_none.mpr hnumber)) (by decide)
  rw [pieces, htext, hp.scan, scan, hcopy, scan_word hword rfl]
  simp only [List.map_append, List.map_cons, map_text_byte, Piece.text, List.append_assoc,
    List.cons_append]

end

/-! ## The cut -/

theorem cutStatement_long {w : Bytes} (h : maxSqlLength ≤ w.length) {x : UInt8}
    (hx : Byte.isContinuation x = false) (y : Bytes) :
    cutStatement (w ++ x :: y) = cutStatement (w ++ [63]) := by
  rcases Nat.lt_or_eq_of_le h with hlt | heq
  · rw [cutStatement_append hlt, cutStatement_append hlt]
  · have hcut : ∀ {b : UInt8} {z : Bytes}, Byte.isContinuation b = false →
        cutStatement (w ++ b :: z) = w ++ ascii "..." := by
      intro b z hb
      have hlong : maxSqlLength < (w ++ b :: z).length := by
        rw [List.length_append, List.length_cons]
        omega
      have hget : (w ++ b :: z)[maxSqlLength]? = some b := by
        rw [List.getElem?_append_right heq.ge, heq, Nat.sub_self]
        rfl
      rw [cutStatement, if_pos hlong, cutBack_self (by rw [hget]; exact hb), heq, List.take_left]
    rw [hcut hx, hcut rfl]

/-- Of a byte that starts a character the cut leaves the byte, or a dot in its place. -/
theorem getElem?_cutStatement {w : Bytes} (h : w.length ≤ maxSqlLength) {x : UInt8}
    (hx : Byte.isContinuation x = false) (y : Bytes) :
    (cutStatement (w ++ x :: y))[w.length]? = some x ∨
      cutBack (w ++ x :: y) maxSqlLength = w.length ∧
      (cutStatement (w ++ x :: y))[w.length]? = some 46 := by
  have hget : (w ++ x :: y)[w.length]? = some x := by
    rw [List.getElem?_append_right (Nat.le_refl _), Nat.sub_self]
    rfl
  unfold cutStatement
  split
  · rename_i hlong
    have hcut : w.length ≤ cutBack (w ++ x :: y) maxSqlLength :=
      le_cutBack h (by rw [hget]; exact hx)
    have hfits : cutBack (w ++ x :: y) maxSqlLength ≤ (w ++ x :: y).length :=
      Nat.le_trans (cutBack_le _ _) (Nat.le_of_lt hlong)
    have hlength : ((w ++ x :: y).take (cutBack (w ++ x :: y) maxSqlLength)).length = _ :=
      List.length_take_of_le hfits
    rcases Nat.lt_or_eq_of_le hcut with hlt | heq
    · left
      rw [List.getElem?_append_left (by omega), List.getElem?_take, if_pos hlt, hget]
    · refine .inr ⟨heq.symm, ?_⟩
      rw [List.getElem?_append_right (by omega), hlength, ← heq, Nat.sub_self]
      rfl
  · exact .inl hget

/-- Behind a copied dollar sign nothing is cut that an ASCII byte follows. -/
theorem cutStatement_ne {w : Bytes} (h : w.length < maxSqlLength) (y z : Bytes) :
    cutStatement (w ++ 36 :: 32 :: y) ≠ cutStatement (w ++ 63 :: z) := by
  have hdollar : (cutStatement (w ++ 36 :: 32 :: y))[w.length]? = some 36 := by
    rcases getElem?_cutStatement h.le (x := 36) rfl (32 :: y) with hget | ⟨hcut, -⟩
    · exact hget
    · have hspace : (w ++ 36 :: 32 :: y)[w.length + 1]? = some 32 := by
        rw [List.getElem?_append_right (Nat.le_succ _), show w.length + 1 - w.length =
          1 from Nat.add_sub_cancel_left w.length 1]
        rfl
      have hle := @le_cutBack (w ++ 36 :: 32 :: y) (w.length + 1) maxSqlLength h
        (by rw [hspace]; rfl)
      omega
  intro heq
  rw [heq] at hdollar
  rcases getElem?_cutStatement h.le (x := 63) rfl z with hget | ⟨-, hget⟩
  · exact absurd (hget.symm.trans hdollar) (by decide)
  · exact absurd (hget.symm.trans hdollar) (by decide)

/-! ## Two bodies -/

theorem closes_nil (tag : Bytes) : Closes tag [] := by
  intro u v heq
  have hlength := congrArg List.length heq
  simp only [List.length_append, List.length_nil] at hlength
  exact List.eq_nil_of_length_eq_zero (by omega)

theorem closes_space (tag : Bytes) : Closes tag [32] := by
  intro u v heq
  cases u with
  | nil => exact absurd (List.cons.inj heq).1 (by decide)
  | cons b u => exact closes_nil tag u v (List.cons.inj heq).2

theorem closes_of_no_delimiter {tag body : Bytes}
    (h : ¬ delimiter tag <:+: body ++ (delimiter tag).dropLast) : Closes tag body := by
  intro u v heq
  by_contra hv
  have hne : delimiter tag ≠ [] := List.cons_ne_nil _ _
  have hlast := congrArg List.dropLast heq
  rw [List.dropLast_append_of_ne_nil hne, List.dropLast_append_of_ne_nil hv] at hlast
  exact h ⟨u, v.dropLast, hlast.symm⟩

/-- The two dollar signs around an empty body are a tag of their own. -/
theorem nextPiece_empty_body (prev : Option UInt8) (rest : Bytes) :
    (nextPiece false prev 36 (36 :: rest)).1.text = 63 := by
  have hlength : dollarLength (36 :: rest) = some (2 - 1 + closingLength (delimiter []) rest) := by
    rw [dollarLength, show dollarTag (36 :: rest) =
      some (delimiter [], rest) from @dollarTag_of_letters [] (by simp) rest]
    rfl
  rw [nextPiece_dollar hlength]
  rfl

theorem nextPiece_space_body (prev : Option UInt8) (rest : Bytes) :
    nextPiece false prev 36 (32 :: rest) = (.byte 36, 0) := by
  refine nextPiece_copies.mpr ⟨stringQuote_eq_none (by decide) (by decide) (by decide), by
    simp, fun _ => ?_, fun _ => ?_⟩
  · rw [dollarLength_eq_none, opensBody, List.dropWhile_cons_of_neg (by decide)]
    simp
  · by_contra hnumber
    exact absurd (numberEnd_head (Option.isSome_iff_ne_none.mpr hnumber)) (by decide)

/-- The masked statement does not depend on the body of a dollar-quoted text if and only if the tag
has no digit, or the text in front of the body takes up all that is sent. -/
theorem mask_body_iff {p tag : Bytes} (hp : IsPrefix p) (htag : IsTag tag) (q : Bytes) :
    (∀ body other, Closes tag body → Closes tag other →
      mask (some (p ++ dollarQuoted tag body ++ q)) =
        mask (some (p ++ dollarQuoted tag other ++ q))) ↔
    (∀ c ∈ tag, isDigitChar c = false) ∨
      maxSqlLength ≤ (pieces false p).length + 1 + tag.length := by
  have hmask : ∀ body, mask (some (p ++ dollarQuoted tag body ++ q)) =
      some (cutStatement ((pieces false (p ++ dollarQuoted tag body ++ q)).map Piece.text)) := by
    intro body
    have hblank : ¬ (p ++ dollarQuoted tag body ++ q).all isSpaceChar = true := by
      intro hblank
      exact absurd (List.all_eq_true.mp hblank 36 (by simp [dollarQuoted, delimiter])) (by decide)
    rw [mask, maskForSystem, if_neg hblank]
    rfl
  simp only [hmask, Option.some.injEq]
  by_cases hdigits : ∀ c ∈ tag, isDigitChar c = false
  · have hletters : ∀ c ∈ tag, isTagChar c = true := fun c hc =>
      isTagChar_of_word (htag.word c hc) (hdigits c hc)
    refine iff_of_true (fun body other hbody hother => ?_) (.inl hdigits)
    rw [pieces_letters hp q hletters hbody, pieces_letters hp q hletters hother]
  · obtain ⟨d, hmem, hdigit⟩ : ∃ d, d ∈ tag ∧ isDigitChar d = true := by
      simpa only [not_forall, exists_prop, Bool.not_eq_false] using hdigits
    have hlength : ((pieces false p).map Piece.text ++ 36 :: tag).length =
        (pieces false p).length + 1 + tag.length := by
      simp only [List.length_append, List.length_map, List.length_cons]
      omega
    simp only [pieces_digit hp q htag.word hmem hdigit, hdigits, false_or, ← hlength,
      scan, List.map_cons]
    generalize (pieces false p).map Piece.text ++ 36 :: tag = w
    constructor
    · intro hsame
      by_contra hshort
      have heq := hsame [32] [] (closes_space tag) (closes_nil tag)
      have hspace : [32] ++ delimiter tag ++ q = 32 :: (delimiter tag ++ q) := rfl
      have hempty : [] ++ delimiter tag ++ q = 36 :: (tag ++ [36] ++ q) := rfl
      rw [hspace, hempty, nextPiece_empty_body, nextPiece_space_body, scan, nextPiece_space] at heq
      exact cutStatement_ne (Nat.lt_of_not_le hshort) _ _ heq
    · intro hlong body other _ _
      have htext : ∀ rest, Byte.isContinuation
          (nextPiece false (lastOr (some 36) tag) 36 rest).1.text = false := by
        intro rest
        rcases @text_nextPiece_cases false (lastOr (some 36) tag) 36 rest with h | h
        · rw [h]
          rfl
        · rw [h]
          rfl
      rw [cutStatement_long hlong (htext _), cutStatement_long hlong (htext _)]

theorem mask_body_iff_function :
    mask (some (ascii "DO " ++ dollarQuoted (ascii "f_n") (ascii " SELECT 'Jane', $1 ") ++
      ascii " LANGUAGE sql")) =
      mask (some (ascii "DO " ++ dollarQuoted (ascii "f_n") (ascii " SELECT 'Joe', $2 ") ++
      ascii " LANGUAGE sql")) := by
  have hp : IsPrefix (ascii "DO ") := ⟨by decide, by decide, .inr rfl⟩
  have hword : (ascii "f_n").all isWord = true := by decide
  have hdigit : (ascii "f_n").all (fun c => !isDigitChar c) = true := by decide
  have htag : IsTag (ascii "f_n") := ⟨by rintro _ ⟨⟩; rfl, List.all_eq_true.mp hword⟩
  have hnoDigit : ∀ c ∈ ascii "f_n", isDigitChar c = false := fun c hc => by
    simpa using List.all_eq_true.mp hdigit c hc
  exact (mask_body_iff hp htag (ascii " LANGUAGE sql")).mpr (.inl hnoDigit) _ _
    (closes_of_no_delimiter (by decide)) (closes_of_no_delimiter (by decide))

/-- What a body with the tag `a1` says is sent. -/
theorem digit_tag_shows_body :
    IsPrefix (ascii "DO ") ∧ IsTag (ascii "a1") ∧ Closes (ascii "a1") (ascii " Jane ") ∧
    Closes (ascii "a1") (ascii " Joe ") ∧
      mask (some (ascii "DO " ++ dollarQuoted (ascii "a1") (ascii " Jane ") ++ [])) ≠
        mask (some (ascii "DO " ++ dollarQuoted (ascii "a1") (ascii " Joe ") ++ [])) ∧
      mask (some (ascii "DO " ++ dollarQuoted (ascii "a1") (ascii " Jane ") ++ [])) =
        some (ascii "DO $a1$ Jane $a1$") :=
  have hword : (ascii "a1").all isWord = true := by decide
  ⟨⟨by decide, by decide, .inr rfl⟩, ⟨by rintro _ ⟨⟩; rfl, List.all_eq_true.mp hword⟩,
    closes_of_no_delimiter (by decide), closes_of_no_delimiter (by decide), by decide, by decide⟩

end ForgeOps.SqlStatement
