import ForgeOpsTracker.SqlNumber

/-! What the masking of a statement says about the content of one of its string
literals: nothing, unless the scanner takes the quote that opens the literal for
something else. Comments are read like any other text, so an apostrophe in one opens
a string of the scanner's own. -/

namespace ForgeOps.SqlStatement

/-! ## Where a text leaves the scanner -/

inductive Standing
  | code
  /-- Inside a string, its last byte a backslash that escapes the next one or not. -/
  | string (escaped : Bool)
  | dollar (tag : Bytes)
  deriving DecidableEq, Repr

/-- Whether a string whose content starts with `s` is still open at the end of it, and then
whether a backslash is the last thing read. -/
def openString : Bytes → Option Bool
  | [] => some false
  | [c] => if c = 92 then some true else if c = 39 then none else some false
  | c :: d :: s =>
    if c = 92 then openString s
    else if c = 39 then
      if d = 39 then openString s else none
    else openString (d :: s)

/-- What the token at `c` leaves open at the end of the text, if anything. -/
def openToken (prev : Option UInt8) (c : UInt8) (rest : Bytes) : Option Standing :=
  match stringQuote prev c rest with
  | some quote => (openString (rest.drop quote)).map .string
  | none =>
    if c = 36 then
      match dollarTag rest with
      | some (tag, body) => if tag <:+: body then none else some (.dollar tag)
      | none => none
    else none

/-- The walk of the masking loop over a text, as far as what it leaves open. -/
def standingFrom : Nat → Option UInt8 → Bytes → Standing
  | _, _, [] => .code
  | k + 1, _, c :: rest => standingFrom k (some c) rest
  | 0, prev, c :: rest =>
    match openToken prev c rest with
    | some standing => standing
    | none => standingFrom (nextPiece false prev c rest).2 (some c) rest

def standing (s : Bytes) : Standing := standingFrom 0 none s

/-- How much of a text that starts with a quote the token it finds takes. -/
def resume : Standing → Bytes → Nat
  | .code, t | .string true, t => 1 + quotedLength 39 t.tail
  | .string false, t => quotedLength 39 t
  | .dollar tag, t => closingLength tag t

/-! ## Tokens that close, and tokens that do not -/

theorem quotedLength_le (quote : UInt8) (s : Bytes) : quotedLength quote s ≤ s.length := by
  fun_induction quotedLength quote s with
  | case1 => exact Nat.le_refl _
  | case2 => exact Nat.le_refl _
  | case3 d s ih =>
    simp only [List.length_cons]
    omega
  | case4 s hback ih =>
    simp only [List.length_cons]
    omega
  | case5 d s hback hquote =>
    simp only [List.length_cons]
    omega
  | case6 c d s hback hquote ih =>
    simp only [List.length_cons] at ih ⊢
    omega

theorem closingLength_le (tag s : Bytes) : closingLength tag s ≤ s.length := by
  induction s with
  | nil => exact Nat.le_refl _
  | cons c s ih =>
    rw [closingLength]
    split
    · rename_i htag
      exact htag.length_le
    · rw [List.length_cons]
      omega

section
variable (u : Bytes)

theorem quotedLength_open {b : Bytes} {escaped : Bool} (h : openString b = some escaped) :
    quotedLength 39 (b ++ 39 :: u) = b.length + resume (.string escaped) (39 :: u) := by
  fun_induction openString b with
  | case1 =>
    obtain rfl := Option.some.inj h
    exact (Nat.zero_add _).symm
  | case2 =>
    obtain rfl := Option.some.inj h
    show 2 + quotedLength 39 u = 1 + (1 + quotedLength 39 u)
    omega
  | case3 => exact absurd h (by simp)
  | case4 c hback hquote =>
    obtain rfl := Option.some.inj h
    show quotedLength 39 (c :: 39 :: u) = 1 + quotedLength 39 (39 :: u)
    rw [quotedLength, if_neg hback, if_neg hquote]
  | case5 d s ih =>
    show quotedLength 39 (92 :: d :: (s ++ 39 :: u)) = (s.length + 1 + 1) + _
    rw [quotedLength, if_pos rfl, ih h]
    omega
  | case6 s hback ih =>
    show quotedLength 39 (39 :: 39 :: (s ++ 39 :: u)) = (s.length + 1 + 1) + _
    rw [quotedLength, if_neg hback, if_pos rfl, if_pos rfl, ih h]
    omega
  | case7 => exact absurd h (by simp)
  | case8 c d s hback hquote ih =>
    show quotedLength 39 (c :: d :: (s ++ 39 :: u)) = ((d :: s).length + 1) + _
    rw [quotedLength, if_neg hback, if_neg hquote, ← List.cons_append, ih h]
    omega

theorem getLast?_tail {c : UInt8} {s : Bytes} (h : (c :: s).getLast? ≠ some 39) :
    s.getLast? ≠ some 39 := by
  intro hs
  apply h
  rw [List.getLast?_cons, hs]
  rfl

theorem quotedLength_closed {b : Bytes} (h : openString b = none) (hlast : b.getLast? ≠ some 39) :
    quotedLength 39 (b ++ 39 :: u) = quotedLength 39 b := by
  fun_induction openString b with
  | case1 => exact absurd h (by simp)
  | case2 => exact absurd h (by simp)
  | case3 => exact absurd rfl hlast
  | case4 => exact absurd h (by simp)
  | case5 d s ih =>
    show quotedLength 39 (92 :: d :: (s ++ 39 :: u)) = _
    rw [quotedLength, quotedLength, if_pos rfl, if_pos rfl,
      ih h (getLast?_tail (getLast?_tail hlast))]
  | case6 s hback ih =>
    show quotedLength 39 (39 :: 39 :: (s ++ 39 :: u)) = _
    rw [quotedLength, quotedLength]
    simp only [hback, if_true, if_false, ih h (getLast?_tail (getLast?_tail hlast))]
  | case7 d s hback hquote =>
    show quotedLength 39 (39 :: d :: (s ++ 39 :: u)) = _
    rw [quotedLength, quotedLength]
    simp only [hback, hquote, if_true, if_false]
  | case8 c d s hback hquote ih =>
    show quotedLength 39 (c :: d :: (s ++ 39 :: u)) = _
    have hrest := ih h (getLast?_tail hlast)
    rw [List.cons_append] at hrest
    rw [quotedLength, quotedLength]
    simp only [hback, hquote, if_false, hrest]

/-- An open string takes the whole of the text it is read in alone. -/
theorem quotedLength_eq_length {b : Bytes} {escaped : Bool} (h : openString b = some escaped) :
    quotedLength 39 b = b.length := by
  fun_induction openString b with
  | case1 => rfl
  | case2 => rfl
  | case3 => rfl
  | case4 => rfl
  | case5 d s ih =>
    rw [quotedLength, if_pos rfl, ih h, List.length_cons, List.length_cons]
    omega
  | case6 s hback ih =>
    rw [quotedLength, if_neg hback, if_pos rfl, if_pos rfl, ih h, List.length_cons,
      List.length_cons]
    omega
  | case7 => exact absurd h (by simp)
  | case8 c d s hback hquote ih =>
    rw [quotedLength, if_neg hback, if_neg hquote, ih h]
    exact Nat.add_comm 1 _

section
variable {tag : Bytes} (hne : tag ≠ []) (htag : 39 ∉ tag)
include hne htag

omit hne in
theorem closingLength_open {body : Bytes} (h : ¬ tag <:+: body) :
    closingLength tag (body ++ 39 :: u) = body.length + closingLength tag (39 :: u) := by
  induction body with
  | nil => exact (Nat.zero_add _).symm
  | cons c body ih =>
    rw [List.infix_cons_iff, not_or] at h
    have hpre : ¬ tag <+: c :: (body ++ 39 :: u) := fun hp =>
      h.1 ((prefix_append_cons_iff (s := c :: body) htag).mp hp)
    rw [List.cons_append, closingLength, if_neg hpre, ih h.2, List.length_cons]
    omega

theorem closingLength_closed {body : Bytes} (h : tag <:+: body) :
    closingLength tag (body ++ 39 :: u) = closingLength tag body := by
  induction body with
  | nil => exact absurd (List.infix_nil.mp h) hne
  | cons c body ih =>
    have hiff : tag <+: c :: (body ++ 39 :: u) ↔ tag <+: c :: body :=
      prefix_append_cons_iff (s := c :: body) htag
    rw [List.cons_append, closingLength, closingLength]
    by_cases hpre : tag <+: c :: body
    · rw [if_pos hpre, if_pos (hiff.mpr hpre)]
    · rw [if_neg hpre, if_neg fun hp => hpre (hiff.mp hp),
        ih ((List.infix_cons_iff.mp h).resolve_left hpre)]

end

theorem closingLength_eq_length {tag body : Bytes} (h : ¬ tag <:+: body) :
    closingLength tag body = body.length := by
  induction body with
  | nil => rfl
  | cons c body ih =>
    rw [List.infix_cons_iff, not_or] at h
    rw [closingLength, if_neg h.1, ih h.2, List.length_cons]
    omega

/-! ## A token read alone and with a literal behind it -/

theorem inert_quote : inert (39 :: u) = true := rfl

theorem isWord_of_tagChar {c : UInt8} (h : isTagChar c = true) : isWord c = true := by
  simp only [isTagChar, isAlphaChar, Bool.or_eq_true, beq_iff_eq] at h
  simp only [isWord, Byte.isWord, Byte.isAlnum, Bool.or_eq_true, beq_iff_eq]
  rcases h with h | h
  · exact .inr h
  · exact .inl (.inl h)

theorem dollarTag_append (rest : Bytes) :
    dollarTag (rest ++ 39 :: u) = (dollarTag rest).map fun t => (t.1, t.2 ++ 39 :: u) := by
  have hrun := takeWhile_append_inert (inert_quote u) (fun _ hc => isWord_of_tagChar hc) rest
  have hle : (rest.takeWhile isTagChar).length ≤ rest.length := (List.takeWhile_prefix _).length_le
  simp only [dollarTag, hrun, List.drop_append_of_le_length hle]
  cases rest.drop (rest.takeWhile isTagChar).length with
  | nil => rfl
  | cons c body =>
    simp only [List.cons_append]
    split <;> rfl

theorem dollarTag_eq_some {rest tag body : Bytes} (h : dollarTag rest = some (tag, body)) :
    ∃ name, tag = 36 :: (name ++ [36]) ∧ rest = name ++ 36 :: body ∧
    ∀ d ∈ name, isTagChar d = true := by
  have hsplit : rest = rest.takeWhile isTagChar ++ rest.drop (rest.takeWhile isTagChar).length := by
    rw [drop_length_takeWhile, List.takeWhile_append_dropWhile]
  simp only [dollarTag] at h
  cases hdrop : rest.drop (rest.takeWhile isTagChar).length with
  | nil => simp [hdrop] at h
  | cons c b =>
    simp only [hdrop] at h
    split at h
    · rename_i hc
      obtain ⟨rfl, rfl⟩ := Prod.mk.inj (Option.some.inj h)
      rw [hdrop, hc] at hsplit
      exact ⟨_, rfl, hsplit, fun d hd => List.mem_takeWhile_imp hd⟩
    · exact absurd h (by simp)

/-- A tag has no quote, and something in it. -/
theorem dollarTag_spec {rest tag body : Bytes} (h : dollarTag rest = some (tag, body)) :
    tag ≠ [] ∧ 39 ∉ tag ∧ 92 ∉ tag ∧ rest.length = tag.length - 1 + body.length := by
  obtain ⟨name, rfl, rfl, hname⟩ := dollarTag_eq_some h
  have hnot : ∀ d, isTagChar d = false → d ≠ 36 → d ∉ 36 :: (name ++ [36]) := by
    intro d hd hdollar hmem
    simp only [List.mem_cons, List.mem_append, List.not_mem_nil, or_false] at hmem
    rcases hmem with hmem | hmem | hmem
    · exact hdollar hmem
    · exact Bool.false_ne_true (hd.symm.trans (hname d hmem))
    · exact hdollar hmem
  refine ⟨List.cons_ne_nil _ _, hnot 39 rfl (by decide), hnot 92 rfl (by decide), ?_⟩
  simp only [List.length_cons, List.length_append, List.length_nil]
  omega

theorem stringQuote_le {prev : Option UInt8} {c : UInt8} {rest : Bytes} {quote : Nat}
    (h : stringQuote prev c rest = some quote) : quote ≤ rest.length := by
  unfold stringQuote at h
  split at h
  · obtain rfl := Option.some.inj h
    exact Nat.zero_le _
  split at h
  · exact absurd h (by simp)
  split at h
  · split at h
    · rename_i hquote
      obtain rfl := Option.some.inj h
      exact (List.getElem?_eq_some_iff.mp hquote).1
    · exact absurd h (by simp)
  split at h
  · split at h
    · rename_i hquote
      obtain rfl := Option.some.inj h
      exact (List.getElem?_eq_some_iff.mp hquote).1
    · exact absurd h (by simp)
  · exact absurd h (by simp)

/-- A literal behind a text belongs to a prefix at the text's end, or nothing changes. -/
theorem stringQuote_append (prev : Option UInt8) (c : UInt8) (rest : Bytes) :
    stringQuote prev c (rest ++ 39 :: u) = stringQuote prev c rest ∨
      ((rest = [] ∨ (rest = [38] ∧ (c = 85 ∨ c = 117))) ∧ stringQuote prev c rest = none ∧
        stringQuote prev c (rest ++ 39 :: u) = some (rest.length + 1)) := by
  unfold stringQuote
  by_cases hquote : c = 39
  · simp [hquote]
  by_cases hword : afterWord prev = true
  · simp [hquote, hword]
  generalize (ascii "EeXxNnBb").contains c = letter
  cases letter with
  | true =>
    cases rest with
    | nil => simp [hquote, hword]
    | cons d rest => simp [hquote, hword]
  | false =>
    match rest with
    | [] => simp [hquote, hword]
    | [d] => by_cases hsees : (c = 85 ∨ c = 117) ∧ d = 38 <;> simp [hquote, hword, hsees]
    | d :: e :: rest => simp [hquote, hword]

/-- The quote is all that a prefix in front of it sees of a literal. -/
theorem stringQuote_congr (v : Bytes) (prev : Option UInt8) (c : UInt8) (rest : Bytes) :
    stringQuote prev c (rest ++ 39 :: u) = stringQuote prev c (rest ++ 39 :: v) := by
  unfold stringQuote
  cases rest with
  | nil => simp
  | cons d rest =>
    cases rest with
    | nil => simp
    | cons e rest => simp

/-- A token that is closed in the text is the same with a literal behind the text. -/
theorem nextPiece_append {prev : Option UInt8} {c : UInt8} {rest : Bytes}
    (hopen : openToken prev c rest = none) (hlast : rest.getLast? ≠ some 39)
    (hsame : stringQuote prev c (rest ++ 39 :: u) = stringQuote prev c rest) :
    nextPiece false prev c (rest ++ 39 :: u) = nextPiece false prev c rest := by
  unfold openToken at hopen
  unfold nextPiece
  rw [hsame]
  cases hquote : stringQuote prev c rest with
  | some quote =>
    simp only [hquote, Option.map_eq_none_iff] at hopen
    have hle := stringQuote_le hquote
    have hdrop : (rest.drop quote).getLast? ≠ some 39 := by
      rw [List.getLast?_drop]
      split
      · simp
      · exact hlast
    simp only [List.drop_append_of_le_length hle, quotedLength_closed u hopen hdrop]
  | none =>
    simp only [hquote] at hopen
    have hnumber : numberEnd (c :: (rest ++ 39 :: u)) = numberEnd (c :: rest) :=
      numberEnd_append (inert_quote u) (c :: rest)
    have hdollar : c = 36 → dollarLength (rest ++ 39 :: u) = dollarLength rest := by
      intro hc
      rw [if_pos hc] at hopen
      rw [dollarLength, dollarTag_append, dollarLength]
      cases htag : dollarTag rest with
      | none => rfl
      | some t =>
        obtain ⟨tag, body⟩ := t
        obtain ⟨hne, hno, -, -⟩ := dollarTag_spec htag
        have hin : tag <:+: body := by
          by_contra hout
          simp [htag, hout] at hopen
        simp only [Option.map_some, closingLength_closed u hne hno hin]
    simp only [Bool.false_eq_true, false_and, if_false, hnumber]
    by_cases hc : c = 36
    · rw [if_pos hc, if_pos hc, hdollar hc]
    · rw [if_neg hc, if_neg hc]

end

theorem nextPiece_le (doubleQuoted : Bool) (prev : Option UInt8) (c : UInt8) (rest : Bytes) :
    (nextPiece doubleQuoted prev c rest).2 ≤ rest.length := by
  unfold nextPiece
  split
  · rename_i quote hquote
    have hle := stringQuote_le hquote
    have hlength := quotedLength_le 39 (rest.drop quote)
    rw [List.length_drop] at hlength
    show quote + quotedLength 39 (rest.drop quote) ≤ rest.length
    omega
  split
  · exact quotedLength_le 34 rest
  split
  · split
    · rename_i n hdollar
      obtain ⟨t, htag, rfl⟩ := Option.map_eq_some_iff.mp hdollar
      obtain ⟨-, -, -, hlength⟩ := dollarTag_spec htag
      have hle := closingLength_le t.1 t.2
      show t.1.length - 1 + closingLength t.1 t.2 ≤ rest.length
      omega
    · exact Nat.zero_le _
  split
  · split
    · rename_i n hnumber
      split at hnumber
      · exact absurd hnumber (by simp)
      · have hle := numberEnd_le hnumber
        rw [List.length_cons] at hle
        show n - 1 ≤ rest.length
        omega
    · exact Nat.zero_le _
  · exact Nat.zero_le _

/-! ## A text and a literal behind it -/

/-- No string starts at a byte that is neither a quote nor a letter of a prefix. -/
theorem stringQuote_eq_none {prev : Option UInt8} {c : UInt8} {rest : Bytes} (hquote : c ≠ 39)
    (hletter : (ascii "EeXxNnBb").contains c = false) (hunicode : ¬ (c = 85 ∨ c = 117)) :
    stringQuote prev c rest = none := by
  unfold stringQuote
  rw [if_neg hquote, hletter]
  split
  · rfl
  · rw [if_neg Bool.false_ne_true, if_neg fun h => hunicode h.1]

theorem nextPiece_dollar {prev : Option UInt8} {rest : Bytes} {n : Nat}
    (h : dollarLength rest = some n) : nextPiece false prev 36 rest = (.dollar, n) := by
  have hquote : stringQuote prev 36 rest = none :=
    stringQuote_eq_none (by decide) (by decide) (by decide)
  simp [nextPiece, hquote, h]

theorem resume_pos (st : Standing) (u : Bytes) (h : ∀ tag, st = .dollar tag → tag ≠ [] ∧ 39 ∉ tag) :
    0 < resume st (39 :: u) := by
  match st with
  | .code => exact Nat.add_pos_left (by decide) _
  | .string true => exact Nat.add_pos_left (by decide) _
  | .string false =>
    cases u with
    | nil => exact Nat.one_pos
    | cons d u =>
      show 0 < quotedLength 39 (39 :: d :: u)
      rw [quotedLength, if_neg (by decide), if_pos rfl]
      split <;> omega
  | .dollar tag =>
    obtain ⟨hne, hno⟩ := h tag rfl
    have hpre : ¬ tag <+: 39 :: u := by
      intro hpre
      cases tag with
      | nil => exact hne rfl
      | cons c tag =>
        obtain ⟨rfl, -⟩ := List.cons_prefix_cons.mp hpre
        exact hno List.mem_cons_self
    rw [resume, closingLength, if_neg hpre]
    omega

/-- A token left open takes the rest of its text, and goes on in what follows. -/
theorem nextPiece_open {prev : Option UInt8} {c : UInt8} {rest : Bytes} {st : Standing}
    (h : openToken prev c rest = some st) :
    ∃ T : Piece, T.text = 63 ∧ nextPiece false prev c rest = (T, rest.length) ∧ ∀ u,
      0 < resume st (39 :: u) ∧
        nextPiece false prev c (rest ++ 39 :: u) = (T, rest.length + resume st (39 :: u)) := by
  unfold openToken at h
  cases hquote : stringQuote prev c rest with
  | some quote =>
    simp only [hquote, Option.map_eq_some_iff] at h
    obtain ⟨escaped, hopen, rfl⟩ := h
    have hle := stringQuote_le hquote
    refine ⟨.string, rfl, ?_, fun u => ⟨resume_pos _ u (by simp), ?_⟩⟩
    · simp only [nextPiece, hquote, quotedLength_eq_length hopen, List.length_drop,
        Nat.add_sub_of_le hle]
    · have hsame : stringQuote prev c (rest ++ 39 :: u) = some quote := by
        rcases stringQuote_append u prev c rest with hsame | ⟨-, hnone, -⟩
        · rw [hsame, hquote]
        · rw [hnone] at hquote
          exact absurd hquote (by simp)
      simp only [nextPiece, hsame, List.drop_append_of_le_length hle, quotedLength_open u hopen,
        List.length_drop]
      rw [← Nat.add_assoc, Nat.add_sub_of_le hle]
  | none =>
    simp only [hquote] at h
    split at h
    swap
    · exact absurd h (by simp)
    rename_i hc
    subst hc
    cases htag : dollarTag rest with
    | none => simp [htag] at h
    | some t =>
      obtain ⟨tag, body⟩ := t
      simp only [htag] at h
      split at h
      · exact absurd h (by simp)
      rename_i hout
      obtain rfl := Option.some.inj h
      obtain ⟨hne, hno, -, hlength⟩ := dollarTag_spec htag
      have hpos : ∀ t, Standing.dollar tag = .dollar t → t ≠ [] ∧ 39 ∉ t := by
        intro t ht
        obtain rfl := Standing.dollar.inj ht
        exact ⟨hne, hno⟩
      refine ⟨.dollar, rfl, ?_, fun u => ⟨resume_pos _ u hpos, ?_⟩⟩
      · apply nextPiece_dollar
        rw [dollarLength, htag, hlength, ← closingLength_eq_length hout]
        rfl
      · apply nextPiece_dollar
        rw [dollarLength, dollarTag_append, htag, hlength, Nat.add_assoc, resume,
          ← closingLength_open u hno hout]
        rfl

/-- Where the scan passes over something, the byte before does not matter. -/
theorem scan_prev {k : Nat} (hk : 0 < k) (prev prev' : Option UInt8) (s : Bytes) :
    scan (nextPiece false) k prev s = scan (nextPiece false) k prev' s := by
  obtain ⟨k, rfl⟩ := Nat.exists_eq_add_one_of_ne_zero (Nat.ne_of_gt hk)
  cases s <;> rfl

theorem standing_prefix {prev : Option UInt8} {c : UInt8} {rest : Bytes}
    (h : rest = [] ∨ (rest = [38] ∧ (c = 85 ∨ c = 117))) (hopen : openToken prev c rest = none) :
    standingFrom 0 prev (c :: rest) = .code := by
  rw [standingFrom, hopen]
  show standingFrom (nextPiece false prev c rest).2 (some c) rest = .code
  generalize (nextPiece false prev c rest).2 = k
  rcases h with rfl | ⟨rfl, hc⟩
  · cases k <;> rfl
  · cases k with
    | succ k => cases k <;> rfl
    | zero =>
      have hnone : openToken (some c) 38 [] = none := by rcases hc with rfl | rfl <;> rfl
      rw [standingFrom, hnone]
      show standingFrom (nextPiece false (some c) 38 []).2 (some 38) [] = .code
      cases (nextPiece false (some c) 38 []).2 <;> rfl

/-- Scanning a text with a literal behind it: the pieces of the text, one for the token that
reaches the literal, and what is left of the literal behind that token. -/
theorem scan_standing {p : Bytes} {k : Nat} (prev : Option UInt8) (hk : k ≤ p.length)
    (hlast : p.getLast? ≠ some 39) :
    ∃ (A : List Piece) (T : Piece), T.text = 63 ∧
      (standingFrom k prev p ≠ .code → (scan (nextPiece false) k prev p).length = A.length + 1) ∧
      ∀ u, scan (nextPiece false) k prev (p ++ 39 :: u) =
        A ++ T :: scan (nextPiece false) (resume (standingFrom k prev p) (39 :: u)) none
          (39 :: u) := by
  induction p generalizing k prev with
  | nil =>
    obtain rfl := Nat.le_zero.mp hk
    refine ⟨[], .string, rfl, fun h => absurd rfl h, fun u => ?_⟩
    show scan (nextPiece false) 0 prev (39 :: u) =
      .string :: scan _ (1 + quotedLength 39 u) none (39 :: u)
    rw [Nat.add_comm 1, scan, scan]
    simp [nextPiece, stringQuote]
  | cons c rest ih =>
    have hrest := getLast?_tail hlast
    cases k with
    | succ k => exact ih (some c) (Nat.le_of_succ_le_succ hk) hrest
    | zero =>
      cases hopen : openToken prev c rest with
      | some st =>
        obtain ⟨T, hT, halone, hmore⟩ := nextPiece_open hopen
        have hst : standingFrom 0 prev (c :: rest) = st := by rw [standingFrom, hopen]
        refine ⟨[], T, hT, fun _ => ?_, fun u => ?_⟩
        · rw [scan, halone, scan_skip_all _ _ _ (Nat.le_refl _)]
          rfl
        · obtain ⟨hpos, hnext⟩ := hmore u
          rw [hst, List.cons_append, scan, hnext]
          show T :: scan _ (rest.length + resume st (39 :: u)) (some c) (rest ++ 39 :: u) = _
          rw [scan_skip_add, scan_prev hpos _ none]
          rfl
      | none =>
        have hst : standingFrom 0 prev (c :: rest) =
            standingFrom (nextPiece false prev c rest).2 (some c) rest := by
              rw [standingFrom, hopen]
        by_cases hsees : ∀ u, stringQuote prev c (rest ++ 39 :: u) = stringQuote prev c rest
        · obtain ⟨A, T, hT, hlength, hscan⟩ := ih (some c) (nextPiece_le false prev c rest) hrest
          refine ⟨(nextPiece false prev c rest).1 :: A, T, hT, fun h => ?_, fun u => ?_⟩
          · rw [hst] at h
            rw [scan, List.length_cons, hlength h, List.length_cons]
          · rw [hst, List.cons_append, scan, nextPiece_append u hopen hrest (hsees u), hscan u]
            rfl
        · -- the text ends in a prefix, and the literal's quote is the prefix's
          obtain ⟨v, hv⟩ := not_forall.mp hsees
          obtain ⟨hend, -, hquote⟩ := (stringQuote_append v prev c rest).resolve_left hv
          have hcode := standing_prefix hend hopen
          refine ⟨[], .string, rfl, fun h => absurd hcode h, fun u => ?_⟩
          have hnext : nextPiece false prev c (rest ++ 39 :: u) =
              (.string, rest.length + (1 + quotedLength 39 u)) := by
            have hdrop : (rest ++ 39 :: u).drop (rest.length + 1) = u :=
              List.drop_length_add_append 1
            simp only [nextPiece, stringQuote_congr u v, hquote, hdrop, Nat.add_assoc]
          rw [hcode, List.cons_append, scan, hnext]
          show Piece.string :: scan _ (rest.length + (1 + quotedLength 39 u)) (some c)
            (rest ++ 39 :: u) = _
          rw [scan_skip_add, scan_prev (Nat.add_pos_left Nat.one_pos _) _ none]
          rfl

/-! ## The literal itself -/

theorem quotedLength_content {x q : Bytes} (hquote : 39 ∉ x) (hback : 92 ∉ x)
    (hq : q.head? ≠ some 39) : quotedLength 39 (x ++ 39 :: q) = x.length + 1 := by
  induction x with
  | nil =>
    cases q with
    | nil => rfl
    | cons d q =>
      have hd : d ≠ 39 := fun hd => hq (by rw [hd]; rfl)
      show quotedLength 39 (39 :: d :: q) = 1
      rw [quotedLength, if_neg (by decide), if_pos rfl, if_neg hd]
  | cons c x ih =>
    rw [List.mem_cons, not_or] at hquote hback
    have hrest := ih hquote.2 hback.2
    cases hs : x ++ 39 :: q with
    | nil => exact absurd hs (by simp)
    | cons d s =>
      rw [hs] at hrest
      rw [List.cons_append, hs, quotedLength, if_neg (Ne.symm hback.1),
        if_neg (Ne.symm hquote.1), hrest, List.length_cons]
      omega

/-- A scanner that takes the quote for the one that opens the literal leaves it at the one that
closes it. -/
theorem scan_literal {x q : Bytes} (hquote : 39 ∉ x) (hback : 92 ∉ x) (hq : q.head? ≠ some 39) :
    scan (nextPiece false) (1 + quotedLength 39 (x ++ 39 :: q)) none (39 :: (x ++ 39 :: q)) =
      scan (nextPiece false) 0 (some 39) q := by
  have hskip : scan (nextPiece false) (39 :: (x ++ [39])).length none
      (39 :: (x ++ [39]) ++ q) = _ :=
    scan_skip none (39 :: (x ++ [39])) q
  have hlast : lastOr none (39 :: (x ++ [39])) = some 39 := by
    rw [lastOr_cons, lastOr_append]
    rfl
  rw [hlast] at hskip
  rw [quotedLength_content hquote hback hq, ← hskip]
  simp [Nat.add_comm]

/-- A byte no token starts with. -/
theorem nextPiece_plain {prev : Option UInt8} {c : UInt8} {rest : Bytes}
    (hquote : stringQuote prev c rest = none) (hdollar : c ≠ 36)
    (hnumber : ¬ (isDigitChar c = true ∨ c = 46)) : nextPiece false prev c rest = (.byte c, 0) := by
  unfold nextPiece
  rw [hquote]
  simp [hdollar, hnumber]

theorem scan_replicate {b : UInt8} (hb : b = 97 ∨ b = 128) (n : Nat)
    (prev : Option UInt8) (t : Bytes) : scan (nextPiece false) 0 prev (List.replicate n b ++ t) =
      List.replicate n (.byte b) ++
        scan (nextPiece false) 0 (lastOr prev (List.replicate n b)) t := by
  induction n generalizing prev with
  | zero => rfl
  | succ n ih =>
    have hnext : ∀ rest, nextPiece false prev b rest = (.byte b, 0) := by
      intro rest
      rcases hb with rfl | rfl
      · exact nextPiece_plain (stringQuote_eq_none (by decide) (by decide) (by decide))
          (by decide) (by decide)
      · exact nextPiece_plain (stringQuote_eq_none (by decide) (by decide) (by decide))
          (by decide) (by decide)
    rw [List.replicate_succ, List.replicate_succ, List.cons_append, scan, hnext, ih, lastOr_cons]
    rfl

theorem standingFrom_dollar {k : Nat} {prev : Option UInt8} {p tag : Bytes}
    (h : standingFrom k prev p = .dollar tag) : tag ≠ [] ∧ 39 ∉ tag ∧ 92 ∉ tag := by
  induction p generalizing k prev with
  | nil => cases k <;> exact absurd h (by simp [standingFrom])
  | cons c rest ih =>
    cases k with
    | succ k => exact ih h
    | zero =>
      rw [standingFrom] at h
      split at h
      · rename_i st hopen
        subst h
        unfold openToken at hopen
        split at hopen
        · obtain ⟨escaped, -, hst⟩ := Option.map_eq_some_iff.mp hopen
          exact absurd hst (by simp)
        split at hopen
        swap
        · exact absurd hopen (by simp)
        split at hopen
        swap
        · exact absurd hopen (by simp)
        rename_i htag
        split at hopen
        · exact absurd hopen (by simp)
        obtain rfl := Standing.dollar.inj (Option.some.inj hopen)
        obtain ⟨hne, hno, hback, -⟩ := dollarTag_spec htag
        exact ⟨hne, hno, hback⟩
      · exact ih h

/-- In code, and behind a backslash in a misread string, the literal is passed over. -/
def passesOver : Standing → Bool
  | .code | .string true => true
  | _ => false

/-- Inside anything else the content of the literal can be read as code. -/
theorem scan_content_in_code {p : Bytes} (h : passesOver (standing p) = false) :
    ∃ lead : Bytes, 39 ∉ lead ∧ 92 ∉ lead ∧ ∀ b q, (b = 97 ∨ b = 128) →
      scan (nextPiece false)
        (resume (standing p) (39 :: (lead ++ List.replicate maxSqlLength b ++ q))) none
        (39 :: (lead ++ List.replicate maxSqlLength b ++ q)) =
      List.replicate maxSqlLength (.byte b) ++ scan (nextPiece false) 0 (some b) q := by
  have hlast : ∀ prev (b : UInt8), lastOr prev (List.replicate maxSqlLength b) = some b := by
    intro prev b
    rw [maxSqlLength, List.replicate_succ', lastOr_append]
    rfl
  cases hst : standing p with
  | code => exact absurd h (by simp [hst, passesOver])
  | string escaped =>
    cases escaped with
    | true => exact absurd h (by simp [hst, passesOver])
    | false =>
      refine ⟨[], by simp, by simp, fun b q hb => ?_⟩
      have hquote : b ≠ 39 := by rcases hb with rfl | rfl <;> decide
      have hone : quotedLength 39 (39 :: (List.replicate maxSqlLength b ++ q)) = 1 := by
        rw [maxSqlLength, List.replicate_succ, List.cons_append, quotedLength,
          if_neg (by decide), if_pos rfl, if_neg hquote]
      rw [List.nil_append, resume, hone, scan, scan_replicate hb, hlast]
  | dollar tag =>
    obtain ⟨hne, hno, hback⟩ := standingFrom_dollar hst
    refine ⟨tag, hno, hback, fun b q hb => ?_⟩
    have hpre : ¬ tag <+: 39 :: (tag ++ List.replicate maxSqlLength b ++ q) := by
      intro hpre
      cases tag with
      | nil => exact hne rfl
      | cons c tag =>
        obtain ⟨rfl, -⟩ := List.cons_prefix_cons.mp hpre
        exact hno List.mem_cons_self
    have hclosing : closingLength tag (tag ++ List.replicate maxSqlLength b ++ q) = tag.length := by
      cases tag with
      | nil => exact absurd rfl hne
      | cons c tag =>
        rw [List.cons_append, List.cons_append, closingLength, if_pos]
        rw [List.append_assoc, ← List.cons_append]
        exact List.prefix_append _ _
    rw [resume, closingLength, if_neg hpre, hclosing, Nat.add_comm, scan,
      List.append_assoc, scan_skip, scan_replicate hb, hlast]

/-! ## The cut -/

theorem cutStatement_length {out : Bytes} (h : maxSqlLength < out.length) :
    (cutStatement out).length = cutBack out maxSqlLength + 3 := by
  have hle := cutBack_le out maxSqlLength
  rw [cutStatement, if_pos h, List.length_append, List.length_take_of_le (by omega)]
  rfl

/-- What is written behind the longest statement does not count. -/
theorem cutStatement_append {out : Bytes} (h : maxSqlLength < out.length) (more : Bytes) :
    cutStatement (out ++ more) = cutStatement out := by
  have hle := cutBack_le out maxSqlLength
  have hmore : maxSqlLength < (out ++ more).length := by
    rw [List.length_append]
    omega
  rw [cutStatement, if_pos hmore, cutStatement, if_pos h, cutBack_append h,
    List.take_append_of_le_length (by omega)]

/-- The bytes the cut falls among tell how long a cut statement is. -/
theorem cutStatement_replicate {out : Bytes} (hpos : out ≠ []) (h : out.length ≤ maxSqlLength)
    (t u : Bytes) :
    cutStatement (out ++ (List.replicate maxSqlLength 97 ++ t)) ≠
      cutStatement (out ++ (List.replicate maxSqlLength 128 ++ u)) := by
  have hlen := List.length_pos_iff.mpr hpos
  have hlong : ∀ (b : UInt8) t, maxSqlLength <
      (out ++ (List.replicate maxSqlLength b ++ t)).length := by
    intro b t
    simp only [List.length_append, List.length_replicate]
    omega
  have hbyte : ∀ (b : UInt8) t,
      (out ++ (List.replicate maxSqlLength b ++ t))[maxSqlLength]? = some b := by
    intro b t
    rw [List.getElem?_append_right h, List.getElem?_append_left
      (by rw [List.length_replicate]; omega), List.getElem?_replicate, if_pos (by omega)]
  intro heq
  have hlength := congrArg List.length heq
  rw [cutStatement_length (hlong 97 t), cutStatement_length (hlong 128 u)] at hlength
  have hascii : cutBack (out ++ (List.replicate maxSqlLength 97 ++ t)) maxSqlLength =
      maxSqlLength :=
    cutBack_self (by rw [hbyte]; rfl)
  have hcontinuation :
      cutBack (out ++ (List.replicate maxSqlLength 128 ++ u)) maxSqlLength < maxSqlLength :=
    cutBack_lt (by decide) (by rw [hbyte]; rfl)
  omega

/-! ## Statements -/

/-- What a statement is put together from. -/
inductive Segment
  | plain (text : Bytes)
  | identifier (name : Bytes)
  | lineComment (text : Bytes)
  | blockComment (text : Bytes)
  | literal (content : Bytes)

def Segment.text : Segment → Bytes
  | .plain text => text
  | .identifier name => 34 :: (name ++ [34])
  | .lineComment text => ascii "--" ++ text
  | .blockComment text => ascii "/*" ++ text ++ ascii "*/"
  | .literal content => 39 :: (content ++ [39])

def written (segments : List Segment) : Bytes := (segments.map Segment.text).flatten

/-- The content of a string literal that needs no escape. -/
def IsContent (content : Bytes) : Prop := 39 ∉ content ∧ 92 ∉ content

instance : DecidablePred IsContent := fun _ => inferInstanceAs (Decidable (_ ∧ _))

/-- A segment with `rest` behind it. -/
def Segment.Standalone (rest : Bytes) : Segment → Prop
  | .plain text =>
    34 ∉ text ∧ 39 ∉ text ∧ 36 ∉ text ∧ ¬ ascii "--" <:+: text ∧ ¬ ascii "/*" <:+: text
  | .identifier name => 34 ∉ name
  | .lineComment text => 10 ∉ text ∧ (rest = [] ∨ rest.head? = some 10)
  | .blockComment text => ¬ ascii "*/" <:+: text
  | .literal content => IsContent content ∧ rest.head? ≠ some 39

def IsStatement : List Segment → Prop
  | [] => True
  | segment :: segments => segment.Standalone (written segments) ∧ IsStatement segments

instance (rest : Bytes) : DecidablePred (Segment.Standalone rest)
  | .plain text => inferInstanceAs
      (Decidable (34 ∉ text ∧ 39 ∉ text ∧ 36 ∉ text ∧ ¬ ascii "--" <:+: text ∧
      ¬ ascii "/*" <:+: text))
  | .identifier name => inferInstanceAs (Decidable (34 ∉ name))
  | .lineComment text =>
    inferInstanceAs (Decidable (10 ∉ text ∧ (rest = [] ∨ rest.head? = some 10)))
  | .blockComment text => inferInstanceAs (Decidable (¬ ascii "*/" <:+: text))
  | .literal content => inferInstanceAs (Decidable (IsContent content ∧ rest.head? ≠ some 39))

instance decidableIsStatement : DecidablePred IsStatement
  | [] => .isTrue trivial
  | segment :: segments =>
    have := decidableIsStatement segments
    inferInstanceAs (Decidable (segment.Standalone (written segments) ∧ IsStatement segments))

theorem written_append (before after : List Segment) (content : Bytes) :
    written (before ++ .literal content :: after) =
      written before ++ 39 :: (content ++ 39 :: written after) := by
  simp [written, Segment.text]

/-- The quote that opens a literal is the first of its kind. -/
theorem getLast?_written {before after : List Segment} {content : Bytes}
    (h : IsStatement (before ++ .literal content :: after)) :
    (written before).getLast? ≠ some 39 := by
  induction before with
  | nil => simp [written]
  | cons segment before ih =>
    obtain ⟨halone, hrest⟩ : segment.Standalone (written (before ++ .literal content :: after)) ∧
      IsStatement (before ++ .literal content :: after) := h
    have hwritten : written (segment :: before) = segment.text ++ written before := rfl
    rw [hwritten]
    cases hbefore : written before with
    | cons c s =>
      have hlast := ih hrest
      rw [hbefore] at hlast
      rw [List.getLast?_append, List.getLast?_eq_some_getLast (List.cons_ne_nil c s)] at *
      exact hlast
    | nil =>
      have hhead : (written (before ++ .literal content :: after)).head? = some 39 := by
        rw [written_append, hbefore]
        rfl
      rw [List.append_nil]
      cases segment with
      | plain text => exact fun hlast => halone.2.1 (List.mem_of_getLast? hlast)
      | identifier name => simp [Segment.text, List.getLast?_cons]
      | lineComment text =>
        rcases halone.2 with hnil | hnewline
        · rw [hnil] at hhead
          exact absurd hhead (by simp)
        · rw [hnewline] at hhead
          exact absurd hhead (by decide)
      | blockComment text =>
        rw [Segment.text, List.getLast?_append]
        show some 47 ≠ some 39
        decide
      | literal other => exact absurd hhead halone.2

theorem isStatement_literal {before after : List Segment} {content : Bytes}
    (h : IsStatement (before ++ .literal content :: after)) :
    IsContent content ∧ (written after).head? ≠ some 39 := by
  induction before with
  | nil => exact h.1
  | cons segment before ih => exact ih h.2

section
variable {p q : Bytes} (hlast : p.getLast? ≠ some 39)
include hlast

/-- Where the scanner passes over the literal its content is not looked at. -/
theorem mask_of_passesOver (hover : passesOver (standing p) = true) (hq : q.head? ≠ some 39)
    {x y : Bytes} (hx : IsContent x) (hy : IsContent y) :
    pieces false (p ++ 39 :: (x ++ 39 :: q)) = pieces false (p ++ 39 :: (y ++ 39 :: q)) := by
  obtain ⟨A, T, -, -, hscan⟩ := scan_standing none (Nat.zero_le _) hlast
  have hresume : ∀ t, resume (standing p) t = 1 + quotedLength 39 t.tail := by
    intro t
    cases hst : standing p with
    | code => rfl
    | string escaped =>
      cases escaped with
      | true => rfl
      | false => exact absurd hover (by simp [hst, passesOver])
    | dollar tag => exact absurd hover (by simp [hst, passesOver])
  rw [standing] at hresume
  rw [pieces, pieces, hscan, hscan, hresume, hresume, List.tail_cons, List.tail_cons,
    scan_literal hx.1 hx.2 hq, scan_literal hy.1 hy.2 hq]

/-- What is written up to the literal, the token it is read in included. -/
theorem pieces_literal (hover : passesOver (standing p) = false) :
    ∃ A : List Piece, A ≠ [] ∧ A.length = (pieces false p).length ∧
      ∀ u, pieces false (p ++ 39 :: u) =
        A ++ scan (nextPiece false) (resume (standing p) (39 :: u)) none (39 :: u) := by
  obtain ⟨A, T, -, hlength, hscan⟩ := scan_standing none (Nat.zero_le _) hlast
  have hcode : standing p ≠ .code := by
    intro hcode
    rw [hcode] at hover
    exact absurd hover (by decide)
  refine ⟨A ++ [T], by simp, ?_, fun u => ?_⟩
  · rw [List.length_append, List.length_singleton, pieces, hlength hcode]
  · rw [pieces, hscan, List.append_assoc]
    rfl

end

theorem maskForSystem_quote {s : Bytes} {dbSystem : Option Bytes} (hquote : 39 ∈ s)
    (hsystem : doubleQuotedStrings dbSystem = false) :
    maskForSystem (some s) dbSystem = some (cutStatement ((pieces false s).map Piece.text)) := by
  have hblank : ¬ s.all isSpaceChar = true := by
    intro hblank
    exact absurd (List.all_eq_true.mp hblank 39 hquote) (by decide)
  rw [maskForSystem]
  simp [hblank, hsystem]

/-- The content of a literal has no influence on the masked statement if and only if the scanner
passes over the literal, or stands behind the longest statement. -/
theorem mask_literal_iff {before after : List Segment} {content : Bytes} {dbSystem : Option Bytes}
    (hstatement : IsStatement (before ++ .literal content :: after))
    (hsystem : doubleQuotedStrings dbSystem = false) :
    (∀ other, IsContent other →
      maskForSystem (some (written (before ++ .literal other :: after))) dbSystem =
        maskForSystem (some (written (before ++ .literal content :: after))) dbSystem) ↔
    passesOver (standing (written before)) = true ∨
      maxSqlLength < (pieces false (written before)).length := by
  have hlast := getLast?_written hstatement
  obtain ⟨hcontent, hq⟩ := isStatement_literal hstatement
  have hmask : ∀ x, maskForSystem (some (written (before ++ .literal x :: after))) dbSystem =
      some (cutStatement ((pieces false
        (written before ++ 39 :: (x ++ 39 :: written after))).map Piece.text)) := by
    intro x
    rw [written_append, maskForSystem_quote (by simp) hsystem]
  simp only [hmask, Option.some.injEq]
  cases hover : passesOver (standing (written before)) with
  | true =>
    refine iff_of_true (fun other hother => ?_) (.inl rfl)
    rw [mask_of_passesOver hlast hover hq hother hcontent]
  | false =>
    obtain ⟨A, hne, hlength, hpieces⟩ := pieces_literal hlast hover
    have hA : (A.map Piece.text).length = (pieces false (written before)).length := by
      rw [List.length_map, hlength]
    simp only [hpieces, List.map_append, Bool.false_eq_true, false_or, ← hA]
    constructor
    · -- two contents that are read as code, with other bytes where the cut falls
      intro hsame
      by_contra hshort
      obtain ⟨lead, hquote, hback, hcode⟩ := scan_content_in_code hover
      have hother : ∀ b : UInt8, b = 97 ∨ b = 128 →
          IsContent (lead ++ List.replicate maxSqlLength b) := by
        intro b hb
        constructor
        · rw [List.mem_append, not_or]
          refine ⟨hquote, fun hmem => ?_⟩
          obtain rfl := List.eq_of_mem_replicate hmem
          exact absurd hb (by decide)
        · rw [List.mem_append, not_or]
          refine ⟨hback, fun hmem => ?_⟩
          obtain rfl := List.eq_of_mem_replicate hmem
          exact absurd hb (by decide)
      have heq := (hsame _ (hother 97 (.inl rfl))).trans (hsame _ (hother 128 (.inr rfl))).symm
      rw [hcode 97 _ (.inl rfl), hcode 128 _ (.inr rfl)] at heq
      simp only [List.map_append, List.map_replicate, Piece.text] at heq
      exact cutStatement_replicate (by simpa using hne) (Nat.le_of_not_lt hshort) _ _ heq
    · intro hlong other hother
      rw [cutStatement_append hlong, cutStatement_append hlong]

theorem mask_literal_iff_address :
    maskForSystem (some (written [.lineComment (ascii " one"), .plain (ascii "\nWHERE b = "),
      .literal (ascii "1 Oak Ave"), .plain (ascii " AND c > 7")])) none =
    maskForSystem (some (written [.lineComment (ascii " one"), .plain (ascii "\nWHERE b = "),
      .literal (ascii "4 Elm St"), .plain (ascii " AND c > 7")])) none :=
  (@mask_literal_iff [.lineComment (ascii " one"), .plain (ascii "\nWHERE b = ")]
    [.plain (ascii " AND c > 7")] (ascii "4 Elm St") none (by decide) rfl).mpr (.inl (by decide))
    (ascii "1 Oak Ave") (by decide)

/-- `-- don't` and a line with one literal. -/
def apostropheInComment (content : Bytes) : List Segment :=
  [.lineComment (ascii " don't"), .plain (ascii "\nSELECT "), .literal content]

/-- An apostrophe in a comment swaps inside and outside for the rest of the statement. -/
theorem mask_shows_literal :
    IsStatement (apostropheInComment (ascii "secret")) ∧ IsContent (ascii "a") ∧
      doubleQuotedStrings none = false ∧
      maskForSystem (some (written (apostropheInComment (ascii "a")))) none ≠
        maskForSystem (some (written (apostropheInComment (ascii "secret")))) none ∧
      maskForSystem (some (written (apostropheInComment (ascii "secret")))) none =
        some (ascii "-- don?secret?") := by
  decide

end ForgeOps.SqlStatement
