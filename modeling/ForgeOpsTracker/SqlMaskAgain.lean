import ForgeOpsTracker.SqlMaskLiterals

/-! Masking a masked statement again. The second pass meets no quote and no dollar
tag, so all it can change is a number: one that the first pass left alone for what
stood in front of it, one that the cut made out of a longer word, and the three
dots of a statement that was cut a little before the limit. -/

namespace ForgeOps.SqlStatement

/-! ## What the first pass leaves -/

/-- The bytes that are copied before the next literal. -/
def copied : List Piece → Bytes
  | .byte c :: ps => c :: copied ps
  | _ => []

/-- How many pieces are left when a statement that is too long is cut. -/
def shownLength (ps : List Piece) : Nat :=
  if ps.length > maxSqlLength then cutBack (ps.map Piece.text) maxSqlLength else ps.length

/-- The pieces a masked statement is made of, without the three dots. -/
def shown (doubleQuoted : Bool) (s : Bytes) : List Piece :=
  (pieces doubleQuoted s).take (shownLength (pieces doubleQuoted s))

/-- In the masked text a number can start behind these pieces. -/
def standsAlone (ps : List Piece) : Bool := !partOfSomething (lastOr none (ps.map Piece.text))

/-- Nothing that the first pass copies is a number to the second. -/
structure MaskedOnce (doubleQuoted : Bool) (s : Bytes) : Prop where
  /-- No number follows on a number or a dollar-quoted body, as `.3` does on `1.2` in `1.2.3`. -/
  behind : ∀ before literal after, shown doubleQuoted s = before ++ literal :: after →
    literal = .number ∨ literal = .dollar → numberEnd (copied after) = none
  /-- What the cut leaves of the last word is not a number, as `12` is of `12abc`. -/
  cutWord : maxSqlLength < (pieces doubleQuoted s).length → ∀ before text,
    shown doubleQuoted s = before ++ text.map .byte → standsAlone before = true →
    numberEnd text = none
  /-- The three dots do not make a statement too long that is not cut at the limit. -/
  cutLength : maxSqlLength < (pieces doubleQuoted s).length →
    (shown doubleQuoted s).length = maxSqlLength ∨ (shown doubleQuoted s).length + 3 ≤ maxSqlLength

/-! ## One turn of the loop -/

section
variable {doubleQuoted : Bool} {prev : Option UInt8} {c : UInt8} {rest : Bytes}

/-- A copied byte is the byte the loop stands at, and only that. -/
theorem nextPiece_byte {d : UInt8} {n : Nat}
    (h : nextPiece doubleQuoted prev c rest = (.byte d, n)) : d = c ∧ n = 0 := by
  unfold nextPiece at h
  split at h
  · exact absurd h (by simp)
  split at h
  · exact absurd h (by simp)
  split at h
  · split at h
    · exact absurd h (by simp)
    · simp_all
  split at h
  · split at h
    · exact absurd h (by simp)
    · simp_all
  · simp_all

/-- A question mark is copied. -/
theorem nextPiece_mark : nextPiece doubleQuoted prev 63 rest = (.byte 63, 0) := by
  have hquote : stringQuote prev 63 rest = none :=
    stringQuote_eq_none (by decide) (by decide) (by decide)
  simp [nextPiece, hquote, isDigitChar, Byte.isDigit]

/-- The byte the loop writes is the one it stands at only when it copies it. -/
theorem text_nextPiece : (nextPiece doubleQuoted prev c rest).1.text = c ↔
    nextPiece doubleQuoted prev c rest = (.byte c, 0) := by
  constructor
  · intro htext
    obtain ⟨piece, n, hnext⟩ : ∃ piece n, nextPiece doubleQuoted prev c rest =
        (piece, n) := ⟨_, _, rfl⟩
    rw [hnext] at htext
    cases piece with
    | byte d =>
      obtain ⟨rfl, rfl⟩ := nextPiece_byte hnext
      exact hnext
    | string | number | dollar =>
      obtain rfl : 63 = c := htext
      exact nextPiece_mark
  · intro h
    rw [h]
    rfl

theorem text_nextPiece_cases : (nextPiece doubleQuoted prev c rest).1.text = c ∨
    (nextPiece doubleQuoted prev c rest).1.text = 63 := by
  obtain ⟨piece, n, hnext⟩ : ∃ piece n, nextPiece doubleQuoted prev c rest =
      (piece, n) := ⟨_, _, rfl⟩
  rw [hnext]
  cases piece with
  | byte d => exact .inl (nextPiece_byte hnext).1
  | string | number | dollar => exact .inr rfl

/-- A number starts with a digit or a dot. -/
theorem numberEnd_head (h : (numberEnd (c :: rest)).isSome = true) :
    isDigitChar c = true ∨ c = 46 := by
  obtain ⟨n, h⟩ := Option.isSome_iff_exists.mp h
  by_cases hpos : 0 < digitsLength (c :: rest)
  · left
    by_contra hc
    rw [digitsLength, List.takeWhile_cons_of_neg hc] at hpos
    exact absurd hpos (by decide)
  have hzero : digitsLength (c :: rest) = 0 := by omega
  rcases numberEnd_cases h with hradix | ⟨f, hf, -⟩ | ⟨hdigits, -⟩
  · obtain ⟨x, t, heq, -⟩ := radixEnd_eq_some.mp hradix
    obtain ⟨rfl, -⟩ := List.cons.inj heq
    exact .inl rfl
  · rw [hzero, List.drop_zero] at hf
    obtain ⟨d, t, heq, -⟩ := fractionLength_eq_some.mp hf
    exact .inr (List.cons.inj heq).1
  · exact absurd hdigits hpos

/-- When a byte is copied. -/
theorem nextPiece_copies : nextPiece doubleQuoted prev c rest = (.byte c, 0) ↔
    stringQuote prev c rest = none ∧ ¬ (doubleQuoted = true ∧ c = 34) ∧
      (c = 36 → dollarLength rest = none) ∧
      (partOfSomething prev = false → numberEnd (c :: rest) = none) := by
  have hhead : numberEnd (c :: rest) ≠ none → isDigitChar c = true ∨ c = 46 := fun h =>
    numberEnd_head (Option.isSome_iff_ne_none.mpr h)
  unfold nextPiece
  cases stringQuote prev c rest with
  | some quote => simp
  | none =>
    by_cases hdouble : doubleQuoted = true ∧ c = 34
    · simp [hdouble]
    by_cases hc : c = 36
    · subst hc
      have hnumber : numberEnd (36 :: rest) = none := by
        by_contra h
        exact absurd (hhead h) (by decide)
      cases dollarLength rest <;> simp [hnumber]
    by_cases hdigit : isDigitChar c = true ∨ c = 46
    · cases partOfSomething prev <;> cases numberEnd (c :: rest) <;> simp [hdouble, hc, hdigit]
    · have hnumber : numberEnd (c :: rest) = none := not_not.mp fun h => hdigit (hhead h)
      simp [hdouble, hc, hdigit, hnumber]

end

/-! ## Texts that stay as they are -/

/-- Every byte of `t` is copied when `u` stands behind it. -/
def Stays (doubleQuoted : Bool) : Option UInt8 → Bytes → Bytes → Prop
  | _, [], _ => True
  | prev, c :: t, u =>
    nextPiece doubleQuoted prev c (t ++ u) = (.byte c, 0) ∧ Stays doubleQuoted (some c) t u

section
variable {doubleQuoted : Bool} {prev : Option UInt8} {t u : Bytes}

theorem Stays.scan_eq (h : Stays doubleQuoted prev t u) :
    scan (nextPiece doubleQuoted) 0 prev (t ++ u) = t.map .byte ++ scan (nextPiece doubleQuoted) 0
      (lastOr prev t) u := by
  induction t generalizing prev with
  | nil => rfl
  | cons c t ih =>
    obtain ⟨hnext, h⟩ := h
    rw [List.cons_append, scan, hnext, ih h, lastOr_cons]
    rfl

theorem map_text_byte (t : Bytes) : (t.map Piece.byte).map Piece.text = t := by
  induction t with
  | nil => rfl
  | cons c t ih => exact congrArg (c :: ·) ih

/-- A text that the loop writes as it stands was copied byte by byte. -/
theorem stays_iff_written : Stays doubleQuoted prev t u ↔
    t <+: (scan (nextPiece doubleQuoted) 0 prev (t ++ u)).map Piece.text := by
  constructor
  · intro h
    rw [h.scan_eq, List.map_append, map_text_byte]
    exact List.prefix_append _ _
  · intro h
    induction t generalizing prev with
    | nil => trivial
    | cons c t ih =>
      rw [List.cons_append, scan, List.map_cons, List.cons_prefix_cons] at h
      obtain ⟨htext, h⟩ := h
      have hnext := text_nextPiece.mp htext.symm
      rw [hnext] at h
      exact ⟨hnext, ih h⟩

theorem stays_iff_split : Stays doubleQuoted prev t u ↔ ∀ x c y, t = x ++ c :: y →
    nextPiece doubleQuoted (lastOr prev x) c (y ++ u) = (.byte c, 0) := by
  constructor
  · rintro h x c y rfl
    induction x generalizing prev with
    | nil => exact h.1
    | cons d x ih =>
      rw [lastOr_cons]
      exact ih h.2
  · intro h
    induction t generalizing prev with
    | nil => trivial
    | cons c t ih =>
      refine ⟨h [] c t rfl, ih fun x d y hsplit => ?_⟩
      have := h (c :: x) d y (by rw [hsplit]; rfl)
      rwa [lastOr_cons] at this

/-- The three dots of a cut statement are copied. -/
theorem stays_dots : Stays doubleQuoted prev (ascii "...") [] := by
  have hdot : ∀ prev rest, numberEnd (46 :: rest) = none →
      nextPiece doubleQuoted prev 46 rest = (.byte 46, 0) := by
    intro prev rest hnumber
    have hquote : stringQuote prev 46 rest = none :=
      stringQuote_eq_none (by decide) (by decide) (by decide)
    exact nextPiece_copies.mpr ⟨hquote, by simp, by simp, fun _ => hnumber⟩
  have hnumber : numberEnd (ascii "...") = none ∧ numberEnd (ascii "..") = none ∧
      numberEnd (ascii ".") = none := by decide
  exact ⟨hdot _ _ hnumber.1, hdot _ _ hnumber.2.1, hdot _ _ hnumber.2.2, trivial⟩

/-- A pass over a cut statement writes the three dots last. -/
theorem Stays.map_scan_dots (h : Stays doubleQuoted prev t (ascii "...")) :
    (scan (nextPiece doubleQuoted) 0 prev (t ++ ascii "...")).map Piece.text =
      t ++ ascii "..." := by
  have hdots := Stays.scan_eq (@stays_dots doubleQuoted (lastOr prev t))
  rw [List.append_nil, scan_nil, List.append_nil] at hdots
  rw [h.scan_eq, hdots, List.map_append, map_text_byte, map_text_byte]

end

/-! ## What the second pass cannot find -/

theorem stringQuote_of_not_mem {prev : Option UInt8} {c : UInt8} {rest : Bytes}
    (h : 39 ∉ c :: rest) : stringQuote prev c rest = none := by
  have hrest : ∀ i : Nat, rest[i]? ≠ some 39 := fun i hi =>
    h (List.mem_cons_of_mem c (List.mem_of_getElem? hi))
  have hc : c ≠ 39 := fun hc => h (by rw [hc]; exact List.mem_cons_self)
  unfold stringQuote
  simp [hc, hrest]

theorem not_digit_of_tagChar {c : UInt8} (h : isTagChar c = true) : ¬ isDigitChar c = true := by
  intro hdigit
  simp only [isDigitChar, Byte.isDigit, Bool.and_eq_true, decide_eq_true_eq] at hdigit
  simp only [isTagChar, isAlphaChar, Byte.isAlpha, Byte.isUpper, Byte.isLower, Bool.or_eq_true,
    Bool.and_eq_true, beq_iff_eq, decide_eq_true_eq] at h
  grind

/-- Behind a dollar sign: the rest of a tag. -/
def opensBody (rest : Bytes) : Prop := (rest.dropWhile isTagChar).head? = some 36

instance (rest : Bytes) : Decidable (opensBody rest) :=
  inferInstanceAs (Decidable ((rest.dropWhile isTagChar).head? = some 36))

theorem dollarLength_eq_none {rest : Bytes} : dollarLength rest = none ↔ ¬ opensBody rest := by
  unfold dollarLength dollarTag opensBody
  dsimp only
  rw [drop_length_takeWhile]
  cases rest.dropWhile isTagChar with
  | nil => simp
  | cons c body => by_cases hc : c = 36 <;> simp [hc]

section
variable {doubleQuoted : Bool} {ys more : List Piece} {u : Bytes}

/-- Every byte of a masked text is one that the first pass stood at. -/
theorem text_ne_quote {s : Bytes} {p : Piece} (h : p ∈ pieces doubleQuoted s) :
    p.text ≠ 39 ∧ (doubleQuoted = true → p.text ≠ 34) := by
  obtain ⟨before, c, rest, -, hp⟩ := mem_scan h
  cases p with
  | string | number | dollar => exact ⟨by decide, fun _ => by decide⟩
  | byte d =>
    obtain ⟨rfl, hn⟩ := nextPiece_byte (Prod.ext hp.symm rfl)
    obtain ⟨hquote, hdouble, -⟩ := nextPiece_copies.mp (Prod.ext hp.symm hn)
    refine ⟨?_, fun h hd => hdouble ⟨h, hd⟩⟩
    rintro rfl
    exact absurd hquote (by simp [stringQuote])

/-- Where the first pass stood when it copied a byte. -/
theorem stood_at {s : Bytes} {xs later : List Piece} {c : UInt8}
    (h : pieces doubleQuoted s = xs ++ .byte c :: later) : ∃ before rest,
      Reaches (nextPiece doubleQuoted) s xs before (c :: rest) ∧
        nextPiece doubleQuoted (lastOr none before) c rest = (.byte c, 0) ∧
        scan (nextPiece doubleQuoted) 0 (some c) rest = later := by
  obtain ⟨before, t, hreach, hscan⟩ := Reaches.of_scan (nextPiece_le doubleQuoted) h
  cases t with
  | nil =>
    rw [scan_nil] at hscan
    exact absurd hscan.symm (by simp)
  | cons d rest =>
    obtain ⟨hpiece, hlater⟩ := List.cons.inj hscan
    obtain ⟨rfl, hn⟩ := nextPiece_byte (Prod.ext hpiece rfl)
    have hnext : nextPiece doubleQuoted (lastOr none before) c rest = (.byte c, 0) :=
      Prod.ext hpiece hn
    rw [hnext] at hlater
    exact ⟨before, rest, hreach, hnext, hlater⟩

/-- The letters of a tag are copied behind a dollar sign, and what ends them ends them again. -/
theorem opensBody_of_scan {prev : Option UInt8} {rest : Bytes} (hprev : afterWord prev = true)
    (hu : ¬ opensBody u) (hscan : scan (nextPiece doubleQuoted) 0 prev rest = ys ++ more)
    (h : opensBody (ys.map Piece.text ++ u)) : opensBody rest := by
  induction rest generalizing prev ys with
  | nil =>
    obtain ⟨rfl, -⟩ := List.append_eq_nil_iff.mp hscan.symm
    exact absurd h hu
  | cons c rest ih =>
    cases ys with
    | nil => exact absurd h hu
    | cons p ys =>
      obtain ⟨hp, hlater⟩ := List.cons.inj hscan
      by_cases htag : isTagChar c = true
      · have hword := isWord_of_tagChar htag
        have hnext : nextPiece doubleQuoted prev c rest = (.byte c, 0) := by
          have hne : ∀ d, isTagChar d = false → c ≠ d := by
            rintro d hd rfl
            rw [htag] at hd
            exact absurd hd (by decide)
          have hquote : stringQuote prev c rest = none := by
            simp [stringQuote, hne 39 (by decide), hprev]
          refine nextPiece_copies.mpr ⟨hquote, fun h => hne 34 (by decide) h.2,
            fun h => absurd h (hne 36 (by decide)), fun _ => ?_⟩
          by_contra hnumber
          rcases numberEnd_head (Option.isSome_iff_ne_none.mpr hnumber) with hdigit | hdot
          · exact absurd hdigit (not_digit_of_tagChar htag)
          · exact hne 46 (by decide) hdot
        rw [hnext] at hp hlater
        rw [← hp] at h
        have hafter : afterWord (some c) = true := by simp [afterWord, hword]
        have hopens := ih hafter hlater (by simpa [opensBody, Piece.text, htag] using h)
        simpa [opensBody, htag] using hopens
      by_cases hc : c = 36
      · rw [opensBody, List.dropWhile_cons_of_neg htag, hc]
        rfl
      · exfalso
        have hp' : p.text = c ∨ p.text = 63 := hp ▸ text_nextPiece_cases
        have hnot : ¬ isTagChar p.text = true ∧ p.text ≠ 36 := by
          rcases hp' with hp' | hp'
          · exact hp' ▸ ⟨htag, hc⟩
          · exact hp' ▸ ⟨by decide, by decide⟩
        rw [opensBody, List.map_cons, List.cons_append, List.dropWhile_cons_of_neg hnot.1] at h
        exact hnot.2 (Option.some.inj h)

end

/-! ## Numbers for the second pass -/

section
variable {doubleQuoted : Bool} {ys more : List Piece} {u : Bytes}

theorem copied_map_byte (t : Bytes) : copied (t.map .byte) = t := by
  induction t with
  | nil => rfl
  | cons c t ih => exact congrArg (c :: ·) ih

/-- Only the copied bytes up to the next literal matter to a number. -/
theorem copied_append (hu : inert u = true) (ys : List Piece) : ∃ w, inert w = true ∧
    ys.map Piece.text ++ u = copied ys ++ w := by
  induction ys with
  | nil => exact ⟨u, hu, rfl⟩
  | cons p ys ih =>
    cases p with
    | byte c =>
      obtain ⟨w, hw, heq⟩ := ih
      exact ⟨w, hw, congrArg (c :: ·) heq⟩
    | string | number | dollar => exact ⟨63 :: (ys.map Piece.text ++ u), rfl, rfl⟩

theorem numberEnd_copied (hu : inert u = true) (c : UInt8) (ys : List Piece) :
    numberEnd (c :: (ys.map Piece.text ++ u)) = numberEnd (c :: copied ys) := by
  obtain ⟨w, hw, heq⟩ := copied_append hu ys
  rw [heq]
  exact numberEnd_append hw (c :: copied ys)

/-- The second pass finds a number where copied bytes start with one, or it finds nothing. -/
theorem stays_shown {s : Bytes} {kept : List Piece} (hpieces : pieces doubleQuoted s = kept ++ more)
    (hu : inert u = true) (hopens : ¬ opensBody u) (hquote : 39 ∉ u) :
    Stays doubleQuoted none (kept.map Piece.text) u ↔ ∀ xs c ys, kept = xs ++ .byte c :: ys →
      standsAlone xs = true → numberEnd (c :: copied ys) = none := by
  rw [stays_iff_split]
  constructor
  · rintro h xs c ys rfl halone
    have hnext := h (xs.map Piece.text) c (ys.map Piece.text) (by simp [Piece.text])
    obtain ⟨-, -, -, hnumber⟩ := nextPiece_copies.mp hnext
    rw [← numberEnd_copied hu]
    exact hnumber (by simpa [standsAlone] using halone)
  · intro h x c y hsplit
    obtain ⟨xs, zs, rfl, rfl, hzs⟩ := List.map_eq_append_iff.mp hsplit
    obtain ⟨p, ys, rfl, rfl, rfl⟩ := List.map_eq_cons_iff.mp hzs
    have hmem : ∀ q ∈ p :: ys, q ∈ pieces doubleQuoted s := by
      intro q hq
      rw [hpieces]
      exact List.mem_append_left more (List.mem_append_right xs hq)
    cases p with
    | string | number | dollar => exact nextPiece_mark
    | byte c =>
      refine nextPiece_copies.mpr ⟨stringQuote_of_not_mem ?_, ?_, ?_, ?_⟩
      · rw [← List.cons_append, List.mem_append, not_or]
        refine ⟨fun hmem39 => ?_, hquote⟩
        obtain ⟨q, hq, htext⟩ := List.mem_map.mp
          (show 39 ∈ (Piece.byte c :: ys).map Piece.text from hmem39)
        exact (text_ne_quote (hmem q hq)).1 htext
      · rintro ⟨hd, hc⟩
        exact (text_ne_quote (hmem _ List.mem_cons_self)).2 hd hc
      · rintro rfl
        have hfirst : pieces doubleQuoted s = xs ++ .byte 36 :: (ys ++ more) := by simp [hpieces]
        obtain ⟨before, rest, -, hnext, hscan⟩ := stood_at hfirst
        obtain ⟨-, -, hdollar, -⟩ := nextPiece_copies.mp hnext
        rw [dollarLength_eq_none]
        intro hagain
        exact dollarLength_eq_none.mp (hdollar rfl)
          (opensBody_of_scan (by decide) hopens hscan hagain)
      · intro hpart
        rw [numberEnd_copied hu]
        exact h xs c ys rfl (by simpa [standsAlone] using hpart)

end

/-! ## Where the first pass looked for a number itself -/

/-- A literal that does not run to the end of the text ends with its quote. -/
theorem quotedLength_last {quote : UInt8} {t : Bytes} (h : quotedLength quote t < t.length) :
    (t.take (quotedLength quote t)).getLast? = some quote := by
  fun_induction quotedLength quote t with
  | case1 => exact absurd h (by simp)
  | case2 => exact absurd h (by simp)
  | case3 d s ih =>
    have hlast := ih (by simp only [List.length_cons] at h; omega)
    rw [Nat.add_comm, List.take_succ_cons, List.take_succ_cons, List.getLast?_cons,
      List.getLast?_cons, hlast]
    rfl
  | case4 s hback ih =>
    have hlast := ih (by simp only [List.length_cons] at h; omega)
    rw [Nat.add_comm, List.take_succ_cons, List.take_succ_cons, List.getLast?_cons,
      List.getLast?_cons, hlast]
    rfl
  | case5 d s hback hquote => rfl
  | case6 c d s hback hquote ih =>
    have hlast := ih (by simp only [List.length_cons] at h ⊢; omega)
    rw [Nat.add_comm, List.take_succ_cons, List.getLast?_cons, hlast]
    rfl

section
variable {doubleQuoted : Bool} {s before rest : Bytes} {xs ys more : List Piece} {c : UInt8}

theorem last_of_quoted {quote : UInt8} {n : Nat} {lit : Bytes}
    (h : n + quotedLength quote ((lit ++ c :: rest).drop n) = lit.length) :
    lit.getLast? = some quote := by
  have hlt : quotedLength quote ((lit ++ c :: rest).drop n) <
      ((lit ++ c :: rest).drop n).length := by
    rw [List.length_drop, List.length_append, List.length_cons]
    omega
  have hlit : lit = (lit ++ c :: rest).take n ++
      ((lit ++ c :: rest).drop n).take (quotedLength quote ((lit ++ c :: rest).drop n)) := by
    rw [← List.take_add, h, List.take_left]
  rw [hlit, List.getLast?_append, quotedLength_last hlt]
  rfl

/-- A string that text follows on ends with its quote. -/
theorem last_of_string {b : Bytes}
    (hreach : Reaches (nextPiece doubleQuoted) s (xs ++ [.string]) b (c :: rest)) :
    lastOr none b = some 39 ∨ lastOr none b = some 34 := by
  obtain ⟨b, d, lit, rfl, -, hnext⟩ := hreach.last
  rw [lastOr_append, lastOr_cons, lastOr]
  unfold nextPiece at hnext
  split at hnext
  · rename_i n hquote
    rw [last_of_quoted (Prod.mk.inj hnext).2]
    exact .inl rfl
  split at hnext
  · rw [last_of_quoted (n := 0) ((Nat.zero_add _).trans (Prod.mk.inj hnext).2)]
    exact .inr rfl
  split at hnext
  · split at hnext <;> exact absurd (Prod.mk.inj hnext).1 (by simp)
  split at hnext
  · split at hnext <;> exact absurd (Prod.mk.inj hnext).1 (by simp)
  · exact absurd (Prod.mk.inj hnext).1 (by simp)

/-- Behind anything but a number or a dollar-quoted body, what the second pass takes for the
start of a number is what the first one took for it. -/
theorem not_part_of_standsAlone (hreach : Reaches (nextPiece doubleQuoted) s xs before (c :: rest))
    (halone : standsAlone xs = true)
    (hlast : ∀ xs' t, xs = xs' ++ [t] → t ≠ .number ∧ t ≠ .dollar) :
    partOfSomething (lastOr none before) = false := by
  rcases List.eq_nil_or_concat' xs with rfl | ⟨xs', t, rfl⟩
  · obtain rfl := hreach.nothing
    rfl
  · obtain ⟨hnumber, hdollar⟩ := hlast xs' t rfl
    cases t with
    | number => exact absurd rfl hnumber
    | dollar => exact absurd rfl hdollar
    | string =>
      rcases last_of_string hreach with h | h
      · rw [h]
        decide
      · rw [h]
        decide
    | byte d =>
      obtain ⟨b, e, lit, rfl, -, hnext⟩ := hreach.last
      obtain ⟨rfl, hlit⟩ := nextPiece_byte hnext
      obtain rfl := List.length_eq_zero_iff.mp hlit
      rw [lastOr_append, lastOr_cons, lastOr_nil]
      simpa [standsAlone, lastOr_append, Piece.text] using halone

/-- No literal starts inside a word. -/
theorem not_word_of_literal {d : UInt8} (h : nextPiece doubleQuoted (some c) d rest ≠ (.byte d, 0))
    (hc : isWord c = true) : isWord d = false := by
  by_contra hd
  rw [Bool.not_eq_false] at hd
  have hne : ∀ e, isWord e = false → d ≠ e := by
    rintro e he rfl
    rw [hd] at he
    exact absurd he (by decide)
  refine h (nextPiece_copies.mpr ⟨?_, fun h => hne 34 (by decide) h.2,
    fun h => absurd h (hne 36 (by decide)), ?_⟩)
  · simp [stringQuote, hne 39 (by decide), afterWord, hc]
  · simp [partOfSomething, hc]

/-- A copied byte is the next one of the text, and the scan goes on behind it. -/
theorem scan_eq_byte_cons {prev : Option UInt8} {e : UInt8} {later : List Piece}
    (hscan : scan (nextPiece doubleQuoted) 0 prev rest = .byte e :: later) :
    ∃ w, rest = e :: w ∧ scan (nextPiece doubleQuoted) 0 (some e) w = later := by
  cases rest with
  | nil => exact absurd hscan (by simp)
  | cons d rest =>
    obtain ⟨hpiece, hlater⟩ := List.cons.inj hscan
    obtain ⟨rfl, hn⟩ := nextPiece_byte (Prod.ext hpiece rfl)
    have hnext : nextPiece doubleQuoted prev e rest = (.byte e, 0) := Prod.ext hpiece hn
    rw [hnext] at hlater
    exact ⟨rest, rfl, hlater⟩

/-- The copied bytes are those of the statement, and no word goes on from them into a literal. -/
theorem boundary_of_scan {t : Bytes} {p : Piece} (hp : ∀ d, p ≠ .byte d)
    (hscan : scan (nextPiece doubleQuoted) 0 (some c) rest = t.map .byte ++ p :: ys) :
    ∃ w, rest = t ++ w ∧ Boundary (c :: t) w := by
  induction t generalizing c rest with
  | nil =>
    cases rest with
    | nil => exact absurd hscan (by simp)
    | cons d rest =>
      refine ⟨d :: rest, rfl, ?_⟩
      rintro c' d' hc hd hword
      obtain rfl : c = c' := Option.some.inj hc
      obtain rfl : d = d' := Option.some.inj hd
      obtain ⟨hpiece, -⟩ := List.cons.inj hscan
      have hliteral : nextPiece doubleQuoted (some c) d rest ≠ (.byte d, 0) := by
        intro hnext
        rw [hnext] at hpiece
        exact hp d hpiece.symm
      exact not_word_of_literal hliteral hword
  | cons e t ih =>
    obtain ⟨more, rfl, hlater⟩ := scan_eq_byte_cons hscan
    obtain ⟨w, rfl, hb⟩ := ih hlater
    refine ⟨w, rfl, fun c' d' hc => hb c' d' ?_⟩
    rwa [List.getLast?_cons_cons] at hc

/-- A text that is copied to its end. -/
theorem eq_of_scan {prev : Option UInt8} {t : Bytes}
    (hscan : scan (nextPiece doubleQuoted) 0 prev rest = t.map .byte) : rest = t := by
  induction t generalizing prev rest with
  | nil =>
    cases rest with
    | nil => rfl
    | cons d rest => exact absurd hscan (by simp [scan])
  | cons e t ih =>
    obtain ⟨more, rfl, hlater⟩ := scan_eq_byte_cons hscan
    rw [ih hlater]

end

/-! ## The second pass as a whole -/

section
variable {doubleQuoted : Bool} {s : Bytes} {kept more : List Piece}

/-- The leading copied bytes of pieces, and the literal behind them. -/
theorem copied_cases (ps : List Piece) : ps = (copied ps).map .byte ∨
    ∃ p later, (∀ d, p ≠ .byte d) ∧ ps = (copied ps).map .byte ++ p :: later := by
  induction ps with
  | nil => exact .inl rfl
  | cons p ps ih =>
    cases p with
    | byte c =>
      rcases ih with ih | ⟨p, later, hp, ih⟩
      · exact .inl (congrArg (Piece.byte c :: ·) ih)
      · exact .inr ⟨p, later, hp, congrArg (Piece.byte c :: ·) ih⟩
    | string | number | dollar => exact .inr ⟨_, ps, fun d => by simp, rfl⟩

theorem standsAlone_of_mark {before : List Piece} {p : Piece} (hp : p.text = 63) :
    standsAlone (before ++ [p]) = true := by
  rw [standsAlone, List.map_append, lastOr_append, List.map_singleton, hp]
  rfl

/-- A number of the second pass starts behind one that the first pass masked, or the cut made it. -/
theorem numbers_iff (hpieces : pieces doubleQuoted s = kept ++ more) :
    (∀ xs c ys, kept = xs ++ .byte c :: ys → standsAlone xs = true →
    numberEnd (c :: copied ys) = none) ↔
      (∀ before literal after, kept = before ++ literal :: after →
        literal = .number ∨ literal = .dollar → numberEnd (copied after) = none) ∧
      (more ≠ [] → ∀ before text, kept = before ++ text.map .byte → standsAlone before = true →
        numberEnd text = none) := by
  constructor
  · intro h
    constructor
    · rintro before literal after rfl hliteral
      cases after with
      | nil => rfl
      | cons p ys =>
        cases p with
        | string | number | dollar => rfl
        | byte c =>
          refine h (before ++ [literal]) c ys (by simp) ?_
          rcases hliteral with rfl | rfl
          · exact standsAlone_of_mark rfl
          · exact standsAlone_of_mark rfl
    · rintro - before text rfl halone
      cases text with
      | nil => rfl
      | cons c text =>
        have := h before c (text.map .byte) rfl halone
        rwa [copied_map_byte] at this
  · rintro ⟨hbehind, hcut⟩ xs c ys rfl halone
    by_cases hlast : ∀ xs' t, xs = xs' ++ [t] → t ≠ .number ∧ t ≠ .dollar
    swap
    · simp only [not_forall] at hlast
      obtain ⟨xs', t, rfl, ht⟩ := hlast
      refine hbehind xs' t (.byte c :: ys) (by simp) ?_
      rwa [Classical.not_and_iff_not_or_not, not_not, not_not] at ht
    have hfirst : pieces doubleQuoted s = xs ++ .byte c :: (ys ++ more) := by simp [hpieces]
    obtain ⟨before, rest, hreach, hnext, hscan⟩ := stood_at hfirst
    have hpart := not_part_of_standsAlone hreach halone hlast
    obtain ⟨-, -, -, hnumber⟩ := nextPiece_copies.mp hnext
    have hnone := hnumber hpart
    rcases copied_cases ys with hys | ⟨p, later, hp, hys⟩
    · by_cases hmore : more = []
      · rw [hmore, List.append_nil, hys] at hscan
        rwa [eq_of_scan hscan] at hnone
      · exact hcut hmore xs (c :: copied ys) (by rw [List.map_cons, ← hys]) halone
    · rw [hys, List.append_assoc] at hscan
      obtain ⟨w, rfl, hb⟩ := boundary_of_scan hp hscan
      by_contra hsome
      have := numberEnd_boundary (Option.isSome_iff_ne_none.mpr hsome) hb
      rw [List.cons_append, hnone] at this
      exact absurd this (by decide)

end

section
variable {doubleQuoted : Bool} {m t out : Bytes}

theorem cutStatement_short (h : out.length ≤ maxSqlLength) : cutStatement out = out :=
  if_neg (Nat.not_lt.mpr h)

/-- A pass writes a text as it is when it copies every byte of it. -/
theorem stays_iff_same : Stays doubleQuoted none m [] ↔
    (pieces doubleQuoted m).map Piece.text = m := by
  rw [stays_iff_written, List.append_nil]
  constructor
  · intro h
    refine (h.eq_of_length_le ?_).symm
    rw [List.length_map]
    exact scan_length_le 0 none m
  · intro h
    rw [pieces] at h
    rw [h]

/-- When the dots reach over the limit, they are cut there again. -/
theorem cutStatement_dots (ht : t.length ≤ maxSqlLength) (hlong : maxSqlLength < t.length + 3) :
    cutStatement (t ++ ascii "...") = (t ++ ascii "...").take maxSqlLength ++ ascii "..." := by
  have hdots : ascii "..." = List.replicate 3 46 := by decide
  have hdot : (t ++ ascii "...")[maxSqlLength]? = some 46 := by
    rw [hdots, List.getElem?_append_right ht, List.getElem?_replicate, if_pos (by omega)]
  have hcut : cutBack (t ++ ascii "...") maxSqlLength = maxSqlLength :=
    cutBack_self (by rw [hdot]; rfl)
  rw [cutStatement, if_pos, hcut]
  rwa [List.length_append]

/-- A cut statement comes out of a second pass as it is when the pass copies every byte in front
of the dots, and the dots do not move. -/
theorem cut_again (ht : t.length ≤ maxSqlLength) :
    cutStatement ((pieces doubleQuoted (t ++ ascii "...")).map Piece.text) = t ++ ascii "..." ↔
      Stays doubleQuoted none t (ascii "...") ∧
        (t.length = maxSqlLength ∨ t.length + 3 ≤ maxSqlLength) := by
  have hlength : (t ++ ascii "...").length = t.length + 3 := by
    rw [List.length_append]
    rfl
  constructor
  · intro h
    by_cases hshort :
      ((pieces doubleQuoted (t ++ ascii "...")).map Piece.text).length ≤ maxSqlLength
    · rw [cutStatement_short hshort] at h
      refine ⟨stays_iff_written.mpr ?_, .inr ?_⟩
      · rw [← pieces, h]
        exact List.prefix_append t _
      · rw [← hlength, ← h]
        exact hshort
    · rw [Nat.not_le] at hshort
      have htake := h
      rw [cutStatement, if_pos hshort] at htake
      have hprefix : t <+: (pieces doubleQuoted (t ++ ascii "...")).map Piece.text := by
        have hcut :=
          List.take_prefix
            (cutBack ((pieces doubleQuoted (t ++ ascii "...")).map Piece.text) maxSqlLength)
              ((pieces doubleQuoted (t ++ ascii "...")).map Piece.text)
        rwa [(List.append_inj' htake rfl).1] at hcut
      have hstays : Stays doubleQuoted none t (ascii "...") := stays_iff_written.mpr hprefix
      refine ⟨hstays, .inl ?_⟩
      rw [pieces, hstays.map_scan_dots] at h hshort
      rw [hlength] at hshort
      rw [cutStatement_dots ht hshort] at h
      have hkept := congrArg List.length (List.append_inj' h rfl).1
      rw [List.length_take, hlength, Nat.min_eq_left hshort.le] at hkept
      exact hkept.symm
  · rintro ⟨hstays, hroom⟩
    rw [pieces, hstays.map_scan_dots]
    rcases hroom with hroom | hroom
    · rw [cutStatement_dots ht (by omega), ← hroom, List.take_left]
    · rw [cutStatement_short (by rw [hlength]; exact hroom)]

end

/-- Something other than a space is written for a statement that has something else in it. -/
theorem blank_of_masked {doubleQuoted : Bool} {prev : Option UInt8} {s : Bytes}
    (h : ((scan (nextPiece doubleQuoted) 0 prev s).map Piece.text).all isSpaceChar = true) :
    s.all isSpaceChar = true := by
  induction s generalizing prev with
  | nil => rfl
  | cons c s ih =>
    rw [scan, List.map_cons, List.all_cons, Bool.and_eq_true] at h
    obtain ⟨hspace, h⟩ := h
    rcases @text_nextPiece_cases doubleQuoted prev c s with htext | htext
    · rw [text_nextPiece.mp htext] at h
      rw [htext] at hspace
      rw [List.all_cons, hspace, ih h]
      rfl
    · rw [htext] at hspace
      exact absurd hspace (by decide)

/-- What is left of a statement that is not cut, and of one that is. -/
theorem shown_short {doubleQuoted : Bool} {s : Bytes}
    (h : ¬ maxSqlLength < (pieces doubleQuoted s).length) :
    shown doubleQuoted s = pieces doubleQuoted s := by
  rw [shown, shownLength, if_neg h, List.take_length]

theorem shown_long {doubleQuoted : Bool} {s : Bytes}
    (h : maxSqlLength < (pieces doubleQuoted s).length) :
    cutStatement ((pieces doubleQuoted s).map Piece.text) =
        (shown doubleQuoted s).map Piece.text ++ ascii "..." ∧
      (shown doubleQuoted s).length ≤ maxSqlLength := by
  have hle := cutBack_le ((pieces doubleQuoted s).map Piece.text) maxSqlLength
  rw [shown, shownLength, if_pos h, List.length_take_of_le (by omega), List.map_take]
  refine ⟨?_, hle⟩
  rw [cutStatement, if_pos]
  rwa [List.length_map]

/-- A masked statement that is masked again stays as it is if and only if no copied byte of it
starts a number any more and its dots fit. -/
theorem mask_twice {s m : Bytes} {dbSystem : Option Bytes}
    (h : maskForSystem (some s) dbSystem = some m) :
    maskForSystem (some m) dbSystem = some m ↔ MaskedOnce (doubleQuotedStrings dbSystem) s := by
  generalize hquoted : doubleQuotedStrings dbSystem = doubleQuoted
  rw [maskForSystem, hquoted] at h
  split at h
  · exact absurd h (by simp)
  rename_i hblank
  obtain rfl := Option.some.inj h
  by_cases hlong : maxSqlLength < (pieces doubleQuoted s).length
  · obtain ⟨hcut, hlength⟩ := shown_long hlong
    have hpieces : pieces doubleQuoted s = shown doubleQuoted s ++
        (pieces doubleQuoted s).drop (shownLength (pieces doubleQuoted s)) :=
        (List.take_append_drop _ _).symm
    have hmore : (pieces doubleQuoted s).drop (shownLength (pieces doubleQuoted s)) ≠ [] := by
      intro hnil
      rw [hnil, List.append_nil] at hpieces
      rw [hpieces] at hlong
      omega
    have hmarked : ((shown doubleQuoted s).map Piece.text ++ ascii "...").all
        isSpaceChar = false := by
      simp [isSpaceChar, Byte.isSpace, ascii]
    rw [hcut, maskForSystem, hmarked, if_neg Bool.false_ne_true, hquoted, Option.some.injEq,
      cut_again (by rw [List.length_map]; exact hlength),
      stays_shown hpieces (by decide) (by decide) (by decide), numbers_iff hpieces, List.length_map]
    constructor
    · rintro ⟨⟨hbehind, hword⟩, hroom⟩
      exact ⟨hbehind, fun _ => hword hmore, fun _ => hroom⟩
    · rintro ⟨hbehind, hword, hroom⟩
      exact ⟨⟨hbehind, fun _ => hword hlong⟩, hroom hlong⟩
  · have hshown := shown_short hlong
    have hpieces : pieces doubleQuoted s = pieces doubleQuoted s ++ [] := (List.append_nil _).symm
    have hshort : ∀ t : Bytes, t.length ≤ (pieces doubleQuoted s).length →
        cutStatement ((pieces doubleQuoted t).map Piece.text) =
        (pieces doubleQuoted t).map Piece.text := by
      intro t ht
      apply cutStatement_short
      have : (scan (nextPiece doubleQuoted) 0 none t).length ≤ t.length := scan_length_le 0 none t
      rw [List.length_map, pieces]
      omega
    have hsame : cutStatement ((pieces doubleQuoted s).map Piece.text) =
        (pieces doubleQuoted s).map Piece.text :=
      cutStatement_short (by rw [List.length_map]; omega)
    have hmarked : ¬ ((pieces doubleQuoted s).map Piece.text).all isSpaceChar =
        true := fun hspaces =>
      hblank (blank_of_masked hspaces)
    rw [hsame, maskForSystem, if_neg hmarked, hquoted,
      Option.some.injEq, hshort _ (by rw [List.length_map]), ← stays_iff_same,
      stays_shown hpieces (by decide) (by decide) (by decide), numbers_iff hpieces]
    constructor
    · rintro ⟨hbehind, -⟩
      exact ⟨hshown ▸ hbehind, fun h => absurd h hlong, fun h => absurd h hlong⟩
    · rintro ⟨hbehind, -, -⟩
      exact ⟨hshown ▸ hbehind, fun h => absurd rfl h⟩

/-- A statement with one number in it is masked once and for all. -/
theorem maskedOnce_number : MaskedOnce (doubleQuotedStrings none) (ascii "SELECT 1") :=
  (@mask_twice (ascii "SELECT 1") (ascii "SELECT ?") none (by decide)).mp (by decide)

/-- The second dot of a version number: what follows it is a number of its own once the first
part of the version is masked. -/
theorem mask_again_masks_more :
    maskForSystem (some (ascii "SELECT 1.2.3")) none = some (ascii "SELECT ?.3") ∧
      maskForSystem (some (ascii "SELECT ?.3")) none = some (ascii "SELECT ??") := by
  decide

end ForgeOps.SqlStatement
