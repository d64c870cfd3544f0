import ForgeOpsTracker.Lib.Pieces
import ForgeOpsTracker.EventBuilder

/-! The pattern `append_backtrace_json` compiles for the lines of `backtrace_symbols`, and what
`parse_frame_line` takes out of a line: the image and the symbol are the pattern's two groups as the
longest match divides the line, with no blank after the symbol. -/

namespace ForgeOps.EventBuilder

open Ere (Splits LongestSplit Stops)

def blanks (least : Nat) : Ere := .many Byte.isSpace least none

def number : Ere := .many Byte.isDigit 1 none

/-- `[[:space:]]*[0-9]+[[:space:]]*$` -/
def offsetPattern : List Ere := [blanks 0, number, blanks 0]

/-- `[[:space:]]+(.+)\+[[:space:]]*[0-9]+[[:space:]]*$` -/
def symbolPattern : List Ere :=
  blanks 1 :: .many (fun _ => true) 1 none :: Ere.set (· == 43) :: offsetPattern

/-- `^[[:space:]]*[0-9]+[[:space:]]+([^[:space:]]+)[[:space:]]+0x[0-9a-fA-F]+` and the rest of it -/
def framePattern : List Ere :=
  blanks 0 :: number :: blanks 1 :: .many (fun c => ¬ Byte.isSpace c) 1 none :: blanks 1 ::
    Ere.set (· == 48) :: Ere.set (· == 120) :: .many Byte.isHex 1 none :: symbolPattern

/-! ## Sets of bytes apart -/

theorem not_isSpace_of_isDigit {c : UInt8} (h : Byte.isDigit c = true) :
    Byte.isSpace c = false := by
  revert h
  simp only [Byte.isDigit, Byte.isSpace]
  grind

theorem not_isDigit_of_isSpace {c : UInt8} (h : Byte.isSpace c = true) :
    Byte.isDigit c = false := by
  by_contra hdigit
  rw [Bool.not_eq_false] at hdigit
  rw [not_isSpace_of_isDigit hdigit] at h
  exact Bool.false_ne_true h

theorem not_isHex_of_isSpace {c : UInt8} (h : Byte.isSpace c = true) : Byte.isHex c = false := by
  revert h
  simp only [Byte.isHex, Byte.isDigit, Byte.isSpace]
  grind

/-! ## The offset -/

theorem isOffset_iff {s : Bytes} : isOffset s = true ↔ ∃ pieces, Splits offsetPattern s pieces := by
  have hafter : Stops Byte.isDigit [blanks 0] :=
    Ere.stops_optional (fun _ => not_isDigit_of_isSpace) 0 none (Ere.stops_nil _)
  have hbefore : Stops Byte.isSpace [number, blanks 0] :=
    Ere.stops_many (fun _ => not_isSpace_of_isDigit) Nat.one_pos none _
  constructor
  · intro h
    simp only [isOffset, Bool.and_eq_true, decide_eq_true_eq, List.all_eq_true] at h
    obtain ⟨hdigits, hspace⟩ := h
    have hsplit : Splits offsetPattern (s.takeWhile Byte.isSpace ++
        ((s.dropWhile Byte.isSpace).takeWhile Byte.isDigit ++
          ((s.dropWhile Byte.isSpace).dropWhile Byte.isDigit ++ []))) _ :=
      .cons ⟨fun c hc => List.mem_takeWhile_imp hc, Nat.zero_le _,
        fun m hm => absurd hm (Option.not_mem_none m)⟩
        (.cons ⟨fun c hc => List.mem_takeWhile_imp hc, hdigits,
          fun m hm => absurd hm (Option.not_mem_none m)⟩
          (.cons ⟨hspace, Nat.zero_le _, fun m hm => absurd hm (Option.not_mem_none m)⟩ .nil))
    rw [List.append_nil, List.takeWhile_append_dropWhile, List.takeWhile_append_dropWhile] at hsplit
    exact ⟨_, hsplit⟩
  · rintro ⟨pieces, h⟩
    cases h with
    | @cons _ _ blank _ _ hblank h =>
      have hdrop := (Ere.run_before hbefore hblank.1 h).2
      cases h with
      | @cons _ _ digits _ _ hdigits h =>
        obtain ⟨htake, hrest⟩ := Ere.run_before hafter hdigits.1 h
        cases h with
        | @cons _ _ last _ _ hlast h =>
          cases h
          rw [List.append_nil] at hdrop htake hrest ⊢
          simp only [isOffset, hdrop, htake, hrest, Bool.and_eq_true, decide_eq_true_eq,
            List.all_eq_true]
          exact ⟨hdigits.2.1, hlast.1⟩

theorem plus_notMem_offset {s : Bytes} {pieces : List Bytes}
    (h : Splits offsetPattern s pieces) : 43 ∉ s := by
  cases h with
  | @cons _ _ blank _ _ hblank h =>
    cases h with
    | @cons _ _ digits _ _ hdigits h =>
      cases h with
      | @cons _ _ last _ _ hlast h =>
        cases h
        simp only [List.append_nil, List.mem_append, not_or]
        refine ⟨fun hmem => ?_, fun hmem => ?_, fun hmem => ?_⟩
        · exact absurd (hblank.1 43 hmem) (by decide)
        · exact absurd (hdigits.1 43 hmem) (by decide)
        · exact absurd (hlast.1 43 hmem) (by decide)

/-! ## The symbol -/

theorem symbolGroup_plus {before offset : Bytes} (hoffset : 43 ∉ offset) :
    symbolGroup (before ++ 43 :: offset) =
      if isOffset offset ∧ 0 < (before.takeWhile Byte.isSpace).length then
        if (before.takeWhile Byte.isSpace).length < before.length then
          some (before.drop (before.takeWhile Byte.isSpace).length)
        else if 1 < (before.takeWhile Byte.isSpace).length then
          some (before.drop ((before.takeWhile Byte.isSpace).length - 1))
        else none
      else none := by
  have hback : ((before ++ 43 :: offset).reverse.takeWhile (· ≠ 43)).reverse = offset := by
    have hall : ∀ c ∈ offset.reverse, decide (c ≠ 43) = true := fun c hc =>
      decide_eq_true fun heq => hoffset (heq ▸ List.mem_reverse.mp hc)
    rw [List.reverse_append, List.reverse_cons, List.append_assoc,
      List.takeWhile_append_of_pos hall]
    simp
  have htake :
      ((before ++ 43 :: offset).take ((before ++ 43 :: offset).length - offset.length)).dropLast =
        before := by
    rw [List.append_cons, List.length_append, Nat.add_sub_cancel, List.take_left,
      List.dropLast_concat]
  have hlt : offset.length < (before ++ 43 :: offset).length := by
    rw [List.length_append, List.length_cons]
    omega
  unfold symbolGroup
  simp only [hback, htake, hlt, true_and, gt_iff_lt]

theorem symbolGroup_of_longest {s : Bytes} {pieces : List Bytes}
    (h : LongestSplit symbolPattern s pieces) : symbolGroup s = some (pieces.getD 1 []) := by
  cases h with
  | @cons _ _ blank _ _ hblank h hlongest =>
    cases h with
    | @cons _ _ symbol _ _ hsymbol h _ =>
      obtain ⟨offset, others, rfl, rfl, hoffset⟩ := Ere.longestSplit_byte_iff.mp h
      rw [← List.append_assoc, symbolGroup_plus (plus_notMem_offset hoffset.splits),
        List.takeWhile_append_of_pos hblank.1, List.length_append, List.length_append]
      -- a longer run of blanks would leave nothing for the symbol
      have hnone : ∀ n ≤ (symbol.takeWhile Byte.isSpace).length, n < symbol.length → n = 0 := by
        intro n hn hlt
        have hmore : (blanks 1).Matches (blank ++ symbol.take n) := by
          refine ⟨fun c hc => ?_, ?_, fun m hm => absurd hm (Option.not_mem_none m)⟩
          · rcases List.mem_append.mp hc with hc | hc
            · exact hblank.1 c hc
            · exact (le_length_takeWhile.mp hn).2 c hc
          · exact Nat.le_trans hblank.2.1 (by rw [List.length_append]; exact Nat.le_add_right _ _)
        have hsplit : Splits (.many (fun _ => true) 1 none :: Ere.set (· == 43) :: offsetPattern)
            (symbol.drop n ++ 43 :: offset) (symbol.drop n :: [43] :: others) := by
          refine .cons ⟨fun _ _ => rfl, ?_, fun m hm => absurd hm (Option.not_mem_none m)⟩ h.splits
          rw [List.length_drop]
          omega
        have hle := hlongest _ _ _ (by rw [List.append_assoc, ← List.append_assoc (symbol.take n),
          List.take_append_drop]) hmore hsplit
        rw [List.length_append, List.length_take] at hle
        omega
      have hblank1 := hblank.2.1
      have hsymbol1 := hsymbol.2.1
      have hle := (List.takeWhile_prefix Byte.isSpace (l := symbol)).length_le
      rw [if_pos ⟨isOffset_iff.mpr ⟨others, hoffset.splits⟩, by omega⟩]
      rcases Nat.lt_or_ge (symbol.takeWhile Byte.isSpace).length symbol.length with hlt | hge
      · have hzero := hnone _ (Nat.le_refl _) hlt
        rw [if_pos (by omega), hzero, Nat.add_zero, List.drop_left]
        rfl
      · have hone := hnone ((symbol.takeWhile Byte.isSpace).length - 1) (Nat.sub_le _ 1) (by omega)
        rw [if_neg (by omega), if_pos (by omega),
          show blank.length + (symbol.takeWhile Byte.isSpace).length - 1 = blank.length by
            omega, List.drop_left]
        rfl

theorem splits_of_symbolGroup {s symbol : Bytes} (h : symbolGroup s = some symbol) :
    ∃ pieces, Splits symbolPattern s pieces := by
  by_cases hplus : 43 ∈ s
  · obtain ⟨offset, before, hsplit, hnot⟩ := List.eq_append_cons_of_mem (List.mem_reverse.mpr hplus)
    obtain rfl : s = before.reverse ++ 43 :: offset.reverse := by
      rw [← List.reverse_reverse s, hsplit]
      simp
    generalize before.reverse = before at h
    rw [symbolGroup_plus fun hmem => hnot (List.mem_reverse.mp hmem)] at h
    split at h
    swap
    · exact absurd h (by simp)
    rename_i hoffset
    obtain ⟨hoffset, hblank⟩ := hoffset
    obtain ⟨pieces, hoffset⟩ := isOffset_iff.mp hoffset
    have hset : (Ere.set (· == 43)).Matches [43] :=
      ⟨by simp, Nat.le_refl 1, fun m hm => Option.some.inj hm ▸ Nat.le_refl 1⟩
    -- any cut in the run of blanks that leaves a byte for the symbol is a match
    have hcut : ∀ n, 0 < n → n ≤ (before.takeWhile Byte.isSpace).length → n < before.length →
        ∃ pieces, Splits symbolPattern (before ++ 43 :: offset.reverse) pieces := by
      intro n hpos hn hlt
      have hcons : Splits symbolPattern
          (before.take n ++ (before.drop n ++ ([43] ++ offset.reverse)))
          (before.take n :: before.drop n :: [43] :: pieces) := by
        refine .cons ⟨(le_length_takeWhile.mp hn).2, ?_,
          fun m hm => absurd hm (Option.not_mem_none m)⟩
          (.cons ⟨fun _ _ => rfl, ?_, fun m hm => absurd hm (Option.not_mem_none m)⟩
            (.cons hset hoffset))
        · rw [List.length_take]
          omega
        · rw [List.length_drop]
          omega
      rw [← List.append_assoc, List.take_append_drop] at hcons
      exact ⟨_, hcons⟩
    split at h
    · exact hcut _ hblank (Nat.le_refl _) ‹_›
    · split at h
      · exact hcut ((before.takeWhile Byte.isSpace).length - 1) (by omega) (Nat.sub_le _ 1)
          (by have := (List.takeWhile_prefix Byte.isSpace (l := before)).length_le; omega)
      · exact absurd h (by simp)
  · have hall : ∀ c ∈ s.reverse, decide (c ≠ 43) = true := fun c hc =>
      decide_eq_true fun heq => hplus (heq ▸ List.mem_reverse.mp hc)
    have hwhole : (s.reverse.takeWhile (· ≠ 43)).reverse = s := by
      rw [List.takeWhile_eq_self_iff.mpr hall, List.reverse_reverse]
    unfold symbolGroup at h
    simp only [hwhole, Nat.lt_irrefl, false_and, if_false, reduceCtorEq] at h

theorem symbolGroup_eq_some_iff {s symbol : Bytes} : symbolGroup s = some symbol ↔
    ∃ pieces, LongestSplit symbolPattern s pieces ∧ symbol = pieces.getD 1 [] := by
  constructor
  · intro h
    obtain ⟨pieces, hsplit⟩ := splits_of_symbolGroup h
    obtain ⟨longest, hlongest⟩ := hsplit.exists_longest
    refine ⟨longest, hlongest, ?_⟩
    rw [symbolGroup_of_longest hlongest] at h
    exact (Option.some.inj h).symm
  · rintro ⟨pieces, hlongest, rfl⟩
    exact symbolGroup_of_longest hlongest

/-! ## The line -/

theorem parseFrameLine_eq_some_iff {line : Bytes} {frame : Frame} :
    parseFrameLine line = some frame ↔ ∃ pieces, LongestSplit framePattern line pieces ∧
      frame = ⟨pieces.getD 3 [], trimTrailingSpace (pieces.getD 9 [])⟩ := by
  have hdigit : ∀ {es : List Ere}, Stops Byte.isSpace (number :: es) := fun {es} =>
    Ere.stops_many (fun _ => not_isSpace_of_isDigit) Nat.one_pos none es
  have hblank : ∀ {es : List Ere}, Stops Byte.isDigit (blanks 1 :: es) := fun {es} =>
    Ere.stops_many (fun _ => not_isDigit_of_isSpace) Nat.one_pos none es
  have hspace : ∀ {es : List Ere}, Stops (fun c => ¬ Byte.isSpace c) (blanks 1 :: es) := fun {es} =>
    Ere.stops_many (fun c hc => by simp [hc]) Nat.one_pos none es
  have himage : ∀ {es : List Ere}, Stops Byte.isSpace
      (.many (fun c => ¬ Byte.isSpace c) 1 none :: es) := fun {es} =>
    Ere.stops_many (fun c hc => by simpa using hc) Nat.one_pos none es
  have hzero : ∀ {es : List Ere}, Stops Byte.isSpace (Ere.set (· == 48) :: es) := fun {es} =>
    Ere.stops_many (fun c hc => by rw [beq_iff_eq.mp hc]; rfl) Nat.one_pos (some 1) es
  have hhex : Stops Byte.isHex symbolPattern :=
    Ere.stops_many (fun _ => not_isHex_of_isSpace) Nat.one_pos none _
  unfold parseFrameLine
  simp only [drop_length_takeWhile]
  constructor
  · intro h
    split at h
    swap
    · exact absurd h (by simp)
    rename_i s hs
    split at h
    swap
    · exact absurd h (by simp)
    rename_i hparts
    obtain ⟨hnumber, hfirst, hname, hsecond, haddress⟩ := hparts
    obtain ⟨symbol, hsymbol, rfl⟩ := Option.map_eq_some_iff.mp h
    obtain ⟨pieces, hlongest, rfl⟩ := symbolGroup_eq_some_iff.mp hsymbol
    have hrest := (Ere.longestSplit_some_iff hhex).mpr ⟨haddress, pieces, rfl, hlongest⟩
    have hrest : LongestSplit (Ere.set (· == 120) :: _) (120 :: s) ([120] :: _) :=
      Ere.longestSplit_byte_iff.mpr ⟨s, _, rfl, rfl, hrest⟩
    have hrest : LongestSplit (Ere.set (· == 48) :: _) (48 :: 120 :: s) ([48] :: _) :=
      Ere.longestSplit_byte_iff.mpr ⟨120 :: s, _, rfl, rfl, hrest⟩
    rw [← hs] at hrest
    have hrest := (Ere.longestSplit_some_iff hzero).mpr ⟨hsecond, _, rfl, hrest⟩
    have hrest := (Ere.longestSplit_some_iff hspace).mpr ⟨hname, _, rfl, hrest⟩
    have hrest := (Ere.longestSplit_some_iff himage).mpr ⟨hfirst, _, rfl, hrest⟩
    have hrest := (Ere.longestSplit_some_iff hblank).mpr ⟨hnumber, _, rfl, hrest⟩
    exact ⟨_, (Ere.longestSplit_many_iff hdigit).mpr ⟨Nat.zero_le _, _, rfl, hrest⟩, rfl⟩
  · rintro ⟨pieces, h, rfl⟩
    obtain ⟨-, others, rfl, h₁⟩ := (Ere.longestSplit_many_iff hdigit).mp h
    obtain ⟨hnumber, others, rfl, h₂⟩ := (Ere.longestSplit_some_iff hblank).mp h₁
    obtain ⟨hfirst, others, rfl, h₃⟩ := (Ere.longestSplit_some_iff himage).mp h₂
    obtain ⟨hname, others, rfl, h₄⟩ := (Ere.longestSplit_some_iff hspace).mp h₃
    obtain ⟨hsecond, others, rfl, h₅⟩ := (Ere.longestSplit_some_iff hzero).mp h₄
    obtain ⟨rest, others, hs, rfl, h₆⟩ := Ere.longestSplit_byte_iff.mp h₅
    obtain ⟨rest, others, rfl, rfl, h₇⟩ := Ere.longestSplit_byte_iff.mp h₆
    obtain ⟨haddress, others, rfl, hsymbol⟩ := (Ere.longestSplit_some_iff hhex).mp h₇
    rw [hs]
    simp only
    rw [if_pos ⟨hnumber, hfirst, hname, hsecond, haddress⟩, symbolGroup_of_longest hsymbol]
    rfl

/-- A line the pattern does not match is skipped; the frame of any other has the two groups of the
match that the library must find. -/
theorem parseFrameLine_groups (line : Bytes) :
    (parseFrameLine line = none ↔ ¬ ∃ pieces, Splits framePattern line pieces) ∧
      ∀ frame, parseFrameLine line = some frame ↔ ∃ pieces, LongestSplit framePattern line pieces ∧
        frame = ⟨pieces.getD 3 [], trimTrailingSpace (pieces.getD 9 [])⟩ := by
  refine ⟨?_, fun _ => parseFrameLine_eq_some_iff⟩
  constructor
  · rintro hnone ⟨pieces, hsplit⟩
    obtain ⟨longest, hlongest⟩ := hsplit.exists_longest
    have hsome := parseFrameLine_eq_some_iff.mpr ⟨longest, hlongest, rfl⟩
    rw [hnone] at hsome
    exact absurd hsome (by simp)
  · intro hno
    by_contra hsome
    obtain ⟨frame, hframe⟩ := Option.ne_none_iff_exists'.mp hsome
    obtain ⟨longest, hlongest, -⟩ := parseFrameLine_eq_some_iff.mp hframe
    exact hno ⟨longest, hlongest.splits⟩

/-- Where nothing but blanks stands before the plus, the last of them is the symbol, and it is
trimmed away. -/
example : parseFrameLine (ascii "3   app   0x00104b3c  +  42") = some ⟨ascii "app", []⟩ := by decide

end ForgeOps.EventBuilder
