import ForgeOpsTracker.CardNumbers
import ForgeOpsTracker.Ibans

/-! The stages of `forgeops_scrub_string` as scanners. None of them looks past a bracket, so what
stands before one and what stands behind it are scrubbed on their own. -/

namespace ForgeOps.PiiScrubber

/-! ## The stages -/

def ibanMarker : Bytes := ascii "[IBAN FILTERED]"

def ibanPiece (prev : Option UInt8) (c : UInt8) (rest : Bytes) : Bytes × Nat :=
  let n := ibanCandidateEnd prev (c :: rest)
  if n = 0 then ([c], 0)
  else if isIban ((c :: rest).take n) then (ibanMarker, n - 1)
  else ((c :: rest).take n, n - 1)

theorem scrubIbans_eq : scrubIbans = pass ibanPiece := rfl

def patternPiece (spec : PatternSpec) (prev : Option UInt8) (c : UInt8)
    (rest : Bytes) : Bytes × Nat :=
  match spec.pattern.longest (c :: rest) with
  | none => ([c], 0)
  | some n =>
    if spec.wordBounded ∧ (wordBehind prev ∨ wordAhead ((c :: rest).drop n)) then ([c], 0)
    else (filtered spec.label, n - 1)

theorem applyPattern_eq (spec : PatternSpec) : applyPattern spec = pass (patternPiece spec) := rfl

/-- The card number among the patterns. -/
def cardSpec : PatternSpec :=
  { label := ascii "CREDIT CARD", pattern := creditCard, wordBounded := true }

theorem cardSpec_mem : cardSpec ∈ patterns := by simp [patterns, cardSpec]

def isBracket (c : UInt8) : Bool := c == 91 || c == 93

theorem isBracket_cases {c : UInt8} (h : isBracket c = true) : c = 91 ∨ c = 93 := by
  simpa [isBracket] using h

section
variable {c : UInt8} (hc : isBracket c = true)
include hc

theorem isWordChar_bracket : isWordChar c = false := by
  rcases isBracket_cases hc with rfl | rfl <;> rfl

theorem isIbanChar_bracket : isIbanChar c = false := by
  rcases isBracket_cases hc with rfl | rfl <;> rfl

theorem wordAhead_before {s : Bytes} {n : Nat} (hn : n ≤ s.length) (t : Bytes) :
    wordAhead ((s ++ c :: t).drop n) = wordAhead (s.drop n) := by
  rw [List.drop_append_of_le_length hn]
  cases s.drop n with
  | nil => exact isWordChar_bracket hc
  | cons d s => rfl

/-! ## Patterns -/

theorem avoids_bracket {spec : PatternSpec} (hspec : spec ∈ patterns) :
    spec.pattern.avoids c = true := by
  have hall : ∀ spec ∈ patterns, spec.pattern.avoids 91 = true ∧ spec.pattern.avoids 93 = true := by
    decide
  rcases isBracket_cases hc with rfl | rfl
  · exact (hall spec hspec).1
  · exact (hall spec hspec).2

theorem patternPiece_barrier {spec : PatternSpec} (hspec : spec ∈ patterns) :
    Barrier (patternPiece spec) c := by
  have havoid := avoids_bracket hc hspec
  have hlongest := fun d s t => Ere.longest_before havoid (d :: s) t
  constructor
  · intro prev rest
    have hnil : ∀ spec ∈ patterns, spec.pattern.longest [] = none := by decide
    have hnone : spec.pattern.longest (c :: rest) = none :=
      (Ere.longest_before havoid [] rest).trans (hnil spec hspec)
    rw [patternPiece, hnone]
  · intro prev d s
    unfold patternPiece
    split
    · exact Nat.zero_le _
    · rename_i n hn
      have hfits := (Ere.longest_eq_some.mp hn).1.1
      rw [List.length_cons] at hfits
      split
      · exact Nat.zero_le _
      · exact Nat.sub_le_of_le_add hfits
  · intro prev d s t
    rw [patternPiece, patternPiece, ← List.cons_append, hlongest]
    cases hn : spec.pattern.longest (d :: s) with
    | none => rfl
    | some n =>
      dsimp only
      rw [wordAhead_before hc (Ere.longest_eq_some.mp hn).1.1]
  · intro d s
    have hbehind : wordBehind (some c) = wordBehind none := isWordChar_bracket hc
    rw [patternPiece, patternPiece, hbehind]

/-! ## IBANs -/

theorem isWordBoundary_before {s : Bytes} {pos : Nat} (hpos : 0 < pos) (hle : pos ≤ s.length)
    (t : Bytes) : isWordBoundary (s ++ c :: t) pos = isWordBoundary s pos := by
  have hlast : (s ++ c :: t)[pos - 1]? = s[pos - 1]? := List.getElem?_append_left (by omega)
  rw [isWordBoundary, isWordBoundary, hlast]
  rcases Nat.lt_or_eq_of_le hle with hlt | rfl
  · rw [List.getElem?_append_left hlt]
  · rw [List.getElem?_append_right (Nat.le_refl _), Nat.sub_self,
      List.getElem?_eq_none (Nat.le_refl _)]
    simp [isWordChar_bracket hc]

theorem lastBoundary_before {s : Bytes} {base k : Nat} (hle : base + k ≤ s.length) (least : Nat)
    (t : Bytes) : lastBoundary (s ++ c :: t) base least k = lastBoundary s base least k := by
  induction k with
  | zero => rfl
  | succ k ih =>
    rw [lastBoundary, lastBoundary, isWordBoundary_before hc (by omega) hle, ih (by omega)]

theorem takeWhile_before (s t : Bytes) :
    (s ++ c :: t).takeWhile isIbanChar = s.takeWhile isIbanChar := by
  induction s with
  | nil => simp [isIbanChar_bracket hc]
  | cons d s ih =>
    rw [List.cons_append, List.takeWhile_cons, List.takeWhile_cons, ih]

theorem isIbanGroup_before (s t : Bytes) : isIbanGroup (s ++ c :: t) = isIbanGroup s := by
  have hspace : (c == space) = false := by rcases isBracket_cases hc with rfl | rfl <;> rfl
  have hchar := isIbanChar_bracket hc
  rcases s with _ | ⟨a, _ | ⟨b, _ | ⟨d, _ | ⟨e, _ | ⟨f, s⟩⟩⟩⟩⟩
  · rcases t with _ | ⟨b, _ | ⟨d, _ | ⟨e, _ | ⟨f, t⟩⟩⟩⟩ <;> simp [isIbanGroup, hspace]
  · rcases t with _ | ⟨d, _ | ⟨e, _ | ⟨f, t⟩⟩⟩ <;> simp [isIbanGroup, hchar]
  · rcases t with _ | ⟨e, _ | ⟨f, t⟩⟩ <;> simp [isIbanGroup, hchar]
  · rcases t with _ | ⟨f, t⟩ <;> simp [isIbanGroup, hchar]
  · simp [isIbanGroup, hchar]
  · rfl

theorem ibanGroups_before (most : Nat) (s t : Bytes) :
    ibanGroups most (s ++ c :: t) = ibanGroups most s := by
  induction most generalizing s with
  | zero => rfl
  | succ most ih =>
    rw [ibanGroups, ibanGroups, isIbanGroup_before hc]
    by_cases hgroup : isIbanGroup s = true
    · have hlength : 5 ≤ s.length := by
        rcases s with _ | ⟨a, _ | ⟨b, _ | ⟨d, _ | ⟨e, _ | ⟨f, s⟩⟩⟩⟩⟩
        · exact absurd hgroup (by decide)
        · exact absurd hgroup (by simp [isIbanGroup])
        · exact absurd hgroup (by simp [isIbanGroup])
        · exact absurd hgroup (by simp [isIbanGroup])
        · exact absurd hgroup (by simp [isIbanGroup])
        · simp
      rw [if_pos hgroup, if_pos hgroup, List.drop_append_of_le_length hlength, ih]
    · rw [if_neg hgroup, if_neg hgroup]

theorem spacedTail_before {s : Bytes} {after : Nat} (hafter : after ≤ s.length) (t : Bytes) :
    spacedTail (s ++ c :: t) after = spacedTail s after := by
  have hspace : c ≠ space := by rcases isBracket_cases hc with rfl | rfl <;> decide
  rw [spacedTail, spacedTail]
  rcases Nat.lt_or_eq_of_le hafter with hlt | rfl
  · have hnext : after + 1 ≤ s.length := hlt
    rw [List.getElem?_append_left hlt, List.drop_append_of_le_length hnext, takeWhile_before hc]
    have hrun : ((s.drop (after + 1)).takeWhile isIbanChar).length ≤ s.length - (after + 1) := by
      rw [← List.length_drop]
      exact (List.takeWhile_prefix _).length_le
    rw [lastBoundary_before hc (by omega)]
  · rw [List.getElem?_append_right (Nat.le_refl _), Nat.sub_self,
      List.getElem?_eq_none (Nat.le_refl _), if_neg (by simpa using hspace), if_neg (by simp)]

theorem spacedEnd_before {s : Bytes} {g : Nat} (hg : 4 + 5 * g ≤ s.length) (t : Bytes) :
    spacedEnd (s ++ c :: t) g = spacedEnd s g := by
  induction g with
  | zero => rfl
  | succ g ih =>
    by_cases htwo : g + 1 < 2
    · rw [spacedEnd, spacedEnd, if_pos htwo, if_pos htwo]
    · rw [spacedEnd_succ (by omega), spacedEnd_succ (by omega), spacedTail_before hc hg,
        isWordBoundary_before hc (by omega) hg, ih (by omega)]

theorem ibanCandidateEnd_before (prev : Option UInt8) (s t : Bytes) :
    ibanCandidateEnd prev (s ++ c :: t) = ibanCandidateEnd prev s := by
  have hupper : isAsciiUpper c = false := by rcases isBracket_cases hc with rfl | rfl <;> rfl
  have hdigit : isAsciiDigit c = false := by rcases isBracket_cases hc with rfl | rfl <;> rfl
  unfold ibanCandidateEnd
  split
  · rfl
  rcases s with _ | ⟨a, _ | ⟨b, _ | ⟨d, _ | ⟨e, rest⟩⟩⟩⟩
  · rcases t with _ | ⟨b, _ | ⟨d, _ | ⟨e, t⟩⟩⟩ <;> simp [hupper]
  · rcases t with _ | ⟨d, _ | ⟨e, t⟩⟩ <;> simp [hupper]
  · rcases t with _ | ⟨e, t⟩ <;> simp [hdigit]
  · simp [hdigit]
  · have hgroups : 5 * ibanGroups 7 rest ≤ rest.length := by
      by_contra hlong
      obtain ⟨x, hx, -⟩ := ibanGroups_spec (Nat.lt_of_not_le hlong)
      rw [Option.mem_def, List.getElem?_eq_none (Nat.le_refl _)] at hx
      exact absurd hx (by simp)
    have hrun := (List.takeWhile_prefix isIbanChar (l := rest)).length_le
    have hlow : 4 + min 30 (rest.takeWhile isIbanChar).length ≤
        (a :: b :: d :: e :: rest).length := by
      simp only [List.length_cons]
      omega
    have hhigh : 4 + 5 * ibanGroups 7 rest ≤ (a :: b :: d :: e :: rest).length := by
      simp only [List.length_cons]
      omega
    have hcompact := lastBoundary_before hc hlow 11 t
    have hspaced := spacedEnd_before hc hhigh t
    simp only [List.cons_append] at hcompact hspaced ⊢
    rw [takeWhile_before hc, ibanGroups_before hc, hcompact, hspaced]

theorem ibanPiece_barrier : Barrier ibanPiece c := by
  have hupper : isAsciiUpper c = false := by rcases isBracket_cases hc with rfl | rfl <;> rfl
  constructor
  · intro prev rest
    have hzero : ibanCandidateEnd prev (c :: rest) = 0 :=
      (ibanCandidateEnd_before hc prev [] rest).trans (by
        unfold ibanCandidateEnd
        split <;> rfl)
    rw [ibanPiece, hzero]
    rfl
  · intro prev d s
    have hfits := ibanCandidateEnd_le prev (d :: s)
    rw [List.length_cons] at hfits
    unfold ibanPiece
    dsimp only
    split
    · exact Nat.zero_le _
    split
    · exact Nat.sub_le_of_le_add hfits
    · exact Nat.sub_le_of_le_add hfits
  · intro prev d s t
    rw [ibanPiece, ibanPiece, ← List.cons_append, ibanCandidateEnd_before hc,
      List.take_append_of_le_length (ibanCandidateEnd_le prev (d :: s))]
  · intro d s
    have hprev : ibanCandidateEnd (some c) (d :: s) = ibanCandidateEnd none (d :: s) := by
      have hword := isWordChar_bracket hc
      simp only [ibanCandidateEnd, Option.map_some, Option.map_none, Option.getD_some,
        Option.getD_none, hword]
    rw [ibanPiece, ibanPiece, hprev]

/-! ## Card numbers -/

theorem cardRun_before (n separator : Nat) (s t : Bytes) :
    cardRun n separator (s ++ c :: t) = cardRun n separator s := by
  have hdigit : ¬ isAsciiDigit c = true := by rcases isBracket_cases hc with rfl | rfl <;> decide
  have hsep : (c == space || c == dash) = false :=
    by rcases isBracket_cases hc with rfl | rfl <;> rfl
  have hstop : ∀ n separator, cardRun n separator (c :: t) = (n, separator) := by
    intro n separator
    cases t with
    | nil => exact if_neg hdigit
    | cons d t =>
      rw [cardRun, if_neg hdigit, hsep, Bool.false_and, if_neg Bool.false_ne_true]
  induction n, separator, s using cardRun.induct with
  | case1 n separator d e rest hd ih =>
    rw [List.cons_append, List.cons_append, cardRun, cardRun, if_pos hd, if_pos hd, ← ih]
    rfl
  | case2 n separator d e rest hd hjoin ih =>
    rw [List.cons_append, List.cons_append, cardRun, cardRun, if_neg hd, if_neg hd, if_pos hjoin,
      if_pos hjoin, ih]
  | case3 n separator d e rest hd hjoin =>
    rw [List.cons_append, List.cons_append, cardRun, cardRun, if_neg hd, if_neg hd, if_neg hjoin,
      if_neg hjoin]
  | case4 n separator d hd =>
    rw [List.cons_append, List.nil_append, cardRun, cardRun, if_pos hd, if_pos hd, hstop]
  | case5 n separator d hd =>
    rw [List.cons_append, List.nil_append, cardRun, cardRun, if_neg hd, if_neg hd,
      if_neg (by simp [hdigit])]
  | case6 n separator => exact hstop n separator

theorem foundRun_before (prev : Option UInt8) (d : UInt8) (s t : Bytes) :
    foundRun prev d (s ++ c :: t) = foundRun prev d s := by
  rw [foundRun, foundRun]
  split
  · rfl
  · rename_i hstart
    have hd : isAsciiDigit d = true := not_not.mp (not_or.mp hstart).1
    obtain ⟨hend, hlast⟩ := cardRun_fits hd s
    have hlength : (d :: s).length = s.length + 1 := rfl
    rw [cardRun_before hc]
    simp only [← List.cons_append]
    rw [wordAhead_before hc (hlength ▸ hend), List.take_append_of_le_length (hlength ▸ hlast),
      List.take_append_of_le_length (hlength ▸ hend)]

theorem cardPiece_barrier : Barrier cardPiece c := by
  have hdigit : ¬ isAsciiDigit c = true := by rcases isBracket_cases hc with rfl | rfl <;> decide
  have hfits : ∀ prev d s, (cardPiece prev d s).2 = (foundRun prev d s).2 := by
    intro prev d s
    unfold cardPiece
    split <;> rename_i h <;> rw [h]
  constructor
  · intro prev rest
    rw [cardPiece, foundRun, if_pos (.inl hdigit)]
    rfl
  · intro prev d s
    rw [hfits]
    exact foundRun_fits prev d s
  · intro prev d s t
    have hlength := foundRun_fits prev d s
    rw [cardPiece, cardPiece, foundRun_before hc]
    split
    · rfl
    · rename_i n hfound
      rw [hfound] at hlength
      rw [← List.cons_append, List.take_append_of_le_length (Nat.succ_le_succ hlength)]
  · intro d s
    have hbehind : wordBehind (some c) = wordBehind none := isWordChar_bracket hc
    rw [cardPiece, cardPiece, foundRun, foundRun, hbehind]

end

/-! ## The whole pass -/

/-- The stages behind the one for IBANs. -/
def laterStages (s : Bytes) : Bytes :=
  scrubCardNumbers (patterns.foldl (fun current spec => applyPattern spec current) s)

theorem scrubString_eq (input : Bytes) : scrubString input = laterStages (scrubIbans input) := rfl

end ForgeOps.PiiScrubber
