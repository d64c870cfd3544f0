import ForgeOpsTracker.PatternLoop
import ForgeOpsTracker.CardPattern
import ForgeOpsTracker.Lib.LongestFirst

/-! What `apply_pattern` does with the card pattern is the global replacement of the expression that
has the word boundaries in it. -/

namespace ForgeOps.PiiScrubber
open Regex

/-- `[0-9]{4}` -/
def fourDigits : Regex := Regex.exactly 4 (Regex.set Byte.isDigit)

/-- `[ -]` -/
def separator : Regex := Regex.set fun c => c == space || c == dash

/-- `[0-9]{4}[ -][0-9]{4}[ -][0-9]{4}[ -]` -/
def cardGroups : Regex :=
  seq (seq (seq (seq (seq fourDigits separator) fourDigits) separator) fourDigits) separator

/-- `\b[0-9]{4}[ -][0-9]{4}[ -][0-9]{4}[ -][0-9]{1,4}\b` -/
def formattedCard : Regex :=
  seq (boundary isWordChar)
    (seq cardGroups (seq (between 1 4 (Regex.set Byte.isDigit)) (boundary isWordChar)))

/-- The groups before the last. -/
def cardHead : Ere :=
  .seq (.seq (.seq (.seq (.seq (exactly 4 Byte.isDigit) spaceOrDash)
    (exactly 4 Byte.isDigit)) spaceOrDash) (exactly 4 Byte.isDigit)) spaceOrDash

theorem cardHead_agree : Agree cardHead cardGroups :=
  have hfour : Agree (exactly 4 Byte.isDigit) fourDigits := agree_exactly _ 4
  have hsep : Agree spaceOrDash separator := agree_set _
  ((((hfour.seq hsep).seq hfour).seq hsep).seq hfour).seq hsep

theorem cardHead_single : Single cardHead :=
  have hfour : Single (exactly 4 Byte.isDigit) := single_exactly _ 4
  have hsep : Single spaceOrDash := single_exactly _ 1
  ((((hfour.seq hsep).seq hfour).seq hsep).seq hfour).seq hsep

theorem lengths_seq_ne {a b : Ere} {s : Bytes} (h : (Ere.seq a b).lengths s ≠ []) :
    a.lengths s ≠ [] := by
  intro hnone
  apply h
  rw [Ere.lengths, hnone]
  rfl

/-- Where the groups stand, a digit stands. -/
theorem cardHead_word (s : Bytes) (h : cardHead.lengths s ≠ []) :
    (s.head?.map isWordChar).getD false = true := by
  have hfour : (exactly 4 Byte.isDigit).lengths s ≠ [] :=
    lengths_seq_ne (lengths_seq_ne (lengths_seq_ne (lengths_seq_ne (lengths_seq_ne h))))
  have hrun : 0 < runLength Byte.isDigit s := by
    by_contra hzero
    apply hfour
    rw [exactly, lengths_exactly, if_neg (by omega)]
  obtain ⟨c, rest, rfl, hc⟩ := head_drop_of_lt hrun
  exact isWordChar_of_isAsciiDigit hc

/-- At every place the longest match with its boundaries tested afterwards is the engine's. -/
theorem card_piece (prev : Option UInt8) (c : UInt8) (rest : Bytes) :
    patternPiece cardSpec prev c rest =
      formattedCard.replaceNext (filtered (ascii "CREDIT CARD")) prev c rest := by
  have hfirst : formattedCard.first prev (c :: rest) =
      (cardSpec.pattern.longest (c :: rest)).bind fun n =>
        if wordBehind prev = true ∨ wordAhead ((c :: rest).drop n) = true then none else some n :=
    first_bounded (fun c hc => isWordChar_of_isAsciiDigit hc) cardHead_agree cardHead_single
      cardHead_word Nat.one_pos (by decide) prev (c :: rest)
  cases hlongest : cardSpec.pattern.longest (c :: rest) with
  | none =>
    rw [hlongest, Option.bind_none] at hfirst
    rw [patternPiece, hlongest, replaceNext_of_none hfirst]
  | some n =>
    obtain ⟨n, rfl⟩ := Nat.exists_eq_succ_of_ne_zero fun hzero =>
      longest_ne_zero cardSpec_mem (c :: rest) (hzero ▸ hlongest)
    rw [hlongest, Option.bind_some] at hfirst
    rw [patternPiece, hlongest]
    by_cases hword : wordBehind prev = true ∨ wordAhead ((c :: rest).drop n.succ) = true
    · rw [if_pos hword] at hfirst
      rw [replaceNext_of_none hfirst]
      exact if_pos ⟨rfl, hword⟩
    · rw [if_neg hword] at hfirst
      rw [replaceNext_of_some hfirst]
      exact if_neg fun h => hword h.2

/-- The loop ends, and the text it gives is that of a global replacement. -/
theorem cardLoop_replaceAll (text : Bytes) (fuel : Nat) (h : text.length < fuel) :
    applyPatternIn fuel cardSpec text =
      some (formattedCard.replaceAll (filtered (ascii "CREDIT CARD")) text) := by
  have hpieces : patternPiece cardSpec =
      formattedCard.replaceNext (filtered (ascii "CREDIT CARD")) := by
    funext prev c rest
    exact card_piece prev c rest
  rw [applyPatternIn_eq (longest_ne_zero cardSpec_mem) text h, applyPattern_eq, hpieces, replaceAll]

theorem cardLoop_replaceAll_card :
    (ascii "pay 4242 4242 4242 4242a 4242-4242-4242-42").length < 50 ∧
      applyPatternIn 50 cardSpec (ascii "pay 4242 4242 4242 4242a 4242-4242-4242-42") =
        some (formattedCard.replaceAll (filtered (ascii "CREDIT CARD"))
          (ascii "pay 4242 4242 4242 4242a 4242-4242-4242-42")) :=
  ⟨by decide, cardLoop_replaceAll _ 50 (by decide)⟩

example : applyPatternIn 50 cardSpec (ascii "pay 4242 4242 4242 4242a 4242-4242-4242-42") =
    some (ascii "pay 4242 4242 4242 4242a [CREDIT CARD FILTERED]") := by decide +kernel

end ForgeOps.PiiScrubber
