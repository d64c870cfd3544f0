import ForgeOpsTracker.Ibans
import ForgeOpsTracker.Lib.Regex

/-! `iban_candidate_end` is the backtracking match of the expression its comment gives: each of its
loops gives back in the order in which an engine would. -/

namespace ForgeOps.PiiScrubber
open Regex

/-- ` [A-Z0-9]{4}` -/
def ibanGroup : Regex := seq (byte space) (Regex.exactly 4 (Regex.set isIbanChar))

/-- `(?: [A-Z0-9]{1,4})?` -/
def ibanTail : Regex := opt (seq (byte space) (between 1 4 (Regex.set isIbanChar)))

/-- `[A-Z0-9]{11,30}|(?: [A-Z0-9]{4}){2,7}(?: [A-Z0-9]{1,4})?` -/
def ibanBody : Regex :=
  alt (between 11 30 (Regex.set isIbanChar)) (seq (between 2 7 ibanGroup) ibanTail)

/-- `\b[A-Z]{2}\d{2}(?:[A-Z0-9]{11,30}|(?: [A-Z0-9]{4}){2,7}(?: [A-Z0-9]{1,4})?)\b` -/
def ibanPattern : Regex :=
  seq (boundary isWordChar) (seq (Regex.exactly 2 (Regex.set isAsciiUpper))
    (seq (Regex.exactly 2 (Regex.set isAsciiDigit)) (seq ibanBody (boundary isWordChar))))

/-- An end as the code hands it on, where 0 says that there is none. -/
def found (e : Nat) : Option Nat := if e = 0 then none else some e

theorem found_pos {e : Nat} (h : 0 < e) : found e = some e := if_neg (Nat.ne_of_gt h)

theorem found_or (e e' : Nat) : found (if e ≠ 0 then e else e') = (found e).or (found e') := by
  by_cases he : e = 0
  · simp [he, found]
  · simp [he, found]

/-! ## The last word boundary -/

/-- Going down from `k` finds what the first of the ends in that order is. -/
theorem found_lastBoundary (s : Bytes) (base k : Nat) {least : Nat} (hleast : 0 < least) :
    found (lastBoundary s base least k) =
      (((List.range' least (k + 1 - least)).reverse).map (base + ·)).find? (isWordBoundary s) := by
  induction k with
  | zero =>
    have hnone : 0 + 1 - least = 0 := by omega
    rw [hnone]
    rfl
  | succ k ih =>
    rw [lastBoundary]
    by_cases hk : k + 1 < least
    · have hnone : k + 1 + 1 - least = 0 := by omega
      rw [if_pos hk, hnone]
      rfl
    · rw [if_neg hk, range'_last (Nat.le_of_not_lt hk), List.reverse_append, List.reverse_singleton,
        List.singleton_append, List.map_cons, List.find?_cons, ← ih]
      by_cases hb : isWordBoundary s (base + (k + 1)) = true
      · rw [if_pos hb, hb]
        exact found_pos (Nat.succ_pos _)
      · rw [if_neg hb]
        simp [hb]

/-! ## The pieces of a candidate -/

variable (prev : Option UInt8) (s : Bytes)

theorem isIbanGroup_cons (c : UInt8) (t : Bytes) :
    isIbanGroup (c :: t) = true ↔ c = space ∧ 4 ≤ runLength isIbanChar t := by
  rcases t with _ | ⟨w, _ | ⟨x, _ | ⟨y, _ | ⟨z, t⟩⟩⟩⟩ <;>
    simp [isIbanGroup, succ_le_runLength, runLength_nil, and_assoc]

theorem ends_ibanGroup (e : Nat) :
    ibanGroup.ends prev s e = if isIbanGroup (s.drop e) then [e + 5] else [] := by
  have htries : ∀ prev t, ibanGroup.tries prev t = if isIbanGroup t then [5] else [] := by
    intro prev t
    cases t with
    | nil => rfl
    | cons c t =>
      rw [ibanGroup, tries_seq, byte, tries_set_cons]
      simp only [isIbanGroup_cons]
      by_cases hc : c = space
      · simp [hc, tries_exactly_set]
        split <;> rfl
      · simp [hc]
  rw [ends, htries]
  split <;> rfl

theorem turns_group (k e : Nat) : turns (fun e => isIbanGroup (s.drop e)) 5 k e =
    ibanGroups k (s.drop e) := by
  induction k generalizing e with
  | zero => rfl
  | succ k ih => rw [turns, ibanGroups, ih, List.drop_drop]

theorem ends_ibanTail (e : Nat) : ibanTail.ends prev s e =
    (if s[e]? = some space then
      ((List.range' 1 (min 4 ((s.drop (e + 1)).takeWhile isIbanChar).length + 1 - 1)).reverse).map
        (e + 1 + ·) else []) ++ [e] := by
  rw [ibanTail, ends_opt, ends_seq, ends_byte]
  congr 1
  split
  · rw [List.flatMap_singleton, ends_between_set isIbanChar prev s (by omega)]
    rfl
  · rfl

/-! ## The spaced form -/

theorem found_spacedTail (e : Nat) : found (spacedTail s e) =
    (if s[e]? = some space then
      ((List.range' 1 (min 4 ((s.drop (e + 1)).takeWhile isIbanChar).length + 1 - 1)).reverse).map
        (e + 1 + ·) else []).find? (isWordBoundary s) := by
  rw [spacedTail]
  split
  · exact found_lastBoundary s (e + 1) _ Nat.one_pos
  · rfl

theorem found_spacedEnd (groups : Nat) : found (spacedEnd s groups) =
    (((List.range' 2 (groups + 1 - 2)).reverse.map (4 + 5 * ·)).flatMap
      (ibanTail.ends prev s)).find? (isWordBoundary s) := by
  induction groups with
  | zero => rfl
  | succ groups ih =>
    by_cases htwo : groups + 1 < 2
    · have hnone : groups + 1 + 1 - 2 = 0 := by omega
      rw [spacedEnd, if_pos htwo, hnone]
      rfl
    · rw [spacedEnd_succ (Nat.le_of_not_lt htwo), found_or, found_spacedTail,
        range'_last (Nat.le_of_not_lt htwo), List.reverse_append, List.reverse_singleton,
        List.singleton_append, List.map_cons, List.flatMap_cons, List.find?_append, ends_ibanTail,
        List.find?_append, List.find?_singleton, Option.or_assoc]
      congr 1
      by_cases hb : isWordBoundary s (4 + 5 * (groups + 1)) = true
      · rw [if_pos hb, if_pos hb, found_pos (by omega)]
        rfl
      · rw [if_neg hb, if_neg hb, Option.none_or, ih]

/-! ## The candidate -/

theorem first_body {s : Bytes} (hfour : 4 ≤ s.length) :
    ((seq ibanBody (boundary isWordChar)).ends prev s 4).head? =
      (found (lastBoundary s 4 11 (min 30 ((s.drop 4).takeWhile isIbanChar).length))).or
        (found (spacedEnd s (ibanGroups 7 (s.drop 4)))) := by
  have hends : ∀ e ∈ ibanBody.ends prev s 4, 0 < e ∧ e ≤ s.length := by
    intro e he
    obtain ⟨n, hn, rfl⟩ := List.mem_map.mp he
    have hle := le_of_mem_tries hn
    rw [List.length_drop] at hle
    omega
  have hboundary : ((ibanBody.ends prev s 4).flatMap ((boundary isWordChar).ends prev s)).head? =
      (ibanBody.ends prev s 4).find? (isWordBoundary s) :=
      head_ends_boundary prev s isWordChar hends
  have hrun : runLength isIbanChar (s.drop 4) = ((s.drop 4).takeWhile isIbanChar).length := rfl
  rw [ends_seq, hboundary, ibanBody, ends_alt, List.find?_append,
    ends_between_set isIbanChar prev s (by omega), hrun, found_lastBoundary s 4 _ (by omega),
    ends_seq, ends_between (ends_ibanGroup prev s) (by omega), turns_group, found_spacedEnd prev]

/-- `[A-Z]{2}\d{2}` -/
def CountryAndCheck (s : Bytes) : Prop :=
  2 ≤ runLength isAsciiUpper s ∧ 2 ≤ runLength isAsciiDigit (s.drop 2)

instance : Decidable (CountryAndCheck s) := inferInstanceAs (Decidable (_ ∧ _))

theorem CountryAndCheck.length {s : Bytes} (h : CountryAndCheck s) : 4 ≤ s.length := by
  have hdigits : runLength isAsciiDigit (s.drop 2) ≤ (s.drop 2).length :=
    (List.takeWhile_prefix _).length_le
  have := h.2
  rw [List.length_drop] at hdigits
  omega

theorem ibanCandidateEnd_eq : ibanCandidateEnd prev s =
    if (prev.map isWordChar).getD false = false ∧ CountryAndCheck s then
      if lastBoundary s 4 11 (min 30 ((s.drop 4).takeWhile isIbanChar).length) ≠ 0 then
        lastBoundary s 4 11 (min 30 ((s.drop 4).takeWhile isIbanChar).length)
      else spacedEnd s (ibanGroups 7 (s.drop 4))
    else 0 := by
  unfold ibanCandidateEnd
  by_cases hprev : (prev.map isWordChar).getD false = true
  · rw [if_pos hprev, if_neg (by simp [hprev])]
  · rw [if_neg hprev]
    rcases s with _ | ⟨a, _ | ⟨b, _ | ⟨c, _ | ⟨d, rest⟩⟩⟩⟩ <;>
      simp [hprev, CountryAndCheck, succ_le_runLength, runLength_nil, and_assoc]

theorem ends_countryAndCheck (r : Regex) :
    (seq (Regex.exactly 2 (Regex.set isAsciiUpper))
      (seq (Regex.exactly 2 (Regex.set isAsciiDigit)) r)).ends prev s 0 =
      if CountryAndCheck s then r.ends prev s 4 else [] := by
  rw [ends_seq, ends_exactly_set, List.drop_zero]
  by_cases hupper : 2 ≤ runLength isAsciiUpper s
  · rw [if_pos hupper, List.flatMap_singleton, ends_seq, ends_exactly_set]
    by_cases hdigit : 2 ≤ runLength isAsciiDigit (s.drop 2)
    · rw [if_pos hdigit, if_pos ⟨hupper, hdigit⟩, List.flatMap_singleton]
    · rw [if_neg hdigit, if_neg fun h => hdigit h.2]
      rfl
  · rw [if_neg hupper, if_neg fun h => hupper h.1]
    rfl

/-- Before a capital letter the boundary asks only for the byte behind. -/
theorem ends_startBoundary {s : Bytes} (h : CountryAndCheck s) :
    (boundary isWordChar).ends prev s 0 =
      if (prev.map isWordChar).getD false = false then [0] else [] := by
  cases s with
  | nil => exact absurd h.length (by decide)
  | cons c t =>
    have hupper := ((succ_le_runLength _ _ _ _).mp h.1).1
    have hc : isWordChar c = true := by simp [isWordChar, isIbanChar, hupper]
    rw [ends, tries]
    cases hprev : (prev.map isWordChar).getD false <;> simp [hc, hprev]

/-- Where the code finds an end the engine's match ends there, and where it finds none there is no
match. -/
theorem ibanPattern_first : ibanPattern.first prev s =
    if ibanCandidateEnd prev s = 0 then none else some (ibanCandidateEnd prev s) := by
  show _ = found (ibanCandidateEnd prev s)
  rw [first_eq_ends, ibanPattern, ends_seq, ibanCandidateEnd_eq]
  by_cases hhead : CountryAndCheck s
  · rw [ends_startBoundary prev hhead]
    by_cases hprev : (prev.map isWordChar).getD false = false
    · rw [if_pos hprev, if_pos ⟨hprev, hhead⟩, List.flatMap_singleton,
        ends_countryAndCheck, if_pos hhead, first_body prev hhead.length, found_or]
    · rw [if_neg hprev, if_neg fun h => hprev h.1]
      rfl
  · rw [if_neg fun h => hhead h.2, ends, tries]
    split
    · rw [List.map_singleton, List.flatMap_singleton, ends_countryAndCheck, if_neg hhead]
      rfl
    · rfl

end ForgeOps.PiiScrubber
