import ForgeOpsTracker.CardNumbers
import ForgeOpsTracker.Lib.Regex

/-! The runs of digits `scrub_card_numbers` looks at are the matches of the expression its comment
names: the one separator it keeps in mind is where an engine that goes back comes to a stop. -/

namespace ForgeOps.PiiScrubber
open Regex

/-- `[ -]?\d` -/
def joinedDigit : Regex := seq (opt (set isSeparator)) (set isAsciiDigit)

/-- `(?:[ -]?\d)*(?![A-Za-z0-9_])` -/
def cardTail : Regex := seq (star joinedDigit) (notAhead isWordChar)

/-- `(?<![A-Za-z0-9_])\d(?:[ -]?\d)*(?![A-Za-z0-9_])` -/
def cardPattern : Regex := seq (notBehind isWordChar) (seq (set isAsciiDigit) cardTail)

/-- The runs with the places where they start. -/
def cardRunsAt (text : Bytes) : List (Nat × Bytes) := scanAt foundRun 0 0 none text

/-! ## One digit more -/

variable {prev : Option UInt8} {c sep : UInt8} {s : Bytes}

theorem joinedDigit_digit (hc : isAsciiDigit c = true) : joinedDigit.tries prev (c :: s) = [1] := by
  have hsep : isSeparator c = false := by
    by_contra hsep
    rw [not_isAsciiDigit_of_isSeparator (by simpa using hsep)] at hc
    exact absurd hc Bool.false_ne_true
  simp [joinedDigit, opt, tries, hc, hsep]

theorem joinedDigit_join (hsep : isSeparator sep = true) (hc : isAsciiDigit c = true) :
    joinedDigit.tries prev (sep :: c :: s) = [2] := by
  simp [joinedDigit, opt, tries, hc, hsep, not_isAsciiDigit_of_isSeparator hsep]

theorem joinedDigit_ended (h : Ended s) : joinedDigit.tries prev s = [] := by
  obtain ⟨hdigit, hjoin⟩ := h
  cases s with
  | nil => rfl
  | cons c s =>
    have hc : isAsciiDigit c = false := hdigit
    by_cases hsep : isSeparator c = true
    · have hnext : (s.head?.map isAsciiDigit).getD false = false := hjoin c s rfl hsep
      rw [List.head?_eq_getElem?] at hnext
      simp [joinedDigit, opt, tries, hc, hsep, hnext]
    · simp [joinedDigit, opt, tries, hc, hsep]

/-! ## The tail of a run -/

theorem cardTail_digit (hc : isAsciiDigit c = true) :
    cardTail.first prev (c :: s) = (cardTail.first (some c) s).map (1 + ·) := by
  rw [cardTail, first_star_seq, joinedDigit_digit hc, first_notAhead]
  simp [isWordChar_of_isAsciiDigit hc]

theorem cardTail_join (hsep : isSeparator sep = true) (hc : isAsciiDigit c = true) :
    cardTail.first prev (sep :: c :: s) =
      ((cardTail.first (some c) s).map (2 + ·)).or (some 0) := by
  rw [cardTail, first_star_seq, joinedDigit_join hsep hc, first_notAhead]
  simp [not_isWordChar_of_isSeparator hsep]

theorem cardTail_ended (h : Ended s) :
    cardTail.first prev s = if wordAhead s then none else some 0 := by
  rw [cardTail, first_star_seq, joinedDigit_ended h, first_notAhead]
  rfl

theorem cardTail_digits {g : Bytes} (hg : ∀ x ∈ g, isAsciiDigit x = true) :
    cardTail.first prev (g ++ s) = (cardTail.first (lastOr prev g) s).map (g.length + ·) := by
  induction g generalizing prev with
  | nil => simp
  | cons d g ih =>
    obtain ⟨hd, hg⟩ := List.forall_mem_cons.mp hg
    rw [List.cons_append, cardTail_digit hd, ih hg, Option.map_map, lastOr_cons, List.length_cons]
    congr 1
    funext k
    simp only [Function.comp_apply]
    omega

theorem ended_of_word (hdigit : digitAhead s = false) (hword : wordAhead s = true) : Ended s := by
  refine ⟨hdigit, fun sep t hs hsep => ?_⟩
  subst hs
  exact absurd hword (by simp [wordAhead, not_isWordChar_of_isSeparator hsep])

/-- Digits up to a word character have no end. -/
theorem cardTail_blocked {g : Bytes} (hg : ∀ x ∈ g, isAsciiDigit x = true)
    (hdigit : digitAhead s = false) (hword : wordAhead s = true) :
    cardTail.first prev (g ++ s) = none := by
  rw [cardTail_digits hg, cardTail_ended (ended_of_word hdigit hword), if_pos hword,
    Option.map_none]

/-- Where the tail can end behind a run, the run is taken up to there. -/
theorem cardTail_run {body : Bytes} {k : Nat} (hrun : DigitRun (c :: body))
    (hend : cardTail.first (lastOr (some c) body) s = some k) :
    cardTail.first (some c) (body ++ s) = some (body.length + k) := by
  generalize hw : c :: body = w at hrun
  induction hrun generalizing c body with
  | last _ =>
    obtain ⟨rfl, rfl⟩ := List.cons.inj hw
    simpa using hend
  | digit _ hs ih =>
    obtain ⟨rfl, rfl⟩ := List.cons.inj hw
    obtain ⟨d, body, rfl, hd⟩ := hs.head
    rw [lastOr_cons] at hend
    rw [List.cons_append, cardTail_digit hd, ih hend rfl]
    simp only [Option.map_some, List.length_cons]
    congr 1
    omega
  | join _ hsep hs ih =>
    obtain ⟨rfl, rfl⟩ := List.cons.inj hw
    obtain ⟨d, body, rfl, hd⟩ := hs.head
    rw [lastOr_cons, lastOr_cons] at hend
    rw [List.cons_append, List.cons_append, cardTail_join hsep hd, ih hend rfl]
    simp only [Option.map_some, List.length_cons, Option.some_or]
    congr 1
    omega

/-! ## A match -/

theorem cardPattern_first : cardPattern.first prev (c :: s) =
    if wordBehind prev ∨ isAsciiDigit c = false then none
    else (cardTail.first (some c) s).map (1 + ·) := by
  rw [cardPattern, first_notBehind_seq, first_seq, tries_set_cons]
  by_cases hprev : wordBehind prev = true
  · exact (if_pos hprev).trans (if_pos (Or.inl hprev)).symm
  · have hbehind : (prev.map isWordChar).getD false ≠ true := hprev
    rw [if_neg hbehind]
    by_cases hc : isAsciiDigit c = true
    · simp [hprev, hc]
    · simp [hc]

/-- A place with a word character before it, or without a digit. -/
theorem cardPattern_none (h : ¬ isAsciiDigit c ∨ wordBehind prev) :
    cardPattern.matchNext prev c s = (none, 0) := by
  apply matchNext_of_none
  rw [cardPattern_first, if_pos]
  rcases h with hc | hprev
  · exact .inr (by simpa using hc)
  · exact .inl hprev

/-- At every place the scan finds what the engine does, or passes over digits none of which starts a
match. -/
theorem foundRun_match (prev : Option UInt8) (c : UInt8) (rest : Bytes) :
    foundRun prev c rest = cardPattern.matchNext prev c rest ∨
      ∃ run more, rest = run ++ more ∧ foundRun prev c rest = (none, run.length) ∧
        ∀ u d v, c :: run = u ++ d :: v → cardPattern.matchNext (lastOr prev u) d (v ++ more) =
          (none, 0) := by
  by_cases hstart : ¬ isAsciiDigit c ∨ wordBehind prev
  · left
    rw [cardPattern_none hstart, foundRun, if_pos hstart]
  obtain ⟨hc, hprev⟩ := not_or.mp hstart
  rw [not_not] at hc
  rw [Bool.not_eq_true] at hprev
  have hfirst : ∀ {s : Bytes}, cardPattern.first prev (c :: s) =
      (cardTail.first (some c) s).map (1 + ·) := by
    intro s
    rw [cardPattern_first, if_neg (by simp [hprev, hc])]
  have hmatch : ∀ {body more : Bytes}, cardTail.first (some c) (body ++ more) = some body.length →
      cardPattern.matchNext prev c (body ++ more) = (some (c :: body), body.length) := by
    intro body more htail
    rw [matchNext_of_some (n := body.length) (by rw [hfirst, htail, Option.map_some, Nat.add_comm]),
      List.take_succ_cons, List.take_left]
  have hfound := foundRun_at hc hprev rest
  generalize foundRun prev c rest = found at hfound
  cases hfound with
  | whole hrun hend hword =>
    left
    exact (hmatch (cardTail_run (k := 0) hrun (by rw [cardTail_ended hend, hword]; rfl))).symm
  | @cut head tail after sep hrun hsep hne htail hend hword =>
    left
    -- behind the separator there are only digits, up to a word character
    obtain ⟨d, tail, rfl⟩ := List.exists_cons_of_ne_nil hne
    obtain ⟨hd, htail⟩ := List.forall_mem_cons.mp htail
    have hback : cardTail.first (lastOr (some c) head) (sep :: (d :: tail ++ after)) = some 0 := by
      rw [List.cons_append, cardTail_join hsep hd, cardTail_blocked htail hend hword]
      rfl
    exact (hmatch (cardTail_run hrun hback)).symm
  | @none body after hdigits hend hword =>
    right
    refine ⟨body, after, rfl, rfl, fun u d v hu => ?_⟩
    cases u with
    | nil =>
      obtain ⟨rfl, rfl⟩ := List.cons.inj hu
      apply matchNext_of_none
      rw [lastOr_nil, hfirst, cardTail_blocked hdigits hend hword, Option.map_none]
    | cons x u =>
      -- a digit stands before every later one
      apply cardPattern_none
      right
      refine wordBehind_of_digits (List.cons_ne_nil x u) fun y hy => ?_
      have hmem : y ∈ c :: body := by
        rw [hu]
        exact List.mem_append_left _ hy
      rcases List.mem_cons.mp hmem with rfl | hmem
      · exact hc
      · exact hdigits y hmem

/-- The runs that are looked at are the matches of the expression, each at its place, and what lies
outside them is copied. -/
theorem cardRuns_matches (text : Bytes) : cardRunsAt text = cardPattern.matchesIn text ∧
    scrubCardNumbers text =
      splice (fun run => scrubCardNumbersIn run.length run) 0
        (cardPattern.matchesIn text) text := by
  have hruns : cardRunsAt text = cardPattern.matchesIn text :=
    scanAt_eq_of_runs foundRun_fits foundRun_match 0 none text
  refine ⟨hruns, ?_⟩
  rw [← hruns, scrubCardNumbers_eq]
  refine pass_eq_splice foundRun_fits (fun _ _ _ _ _ h => (foundRun_run h).1)
    (fun prev c rest => ?_) text
  rw [cardPiece]
  generalize foundRun prev c rest = found
  obtain ⟨run, n⟩ := found
  cases run <;> rfl

example : cardRunsAt (ascii "7-12 3x 4 5") = [(0, ascii "7-12"), (8, ascii "4 5")] := by decide

end ForgeOps.PiiScrubber
