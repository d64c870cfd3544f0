import ForgeOpsTracker.ScrubStages

/-! The loop of `apply_pattern` with its two cursors: up to `cursor` the text is written out, and
from `search` on the next match is looked for. It ends, and gives what a scanner does that decides
at every byte whether a match starts there. -/

namespace ForgeOps.PiiScrubber

/-- `regexec` of an expression without anchors: where the leftmost match starts and where the
longest of those that start there ends. -/
def regexec (e : Ere) : Bytes → Option (Nat × Nat)
  | [] => (e.longest []).map fun n => (0, n)
  | c :: s =>
    match e.longest (c :: s) with
    | some n => some (0, n)
    | none => (regexec e s).map fun m => (m.1 + 1, m.2 + 1)

/-- `start > input && is_word_char(start[-1])` -/
def wordBefore (input : Bytes) (start : Nat) : Bool :=
  0 < start && ((input[start - 1]?).map isWordChar).getD false

structure Cursors where
  cursor : Nat
  search : Nat
  out : Bytes
  deriving DecidableEq, Repr

/-- After a turn the loop goes on, or it is left. -/
inductive Turn
  | again (l : Cursors)
  | left (l : Cursors)
  deriving DecidableEq, Repr

def turn (spec : PatternSpec) (input : Bytes) (l : Cursors) : Turn :=
  match regexec spec.pattern (input.drop l.search) with
  | none => .left l
  | some (so, eo) =>
    let start := l.search + so
    let stop := l.search + eo
    if spec.wordBounded ∧ (wordBefore input start ∨ wordAhead (input.drop stop)) then
      if input.length ≤ start then .left l else .again { l with search := start + 1 }
    else
      let out := l.out ++ (input.drop l.cursor).take (start - l.cursor) ++ filtered spec.label
      if start = stop then
        match input[stop]? with
        | none => .left { l with out := out }
        | some c => .again ⟨stop + 1, stop + 1, out ++ [c]⟩
      else .again ⟨stop, stop, out⟩

/-- The loop and what is appended behind it; `none` when it is not left within that many turns. -/
def loop (spec : PatternSpec) (input : Bytes) : Nat → Cursors → Option Bytes
  | 0, _ => none
  | fuel + 1, l =>
    match turn spec input l with
    | .again l => loop spec input fuel l
    | .left l => some (l.out ++ input.drop l.cursor)

/-- `apply_pattern` within a number of turns. -/
def applyPatternIn (fuel : Nat) (spec : PatternSpec) (input : Bytes) : Option Bytes :=
  loop spec input fuel ⟨0, 0, []⟩

/-! ## What is found -/

/-- A match found stands behind places where there is none. -/
theorem regexec_cases (e : Ere) (s : Bytes) :
    regexec e s = none ∧ (∀ u v, s = u ++ v → e.longest v = none) ∨
      ∃ run t n,
        s = run ++ t ∧ e.longest t = some n ∧ regexec e s = some (run.length, run.length + n) ∧
        ∀ u v, run = u ++ v → v ≠ [] → e.longest (v ++ t) = none := by
  induction s with
  | nil =>
    cases h : e.longest [] with
    | none =>
      refine .inl ⟨by rw [regexec, h]; rfl, fun u v huv => ?_⟩
      rw [(List.append_eq_nil_iff.mp huv.symm).2, h]
    | some n =>
      refine .inr ⟨[], [], n, rfl, h, by rw [regexec, h]; simp, fun u v huv hv => ?_⟩
      exact absurd (List.append_eq_nil_iff.mp huv.symm).2 hv
  | cons c s ih =>
    cases h : e.longest (c :: s) with
    | some n =>
      refine .inr ⟨[], c :: s, n, rfl, h, by rw [regexec, h]; simp, fun u v huv hv => ?_⟩
      exact absurd (List.append_eq_nil_iff.mp huv.symm).2 hv
    | none =>
      rcases ih with ⟨hnone, hall⟩ | ⟨run, t, n, rfl, hlongest, hfound, hbefore⟩
      · refine .inl ⟨by rw [regexec, h]; simp [hnone], fun u v huv => ?_⟩
        cases u with
        | nil => rwa [← (show c :: s = v from huv)]
        | cons d u => exact hall u v (List.cons.inj huv).2
      · refine .inr ⟨c :: run, t, n, rfl, hlongest, ?_, fun u v huv hv => ?_⟩
        · rw [regexec, h]
          simp only [hfound, Option.map_some, List.length_cons]
          congr 2
          omega
        · cases u with
          | nil => rwa [← (show c :: run = v from huv)]
          | cons d u => exact hbefore u v (List.cons.inj huv).2 hv

theorem wordBefore_append (u t : Bytes) :
    wordBefore (u ++ t) u.length = wordBehind (lastOr none u) := by
  cases u using List.reverseRecOn with
  | nil => rfl
  | append_singleton u c => simp [wordBefore, wordBehind, lastOr]

/-- No match of a pattern is empty. -/
theorem longest_ne_zero {spec : PatternSpec} (hspec : spec ∈ patterns) (s : Bytes) :
    spec.pattern.longest s ≠ some 0 := by
  intro h
  have hnil : ∀ spec ∈ patterns, spec.pattern.longest [] = none := by decide
  have hmatch := (Ere.longest_eq_some.mp h).1.2
  rw [List.take_zero] at hmatch
  exact Ere.longest_eq_none.mp (hnil spec hspec) [] (List.nil_prefix) hmatch

/-! ## What a turn does -/

section
variable {spec : PatternSpec} (hne : ∀ s, spec.pattern.longest s ≠ some 0)

/-- How far the loop has come: `passed` is written out, `waiting` was searched without a match, and
a scanner would go on from there. -/
structure Reached (spec : PatternSpec) (input : Bytes) (l : Cursors)
    (passed waiting rest : Bytes) : Prop where
  input_eq : input = passed ++ waiting ++ rest
  cursor_eq : l.cursor = passed.length
  search_eq : l.search = passed.length + waiting.length
  pass_eq : applyPattern spec input = l.out ++ waiting ++
    (scan (patternPiece spec) 0 (lastOr none (passed ++ waiting)) rest).flatten

theorem reached_start (input : Bytes) : Reached spec input ⟨0, 0, []⟩ [] [] input :=
  ⟨rfl, rfl, rfl, rfl⟩

theorem Reached.drop_search {input : Bytes} {l : Cursors} {passed waiting rest : Bytes}
    (h : Reached spec input l passed waiting rest) : input.drop l.search = rest := by
  rw [h.input_eq, h.search_eq, ← List.length_append, List.drop_left]

/-- Where no match starts, bytes are copied. -/
theorem scan_before (prev : Option UInt8) {run t : Bytes}
    (h : ∀ u v, run = u ++ v → v ≠ [] → spec.pattern.longest (v ++ t) = none) :
    (scan (patternPiece spec) 0 prev (run ++ t)).flatten =
      run ++ (scan (patternPiece spec) 0 (lastOr prev run) t).flatten := by
  refine scan_copied prev run t fun u d v hu => ?_
  have hnone := h u (d :: v) hu (List.cons_ne_nil d v)
  rw [List.cons_append] at hnone
  rw [patternPiece, hnone]

/-- A turn that finds a match passes over its first byte, or over all of it and writes. -/
theorem turn_found {input : Bytes} {l : Cursors} {passed waiting run m after : Bytes} {c : UInt8}
    (h : Reached spec input l passed waiting (run ++ c :: (m ++ after)))
    (hfound : regexec spec.pattern (run ++ c :: (m ++ after)) =
      some (run.length, run.length + (m.length + 1))) :
    turn spec input l =
      if spec.wordBounded ∧ (wordBehind (lastOr none (passed ++ waiting ++ run)) ∨
      wordAhead after) then
        .again { l with search := l.search + run.length + 1 }
      else
        .again ⟨l.search + (run.length + (m.length + 1)), l.search + (run.length + (m.length + 1)),
          l.out ++ (waiting ++ run) ++ filtered spec.label⟩ := by
  have hinput : input = passed ++ waiting ++ run ++ (c :: m ++ after) := by
    rw [h.input_eq]
    simp only [List.append_assoc, List.cons_append]
  have hstart : l.search + run.length = (passed ++ waiting ++ run).length := by
    rw [h.search_eq]
    simp only [List.length_append]
  have hbehind : wordBefore input (l.search + run.length) =
      wordBehind (lastOr none (passed ++ waiting ++ run)) := by
    rw [hstart, hinput, wordBefore_append]
  have hafter : input.drop (l.search + (run.length + (m.length + 1))) = after := by
    have hstop : l.search + (run.length + (m.length + 1)) =
        (passed ++ waiting ++ run ++ c :: m).length := by
      rw [← Nat.add_assoc, hstart, @List.length_append _ _ (c :: m), List.length_cons]
    rw [hstop, hinput, ← List.append_assoc, List.drop_left]
  have hinside : ¬ input.length ≤ l.search + run.length := by
    rw [hstart, hinput, @List.length_append _ _ (c :: m ++ after), List.cons_append,
      List.length_cons]
    omega
  have hnonempty : l.search + run.length ≠ l.search + (run.length + (m.length + 1)) := by omega
  have hwritten : (input.drop l.cursor).take (l.search + run.length - l.cursor) =
      waiting ++ run := by
    have hlength : passed.length + waiting.length + run.length - passed.length =
        (waiting ++ run).length := by
      rw [List.length_append]
      omega
    rw [hinput, h.cursor_eq, h.search_eq, hlength, List.append_assoc passed,
      List.append_assoc passed, List.drop_left, List.take_left]
  rw [turn, h.drop_search, hfound]
  simp only [hbehind, hafter, if_neg hinside, if_neg hnonempty, hwritten]

include hne

/-- A turn goes on behind where it searched, or the text is complete. -/
theorem turn_cases {input : Bytes} {l : Cursors} {passed waiting rest : Bytes}
    (h : Reached spec input l passed waiting rest) :
    (∃ l' passed' waiting' rest', turn spec input l = .again l' ∧
        Reached spec input l' passed' waiting' rest' ∧ l.search < l'.search) ∨
      turn spec input l = .left l ∧ applyPattern spec input = l.out ++ input.drop l.cursor := by
  rcases regexec_cases spec.pattern rest with ⟨hnone, hall⟩ |
    ⟨run, t, n, rfl, hlongest, hfound, hbefore⟩
  · right
    have hcopied := scan_before (lastOr none (passed ++ waiting)) (t := []) fun u v huv _ =>
      (List.append_nil v).symm ▸ hall u v huv
    rw [List.append_nil, scan_nil] at hcopied
    refine ⟨by rw [turn, h.drop_search, hnone], ?_⟩
    rw [h.pass_eq, hcopied, h.input_eq, h.cursor_eq, List.append_assoc, List.append_assoc passed,
      List.drop_left]
    simp
  · left
    obtain ⟨n, rfl⟩ := Nat.exists_eq_succ_of_ne_zero fun hzero => hne t (hzero ▸ hlongest)
    have hfits := (Ere.longest_eq_some.mp hlongest).1.1
    obtain ⟨c, t, rfl⟩ := List.exists_cons_of_length_pos (Nat.lt_of_lt_of_le (Nat.succ_pos n) hfits)
    obtain ⟨m, after, rfl, rfl⟩ : ∃ m after, t = m ++ after ∧ m.length = n :=
      ⟨t.take n, t.drop n, (List.take_append_drop n t).symm,
        List.length_take_of_le (Nat.le_of_succ_le_succ hfits)⟩
    have hrest : (c :: (m ++ after)).drop (m.length + 1) = after :=
      by rw [List.drop_succ_cons, List.drop_left]
    have hpass := h.pass_eq
    rw [scan_before _ hbefore, ← lastOr_append, scan, patternPiece, hlongest] at hpass
    simp only [Nat.succ_eq_add_one, hrest] at hpass
    rw [turn_found h hfound]
    by_cases hbounded : spec.wordBounded = true ∧
        (wordBehind (lastOr none (passed ++ waiting ++ run)) = true ∨ wordAhead after = true)
    · -- no match starts here; the next one may start at the next byte
      rw [if_pos hbounded] at hpass ⊢
      refine ⟨_, passed, waiting ++ run ++ [c], m ++ after, rfl, ⟨?_, h.cursor_eq, ?_, ?_⟩, by
        dsimp only; omega⟩
      · rw [h.input_eq]
        simp only [List.append_assoc, List.cons_append, List.nil_append]
      · rw [h.search_eq]
        simp only [List.length_append, List.length_singleton]
        omega
      · rw [hpass]
        simp [lastOr_append, List.append_assoc]
    · -- the match gives way, and both cursors stand behind it
      rw [if_neg hbounded] at hpass ⊢
      have hstop : l.search + (run.length + (m.length + 1)) =
          (passed ++ waiting ++ run ++ c :: m).length := by
        rw [h.search_eq]
        simp only [List.length_append, List.length_cons]
        omega
      refine ⟨_, passed ++ waiting ++ run ++ c :: m, [], after, rfl, ⟨?_, hstop, hstop, ?_⟩, by
        dsimp only; omega⟩
      · rw [h.input_eq]
        simp only [List.append_assoc, List.cons_append, List.nil_append]
      · rw [hpass, List.flatten_cons, Nat.add_sub_cancel, scan_skip]
        simp [lastOr_append, List.append_assoc]

/-- Enough turns for the text complete it. -/
theorem loop_eq {input : Bytes} (fuel : Nat) {l : Cursors} {passed waiting rest : Bytes}
    (h : Reached spec input l passed waiting rest) (hfuel : input.length - l.search < fuel) :
    loop spec input fuel l = some (applyPattern spec input) := by
  induction fuel generalizing l passed waiting rest with
  | zero => exact absurd hfuel (Nat.not_lt_zero _)
  | succ fuel ih =>
    rcases turn_cases hne h with ⟨l', passed', waiting', rest', hturn, hreached,
      hlt⟩ | ⟨hturn, hpass⟩
    · have hle : l'.search ≤ input.length := by
        rw [hreached.search_eq, hreached.input_eq, List.length_append, List.length_append]
        omega
      rw [loop, hturn]
      exact ih hreached (by omega)
    · rw [loop, hturn, hpass]

/-- The loop ends, and what it gives is what is found byte by byte. -/
theorem applyPatternIn_eq (input : Bytes) {fuel : Nat} (hfuel : input.length < fuel) :
    applyPatternIn fuel spec input = some (applyPattern spec input) :=
  loop_eq hne fuel (reached_start input) (by simpa using hfuel)

end

end ForgeOps.PiiScrubber
