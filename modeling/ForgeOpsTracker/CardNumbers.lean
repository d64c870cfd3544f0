import Mathlib.Data.List.ReduceOption
import ForgeOpsTracker.PiiScrubber

/-! What the last stage of `forgeops_scrub_string` leaves of a text: no stretch of whole
groups in any run of digits it would look at again is a card number. -/

namespace ForgeOps.PiiScrubber

/-! ## Runs of digits -/

def isSeparator (c : UInt8) : Bool := c == space || c == dash

/-- Digits joined by single spaces or dashes. -/
inductive DigitRun : Bytes → Prop
  | last {c : UInt8} (h : isAsciiDigit c) : DigitRun [c]
  | digit {c : UInt8} {s : Bytes} (h : isAsciiDigit c) (hs : DigitRun s) : DigitRun (c :: s)
  | join {c sep : UInt8} {s : Bytes} (h : isAsciiDigit c) (hsep : isSeparator sep)
      (hs : DigitRun s) : DigitRun (c :: sep :: s)

def digitAhead (s : Bytes) : Bool := (s.head?.map isAsciiDigit).getD false

def wordBehind (prev : Option UInt8) : Bool := (prev.map isWordChar).getD false

theorem isWordChar_of_isAsciiDigit {c : UInt8} (h : isAsciiDigit c = true) :
    isWordChar c = true := by
  simp [isWordChar, isIbanChar, h]

theorem isSeparator_cases {c : UInt8} (h : isSeparator c = true) : c = 32 ∨ c = 45 := by
  simpa [isSeparator, space, dash] using h

theorem not_isAsciiDigit_of_isSeparator {c : UInt8} (h : isSeparator c = true) :
    isAsciiDigit c = false := by
  rcases isSeparator_cases h with rfl | rfl <;> rfl

theorem not_isWordChar_of_isSeparator {c : UInt8} (h : isSeparator c = true) :
    isWordChar c = false := by
  rcases isSeparator_cases h with rfl | rfl <;> rfl

/-- What may follow a group in a run. -/
def RunEnd (rest : Bytes) : Prop :=
  rest = [] ∨ ∃ sep s, rest = sep :: s ∧ isSeparator sep = true ∧ DigitRun s

namespace DigitRun

variable {s : Bytes}

theorem head (h : DigitRun s) : ∃ c rest, s = c :: rest ∧ isAsciiDigit c = true := by
  cases h with
  | last h => exact ⟨_, _, rfl, h⟩
  | digit h _ => exact ⟨_, _, rfl, h⟩
  | join h _ _ => exact ⟨_, _, rfl, h⟩

theorem ne_nil (h : DigitRun s) : s ≠ [] := by
  obtain ⟨c, rest, rfl, -⟩ := h.head
  exact List.cons_ne_nil c rest

theorem mem {c : UInt8} (h : DigitRun s) (hc : c ∈ s) :
    isAsciiDigit c = true ∨ isSeparator c = true := by
  induction h with
  | last h =>
    obtain rfl := List.mem_singleton.mp hc
    exact .inl h
  | digit h _ ih =>
    rcases List.mem_cons.mp hc with rfl | hc
    · exact .inl h
    · exact ih hc
  | join h hsep _ ih =>
    rcases List.mem_cons.mp hc with rfl | hc
    · exact .inl h
    rcases List.mem_cons.mp hc with rfl | hc
    · exact .inr hsep
    · exact ih hc

theorem of_digits {g : Bytes} (hne : g ≠ []) (h : ∀ c ∈ g, isAsciiDigit c = true) : DigitRun g := by
  induction g with
  | nil => exact absurd rfl hne
  | cons c g ih =>
    obtain ⟨hc, hg⟩ := List.forall_mem_cons.mp h
    by_cases hnil : g = []
    · subst hnil
      exact .last hc
    · exact .digit hc (ih hnil hg)

theorem append_join {g : Bytes} {sep : UInt8} (hne : g ≠ []) (h : ∀ c ∈ g, isAsciiDigit c = true)
    (hsep : isSeparator sep = true) (hs : DigitRun s) : DigitRun (g ++ sep :: s) := by
  induction g with
  | nil => exact absurd rfl hne
  | cons c g ih =>
    obtain ⟨hc, hg⟩ := List.forall_mem_cons.mp h
    by_cases hnil : g = []
    · subst hnil
      exact .join hc hsep hs
    · exact .digit hc (ih hnil hg)

/-- A run is its first group, and behind a separator another run. -/
theorem groups (h : DigitRun s) : ∃ g rest, s = g ++ rest ∧ g ≠ [] ∧
    (∀ c ∈ g, isAsciiDigit c = true) ∧ RunEnd rest := by
  induction h with
  | @last c h => exact ⟨[c], [], rfl, by simp, by simpa using h, .inl rfl⟩
  | @digit c s h _ ih =>
    obtain ⟨g, rest, rfl, -, hg, hrest⟩ := ih
    exact ⟨c :: g, rest, rfl, by simp, List.forall_mem_cons.mpr ⟨h, hg⟩, hrest⟩
  | @join c sep s h hsep hs _ =>
    exact ⟨[c], sep :: s, rfl, by simp, by simpa using h, .inr ⟨sep, s, rfl, hsep, hs⟩⟩

/-- What is left of a run behind some of it. -/
theorem behind {s t : Bytes} (hs : s ≠ []) (ht : t ≠ []) (h : DigitRun (s ++ t)) :
    DigitRun t ∨ ∃ sep t', t = sep :: t' ∧ isSeparator sep = true ∧ DigitRun t' := by
  generalize hw : s ++ t = w at h
  induction h generalizing s with
  | last _ =>
    obtain ⟨c, s, rfl⟩ := List.exists_cons_of_ne_nil hs
    obtain ⟨-, hnil⟩ := List.cons.inj hw
    exact absurd (List.append_eq_nil_iff.mp hnil).2 ht
  | @digit _ w' _ hw' ih =>
    obtain ⟨c, s, rfl⟩ := List.exists_cons_of_ne_nil hs
    obtain ⟨-, heq⟩ := List.cons.inj hw
    by_cases hnil : s = []
    · subst hnil
      obtain rfl : t = w' := heq
      exact .inl hw'
    · exact ih hnil heq
  | @join c sep w' _ hsep hw' ih =>
    obtain ⟨c, s, rfl⟩ := List.exists_cons_of_ne_nil hs
    obtain ⟨-, heq⟩ := List.cons.inj hw
    cases s with
    | nil => exact .inr ⟨sep, w', heq, hsep, hw'⟩
    | cons d s =>
      obtain ⟨-, heq⟩ := List.cons.inj heq
      by_cases hnil : s = []
      · subst hnil
        obtain rfl : t = w' := heq
        exact .inl hw'
      · exact ih hnil heq

end DigitRun

theorem RunEnd.not_digitAhead {rest : Bytes} (h : RunEnd rest) : digitAhead rest = false := by
  rcases h with rfl | ⟨sep, s, rfl, hsep, -⟩
  · rfl
  · exact not_isAsciiDigit_of_isSeparator hsep

theorem RunEnd.drop {g rest : Bytes} (h : RunEnd rest) :
    (g ++ rest).drop (g.length + 1) = [] ∨ DigitRun ((g ++ rest).drop (g.length + 1)) := by
  rw [List.drop_append, Nat.add_sub_cancel_left, List.drop_of_length_le (Nat.le_succ _),
    List.nil_append]
  rcases h with rfl | ⟨sep, s, rfl, -, hs⟩
  · exact .inl rfl
  · exact .inr hs

theorem takeWhile_group {g rest : Bytes} (h : ∀ c ∈ g, isAsciiDigit c = true)
    (hrest : digitAhead rest = false) : (g ++ rest).takeWhile isAsciiDigit = g := by
  rw [List.takeWhile_append_of_pos h]
  cases rest with
  | nil => simp
  | cons c rest =>
    have hc : isAsciiDigit c = false := hrest
    rw [List.takeWhile_cons, hc, if_neg Bool.false_ne_true, List.append_nil]

/-- Two texts of a group and what is no digit have the same group. -/
theorem group_unique {g g' rest rest' : Bytes} (hg : ∀ c ∈ g, isAsciiDigit c = true)
    (hg' : ∀ c ∈ g', isAsciiDigit c = true) (hrest : digitAhead rest = false)
    (hrest' : digitAhead rest' = false) (h : g ++ rest = g' ++ rest') : g = g' ∧ rest = rest' := by
  have heq : g = g' := by rw [← takeWhile_group hg hrest, h, takeWhile_group hg' hrest']
  subst heq
  exact ⟨rfl, List.append_cancel_left h⟩

theorem digitAhead_of_separator {c : UInt8} {s : Bytes} (h : isSeparator c = true) :
    digitAhead (c :: s) = false := not_isAsciiDigit_of_isSeparator h

theorem digitAhead_of_not_wordAhead {s : Bytes} (h : wordAhead s = false) :
    digitAhead s = false := by
  cases s with
  | nil => rfl
  | cons c s =>
    have hc : isWordChar c = false := h
    show isAsciiDigit c = false
    by_contra hdigit
    rw [isWordChar_of_isAsciiDigit (by simpa using hdigit)] at hc
    exact absurd hc (by decide)

/-! ## What the loop over the groups of a run leaves -/

/-- No stretch of whole groups from the head on is a card number. -/
def NoCardAtHead (run : Bytes) : Prop :=
  ∀ p y, run = p ++ y → DigitRun p → digitAhead y = false →
    isCardNumber (p.filter isAsciiDigit) = false

theorem filter_group {g : Bytes} (h : ∀ c ∈ g, isAsciiDigit c = true) : g.filter isAsciiDigit = g :=
  List.filter_eq_self.mpr h

theorem filter_join {g s : Bytes} {sep : UInt8} (hg : ∀ c ∈ g, isAsciiDigit c = true)
    (hsep : isSeparator sep = true) :
    (g ++ sep :: s).filter isAsciiDigit = g ++ s.filter isAsciiDigit := by
  rw [List.filter_append, filter_group hg,
    List.filter_cons_of_neg (by simp [not_isAsciiDigit_of_isSeparator hsep])]

theorem isCardNumber_length {digits : Bytes} (h : maxCardDigits < digits.length) :
    isCardNumber digits = false := by
  have hlong : ¬ digits.length ≤ 19 := Nat.not_le_of_gt h
  simp [isCardNumber, hlong]

/-- With no end found, no stretch from here on makes the digits joined so far a card number. -/
theorem cardStretchEnd_eq_zero {groups taken found : Nat} {joined s : Bytes}
    (hs : s = [] ∨ DigitRun s) (hgroups : s.length ≤ groups)
    (h : cardStretchEnd groups taken joined found s = 0) :
    found = 0 ∧ ∀ p y, s = p ++ y → DigitRun p → digitAhead y = false →
      isCardNumber (joined ++ p.filter isAsciiDigit) = false := by
  induction groups generalizing taken joined found s with
  | zero =>
    obtain rfl := List.length_eq_zero_iff.mp (Nat.le_zero.mp hgroups)
    exact ⟨h, fun p y heq hp => absurd (List.append_eq_nil_iff.mp heq.symm).1 hp.ne_nil⟩
  | succ groups ih =>
    rcases hs with rfl | hs
    · exact ⟨h, fun p y heq hp => absurd (List.append_eq_nil_iff.mp heq.symm).1 hp.ne_nil⟩
    obtain ⟨g, rest, rfl, hne, hg, hrest⟩ := hs.groups
    have hgroup := takeWhile_group hg hrest.not_digitAhead
    have hlength : ((g ++ rest).drop (g.length + 1)).length ≤ groups := by
      rw [List.length_drop]
      omega
    rw [cardStretchEnd, if_neg hs.ne_nil] at h
    simp only [hgroup] at h
    -- every stretch from here on begins with the whole of this group
    have hstretch : ∀ p y, g ++ rest = p ++ y → DigitRun p → digitAhead y = false →
        p = g ∨ ∃ sep p', p = g ++ sep :: p' ∧ isSeparator sep = true ∧ DigitRun p' ∧
          (g ++ rest).drop (g.length + 1) = p' ++ y := by
      intro p y heq hp hy
      obtain ⟨gp, prest, rfl, -, hgp, hprest⟩ := hp.groups
      have hahead : digitAhead (prest ++ y) = false := by
        rcases hprest with rfl | ⟨sep, p', rfl, hsep, -⟩
        · exact hy
        · exact not_isAsciiDigit_of_isSeparator hsep
      rw [List.append_assoc] at heq
      obtain ⟨rfl, rfl⟩ := group_unique hg hgp hrest.not_digitAhead hahead heq
      rcases hprest with rfl | ⟨sep, p', rfl, hsep, hp'⟩
      · exact .inl (List.append_nil g)
      · refine .inr ⟨sep, p', rfl, hsep, hp', ?_⟩
        rw [List.drop_append, Nat.add_sub_cancel_left, List.drop_of_length_le (Nat.le_succ _)]
        rfl
    split at h
    · rename_i hlong
      refine ⟨h, fun p y heq hp hy => isCardNumber_length ?_⟩
      rcases hstretch p y heq hp hy with rfl | ⟨sep, p', rfl, -⟩
      · rw [List.length_append, filter_group hg]
        exact hlong
      · rw [List.length_append, List.filter_append, List.length_append, filter_group hg]
        omega
    · obtain ⟨hfound, hnone⟩ := ih hrest.drop hlength h
      have hcard : isCardNumber (joined ++ g) = false := by
        by_contra hcard
        rw [if_pos (by simpa using hcard)] at hfound
        exact absurd hfound (by have := List.length_pos_iff.mpr hne; omega)
      rw [if_neg (by simp [hcard])] at hfound
      refine ⟨hfound, fun p y heq hp hy => ?_⟩
      rcases hstretch p y heq hp hy with rfl | ⟨sep, p', rfl, hsep, hp', hdrop⟩
      · rw [filter_group hg]
        exact hcard
      · rw [filter_join hg hsep, ← List.append_assoc]
        exact hnone p' y hdrop hp' hy

/-- An end that is found is the end of a group, up to which the digits make a card number. -/
theorem cardStretchEnd_cases (groups taken found : Nat) (joined : Bytes) {s : Bytes}
    (hs : s = [] ∨ DigitRun s) :
    cardStretchEnd groups taken joined found s = found ∨
      ∃ p y, s = p ++ y ∧ DigitRun p ∧ RunEnd y ∧
        isCardNumber (joined ++ p.filter isAsciiDigit) = true ∧
        cardStretchEnd groups taken joined found s = taken + p.length := by
  induction groups generalizing taken joined found s with
  | zero => exact .inl rfl
  | succ groups ih =>
    rcases hs with rfl | hs
    · exact .inl rfl
    obtain ⟨g, rest, rfl, hne, hg, hrest⟩ := hs.groups
    rw [cardStretchEnd, if_neg hs.ne_nil]
    simp only [takeWhile_group hg hrest.not_digitAhead]
    split
    · exact .inl rfl
    rcases ih (taken + g.length + 1)
      (if isCardNumber (joined ++ g) then taken + g.length else found)
      (joined ++ g) hrest.drop with hsame | ⟨p, y, hdrop, hp, hy, hcard, hend⟩
    · rw [hsame]
      split
      · rename_i hcard
        exact .inr ⟨g, rest, rfl, .of_digits hne hg, hrest, by rwa [filter_group hg], rfl⟩
      · exact .inl rfl
    · rw [hend]
      rcases hrest with rfl | ⟨sep, s, rfl, hsep, -⟩
      · rw [List.append_nil, List.drop_of_length_le (Nat.le_succ _)] at hdrop
        exact absurd (List.append_eq_nil_iff.mp hdrop.symm).1 hp.ne_nil
      · rw [List.drop_append, Nat.add_sub_cancel_left,
          List.drop_of_length_le (Nat.le_succ _)] at hdrop
        obtain rfl : s = p ++ y := hdrop
        refine .inr ⟨g ++ sep :: p, y, by simp, .append_join hne hg hsep hp, hy, ?_, ?_⟩
        · rwa [filter_join hg hsep, ← List.append_assoc]
        · simp only [List.length_append, List.length_cons]
          omega

def cardMarker : Bytes := ascii "[CREDIT CARD FILTERED]"

/-- What scanning the groups of a run makes of it. -/
inductive Scrubbed : Bytes → Bytes → Prop
  | group {g : Bytes} (hne : g ≠ []) (hg : ∀ c ∈ g, isAsciiDigit c = true)
      (hnone : NoCardAtHead g) : Scrubbed g g
  | groupJoin {g s out : Bytes} {sep : UInt8} (hne : g ≠ []) (hg : ∀ c ∈ g, isAsciiDigit c = true)
      (hsep : isSeparator sep = true) (hnone : NoCardAtHead (g ++ sep :: s)) (h : Scrubbed s out) :
      Scrubbed (g ++ sep :: s) (g ++ sep :: out)
  | card {p : Bytes} : Scrubbed p cardMarker
  | cardJoin {p s out : Bytes} {sep : UInt8} (hsep : isSeparator sep = true) (h : Scrubbed s out) :
      Scrubbed (p ++ sep :: s) (cardMarker ++ sep :: out)

theorem scrubCardNumbersIn_scrubbed {size : Nat} {run : Bytes} (h : DigitRun run)
    (hsize : run.length ≤ size) : Scrubbed run (scrubCardNumbersIn size run) := by
  induction size generalizing run with
  | zero => exact absurd (List.length_eq_zero_iff.mp (Nat.le_zero.mp hsize)) h.ne_nil
  | succ size ih =>
    rw [scrubCardNumbersIn, if_neg h.ne_nil]
    rcases cardStretchEnd_cases run.length 0 0 [] (.inr h) with hzero | ⟨p, y, rfl, hp, hy, -, hend⟩
    · -- no stretch from the first group on is a card number
      have hnone : NoCardAtHead run := by
        intro p y heq hp hy
        simpa using (cardStretchEnd_eq_zero (.inr h) (Nat.le_refl _) hzero).2 p y heq hp hy
      obtain ⟨g, rest, rfl, hne, hg, hrest⟩ := h.groups
      simp only [hzero, ne_eq, not_true_eq_false, if_false, takeWhile_group hg hrest.not_digitAhead,
        List.drop_left]
      rcases hrest with rfl | ⟨sep, s, rfl, hsep, hs⟩
      · have hdrop : (g ++ []).drop (g.length + 1) = [] :=
          List.drop_of_length_le (by simp)
        have hnil : scrubCardNumbersIn size [] = [] := by cases size <;> rfl
        rw [hdrop, hnil]
        simp only [List.take_nil, List.append_nil] at hnone ⊢
        exact .group hne hg hnone
      · have hdrop : (g ++ sep :: s).drop (g.length + 1) = s := by
          rw [List.drop_append, Nat.add_sub_cancel_left, List.drop_of_length_le (Nat.le_succ _)]
          rfl
        have hlength : s.length ≤ size := by
          simp only [List.length_append, List.length_cons] at hsize
          omega
        rw [hdrop, show (sep :: s).take 1 = [sep] from rfl, List.append_assoc]
        exact .groupJoin hne hg hsep hnone (ih hs hlength)
    · have hpos : p.length ≠ 0 := fun hzero => hp.ne_nil (List.length_eq_zero_iff.mp hzero)
      rw [Nat.zero_add] at hend
      simp only [hend, if_pos hpos, List.drop_left]
      rcases hy with rfl | ⟨sep, s, rfl, hsep, hs⟩
      · have hdrop : (p ++ []).drop (p.length + 1) = [] :=
          List.drop_of_length_le (by simp)
        have hnil : scrubCardNumbersIn size [] = [] := by cases size <;> rfl
        rw [hdrop, hnil]
        exact .card
      · have hdrop : (p ++ sep :: s).drop (p.length + 1) = s := by
          rw [List.drop_append, Nat.add_sub_cancel_left, List.drop_of_length_le (Nat.le_succ _)]
          rfl
        have hlength : s.length ≤ size := by
          simp only [List.length_append, List.length_cons] at hsize
          omega
        rw [hdrop, show (sep :: s).take 1 = [sep] from rfl, List.append_assoc]
        exact .cardJoin hsep (ih hs hlength)

theorem cardMarker_no_digit {c : UInt8} (h : c ∈ cardMarker) : isAsciiDigit c = false := by
  have hall : cardMarker.all (fun c => !isAsciiDigit c) = true := by decide
  simpa using List.all_eq_true.mp hall c h

theorem cardMarker_ne {s b rest : Bytes} (hs : DigitRun s) : cardMarker ++ rest ≠ s ++ b := by
  intro heq
  obtain ⟨c, s, rfl, hc⟩ := hs.head
  obtain ⟨rfl, -⟩ := List.cons.inj heq
  exact absurd hc (by decide)

/-- A marker ends what can be read as a run, so the run was there before. -/
theorem Scrubbed.head {run out s b : Bytes} (h : Scrubbed run out) (heq : out = s ++ b)
    (hs : DigitRun s) (hb : digitAhead b = false) : ∃ y, run = s ++ y ∧ digitAhead y = false := by
  induction h generalizing s with
  | group _ _ _ => exact ⟨b, heq, hb⟩
  | @groupJoin g rest out sep hne hg hsep _ _ ih =>
    obtain ⟨gs, srest, rfl, -, hgs, hsrest⟩ := hs.groups
    have hahead : digitAhead (srest ++ b) = false := by
      rcases hsrest with rfl | ⟨sep, s, rfl, hsep, -⟩
      · exact hb
      · exact not_isAsciiDigit_of_isSeparator hsep
    rw [List.append_assoc] at heq
    obtain ⟨rfl, htail⟩ := group_unique hg hgs (digitAhead_of_separator hsep) hahead heq
    rcases hsrest with rfl | ⟨sep', s, rfl, -, hs'⟩
    · exact ⟨sep :: rest, by rw [List.append_nil], digitAhead_of_separator hsep⟩
    · obtain ⟨rfl, hout⟩ := List.cons.inj htail
      obtain ⟨y, rfl, hy⟩ := ih hout hs'
      exact ⟨y, by simp, hy⟩
  | card => exact absurd ((List.append_nil _).trans heq) (cardMarker_ne hs)
  | cardJoin _ _ _ => exact absurd heq (cardMarker_ne hs)

/-! ## Texts without a card number between two bytes that are no word characters -/

/-- No stretch of groups that stands between bytes which are no word characters is a card
number, `prev` being the byte before the text. -/
def Clean (prev : Option UInt8) (t : Bytes) : Prop :=
  ∀ a s b, t = a ++ s ++ b → DigitRun s → wordBehind (lastOr prev a) = false → wordAhead b = false →
    isCardNumber (s.filter isAsciiDigit) = false

theorem wordBehind_of_digits {prev : Option UInt8} {g : Bytes} (hne : g ≠ [])
    (h : ∀ c ∈ g, isAsciiDigit c = true) : wordBehind (lastOr prev g) = true := by
  rw [lastOr, List.getLast?_eq_some_getLast hne]
  exact isWordChar_of_isAsciiDigit (h _ (List.getLast_mem hne))

theorem not_run_of_not_digitAhead {s b : Bytes} (hs : DigitRun s) : digitAhead (s ++ b) = true := by
  obtain ⟨c, s, rfl, hc⟩ := hs.head
  exact hc

theorem Clean.nil (prev : Option UInt8) : Clean prev [] := by
  intro a s b heq hs
  rw [List.append_assoc] at heq
  exact absurd (List.append_eq_nil_iff.mp (List.append_eq_nil_iff.mp heq.symm).2).1 hs.ne_nil

/-- A byte in front that begins no stretch. -/
theorem Clean.cons {prev : Option UInt8} {c : UInt8} {t : Bytes} (h : Clean (some c) t)
    (hc : isAsciiDigit c = true → wordBehind prev = true) : Clean prev (c :: t) := by
  intro a s b heq hs hbehind hb
  cases a with
  | nil =>
    obtain ⟨d, s, rfl, hd⟩ := hs.head
    obtain ⟨rfl, -⟩ := List.cons.inj heq
    rw [lastOr_nil, hc hd] at hbehind
    exact absurd hbehind (by decide)
  | cons d a =>
    obtain ⟨rfl, htail⟩ := List.cons.inj heq
    rw [lastOr_cons] at hbehind
    exact h a s b htail hs hbehind hb

/-- The byte before a text matters only to a stretch at its head. -/
theorem Clean.change {prev prev' : Option UInt8} {t : Bytes} (h : Clean prev t)
    (hahead : digitAhead t = false) : Clean prev' t := by
  intro a s b heq hs hbehind hb
  cases a with
  | nil =>
    rw [heq, List.nil_append, not_run_of_not_digitAhead hs] at hahead
    exact absurd hahead (by decide)
  | cons x a =>
    rw [lastOr_cons] at hbehind
    exact h (x :: a) s b heq hs (by rwa [lastOr_cons]) hb

/-- Two texts, when no stretch that reaches into the second one ends there. -/
theorem Clean.append {prev prev' : Option UInt8} {p q : Bytes} (hp : Clean prev p)
    (hq : Clean prev' q) (hahead : digitAhead q = false)
    (hcross : ∀ s t b, s ≠ [] → t ≠ [] → s <:+ p → q = t ++ b → DigitRun (s ++ t) →
      wordAhead b = true) :
    Clean prev (p ++ q) := by
  intro a s b heq hs hbehind hb
  rw [List.append_assoc] at heq
  rcases List.append_eq_append_iff.mp heq with ⟨a', rfl, hrest⟩ | ⟨c, rfl, hrest⟩
  · rw [lastOr_append] at hbehind
    rw [← List.append_assoc] at hrest
    exact hq.change hahead a' s b hrest hs hbehind hb
  · rcases List.append_eq_append_iff.mp hrest with ⟨b', rfl, rfl⟩ | ⟨t, rfl, rfl⟩
    · apply hp a s b' (by rw [List.append_assoc]) hs hbehind
      cases b' with
      | nil => rfl
      | cons x b' => exact hb
    · by_cases hc : c = []
      · subst hc
        rw [List.nil_append] at hs
        rw [not_run_of_not_digitAhead hs] at hahead
        exact absurd hahead (by decide)
      by_cases ht : t = []
      · subst ht
        rw [List.append_nil] at hs ⊢
        exact hp a c [] (by simp) hs hbehind rfl
      rw [hcross c t b hc ht (List.suffix_append a c) rfl hs] at hb
      exact absurd hb (by decide)

theorem cardMarker_clean (prev : Option UInt8) : Clean prev cardMarker := by
  intro a s b heq hs
  obtain ⟨c, s, rfl, hc⟩ := hs.head
  rw [cardMarker_no_digit (heq ▸ by simp : c ∈ cardMarker)] at hc
  exact absurd hc (by decide)

theorem Scrubbed.clean {prev : Option UInt8} {run out : Bytes} (h : Scrubbed run out) :
    Clean prev out := by
  induction h generalizing prev with
  | @group g hne hg hnone =>
    intro a s b heq hs hbehind hb
    by_cases ha : a = []
    · subst ha
      exact hnone s b heq hs (digitAhead_of_not_wordAhead hb)
    · have hdigits : ∀ c ∈ a, isAsciiDigit c = true := fun c hc => hg c (by rw [heq]; simp [hc])
      rw [wordBehind_of_digits ha hdigits] at hbehind
      exact absurd hbehind (by decide)
  | @groupJoin g rest out sep hne hg hsep hnone h ih =>
    have htail : ∀ prev, Clean prev (sep :: out) := fun prev => ih.cons fun hdigit => by
      rw [not_isAsciiDigit_of_isSeparator hsep] at hdigit
      exact absurd hdigit (by decide)
    intro a s b heq hs hbehind hb
    by_cases ha : a = []
    · -- a stretch at the head of the run was tried from its first group on
      subst ha
      obtain ⟨y, hrun, hy⟩ := (Scrubbed.groupJoin hne hg hsep hnone h).head heq hs
        (digitAhead_of_not_wordAhead hb)
      exact hnone s y hrun hs hy
    · rw [List.append_assoc] at heq
      rcases List.append_eq_append_iff.mp heq with ⟨a', rfl, hrest⟩ | ⟨c, rfl, -⟩
      · rw [lastOr_append] at hbehind
        rw [← List.append_assoc] at hrest
        exact htail _ a' s b hrest hs hbehind hb
      · have hdigits : ∀ c ∈ a, isAsciiDigit c = true := fun c hc => hg c (by simp [hc])
        rw [wordBehind_of_digits ha hdigits] at hbehind
        exact absurd hbehind (by decide)
  | card => exact cardMarker_clean prev
  | @cardJoin p rest out sep hsep h ih =>
    have htail : Clean none (sep :: out) := ih.cons fun hdigit => by
      rw [not_isAsciiDigit_of_isSeparator hsep] at hdigit
      exact absurd hdigit (by decide)
    apply (cardMarker_clean prev).append htail (digitAhead_of_separator hsep)
    intro s t b hs ht hsuffix _ hrun
    obtain ⟨c, s, rfl⟩ := List.exists_cons_of_ne_nil hs
    obtain ⟨d, u, heq, hd⟩ := hrun.head
    obtain ⟨rfl, -⟩ := List.cons.inj heq
    rw [cardMarker_no_digit (hsuffix.subset List.mem_cons_self)] at hd
    exact absurd hd (by decide)

/-! ## The runs the scan finds -/

/-- The run that is found at `c`, if one is, and how many bytes behind `c` are passed over. -/
def foundRun (prev : Option UInt8) (c : UInt8) (rest : Bytes) : Option Bytes × Nat :=
  if ¬ isAsciiDigit c ∨ wordBehind prev then (none, 0)
  else
    let s := c :: rest
    let run := cardRun 1 0 rest
    if wordAhead (s.drop run.1) then
      if run.2 = 0 then (none, run.1 - 1) else (some (s.take run.2), run.2 - 1)
    else (some (s.take run.1), run.1 - 1)

/-- The maximal runs `scrub_card_numbers` finds in a text. -/
def cardRuns (text : Bytes) : List Bytes := (scan foundRun 0 none text).reduceOption

/-- The run's part of the output, or the bytes themselves when there is no run. -/
def cardPiece (prev : Option UInt8) (c : UInt8) (rest : Bytes) : Bytes × Nat :=
  match foundRun prev c rest with
  | (some run, n) => (scrubCardNumbersIn run.length run, n)
  | (none, n) => ((c :: rest).take (n + 1), n)

/-- Neither a digit follows nor a separator and a digit. -/
def Ended (after : Bytes) : Prop :=
  digitAhead after = false ∧
    ∀ sep s, after = sep :: s → isSeparator sep = true → digitAhead s = false

/-- What `cardRun` makes of the bytes behind a digit: all of the run, and its last separator. -/
theorem cardRun_spec {c : UInt8} (hc : isAsciiDigit c = true) (n separator : Nat) (rest : Bytes) :
    ∃ body after, rest = body ++ after ∧ (cardRun n separator rest).1 = n + body.length ∧
      DigitRun (c :: body) ∧ Ended after ∧
      (((∀ x ∈ body, isAsciiDigit x = true) ∧ (cardRun n separator rest).2 = separator) ∨
        ∃ head sep tail, body = head ++ sep :: tail ∧ DigitRun (c :: head) ∧
        isSeparator sep = true ∧ tail ≠ [] ∧ (∀ x ∈ tail, isAsciiDigit x = true) ∧
          (cardRun n separator rest).2 = n + head.length) := by
  induction n, separator, rest using cardRun.induct generalizing c with
  | case1 n separator d e rest hd ih =>
    obtain ⟨body, after, heq, hend, hrun, hended, hlast⟩ := ih hd
    refine ⟨d :: body, after, by rw [heq]; rfl, ?_, .digit hc hrun, hended, ?_⟩
    · rw [cardRun, if_pos hd, hend, List.length_cons]
      omega
    rw [cardRun, if_pos hd]
    rcases hlast with ⟨hdigits, hsep⟩ | ⟨head, sep, tail, rfl, hhead, hsep, hne, htail, hlast⟩
    · exact .inl ⟨List.forall_mem_cons.mpr ⟨hd, hdigits⟩, hsep⟩
    · refine .inr ⟨d :: head, sep, tail, rfl, .digit hc hhead, hsep, hne, htail, ?_⟩
      rw [hlast, List.length_cons]
      omega
  | case2 n separator d e rest hd hjoin ih =>
    rw [Bool.and_eq_true] at hjoin
    obtain ⟨body, after, heq, hend, hrun, hended, hlast⟩ := ih hjoin.2
    have hcond : (d == space || d == dash) && isAsciiDigit e := by simp [hjoin]
    refine ⟨d :: e :: body, after, by rw [heq]; rfl, ?_, .join hc hjoin.1 hrun, hended, .inr ?_⟩
    · rw [cardRun, if_neg hd, if_pos hcond, hend, List.length_cons, List.length_cons]
      omega
    rw [cardRun, if_neg hd, if_pos hcond]
    rcases hlast with ⟨hdigits, hsep⟩ | ⟨head, sep, tail, rfl, hhead, hsep, hne, htail, hlast⟩
    · exact ⟨[], d, e :: body, rfl, .last hc, hjoin.1, by simp,
        List.forall_mem_cons.mpr ⟨hjoin.2, hdigits⟩, hsep⟩
    · refine ⟨d :: e :: head, sep, tail, rfl, .join hc hjoin.1 hhead, hsep, hne, htail, ?_⟩
      rw [hlast, List.length_cons, List.length_cons]
      omega
  | case3 n separator d e rest hd hjoin =>
    refine ⟨[], d :: e :: rest, rfl, ?_, .last hc, ⟨by simpa [digitAhead] using hd, ?_⟩,
      .inl ⟨by simp, ?_⟩⟩
    · rw [cardRun, if_neg hd, if_neg hjoin]
      rfl
    · intro sep s heq hsep
      obtain ⟨rfl, rfl⟩ := List.cons.inj heq
      have hsep' : (d == space || d == dash) = true := hsep
      rw [hsep', Bool.true_and, Bool.not_eq_true] at hjoin
      exact hjoin
    · rw [cardRun, if_neg hd, if_neg hjoin]
  | case4 n separator d hd =>
    refine ⟨[d], [], rfl, ?_, .digit hc (.last hd), ⟨rfl, by simp⟩, .inl ⟨by simpa using hd, ?_⟩⟩
    · rw [cardRun, if_pos hd]
      rfl
    · rw [cardRun, if_pos hd]
  | case5 n separator d hd =>
    refine ⟨[], [d], rfl, ?_, .last hc, ⟨by simpa [digitAhead] using hd, ?_⟩, .inl ⟨by simp, ?_⟩⟩
    · rw [cardRun, if_neg hd]
      rfl
    · intro sep s heq _
      obtain ⟨-, rfl⟩ := List.cons.inj heq
      rfl
    · rw [cardRun, if_neg hd]
  | case6 n separator => exact ⟨[], [], rfl, rfl, .last hc, ⟨rfl, by simp⟩, .inl ⟨by simp, rfl⟩⟩

/-- The three ways a run can end: where no word character follows, cut back to before its last
separator, or not at all. -/
inductive FoundAt (c : UInt8) : Bytes → Option Bytes × Nat → Prop
  | whole {body after : Bytes} (hrun : DigitRun (c :: body)) (hend : Ended after)
      (hword : wordAhead after = false) : FoundAt c (body ++ after) (some (c :: body), body.length)
  | cut {head tail after : Bytes} {sep : UInt8} (hrun : DigitRun (c :: head))
      (hsep : isSeparator sep = true) (hne : tail ≠ []) (htail : ∀ x ∈ tail, isAsciiDigit x = true)
      (hend : digitAhead after = false) (hword : wordAhead after = true) :
      FoundAt c (head ++ sep :: (tail ++ after)) (some (c :: head), head.length)
  | none {body after : Bytes} (hbody : ∀ x ∈ body, isAsciiDigit x = true)
      (hend : digitAhead after = false) (hword : wordAhead after = true) :
      FoundAt c (body ++ after) (none, body.length)

theorem foundRun_at {prev : Option UInt8} {c : UInt8} (hc : isAsciiDigit c = true)
    (hprev : wordBehind prev = false) (rest : Bytes) : FoundAt c rest (foundRun prev c rest) := by
  obtain ⟨body, after, rfl, hend, hrun, hended, hlast⟩ := cardRun_spec hc 1 0 rest
  have hdrop : (c :: (body ++ after)).drop (1 + body.length) = after := by
    rw [Nat.add_comm, List.drop_succ_cons, List.drop_left]
  rw [foundRun, if_neg (by simp [hc, hprev])]
  simp only [hend, hdrop]
  split
  · rename_i hword
    rcases hlast with ⟨hdigits, hsep⟩ | ⟨head, sep, tail, rfl, hhead, hsep, hne, htail, hlast⟩
    · rw [if_pos hsep, Nat.add_sub_cancel_left]
      exact .none hdigits hended.1 hword
    · have htake : (c :: (head ++ sep :: tail ++ after)).take (1 + head.length) = c :: head := by
        rw [Nat.add_comm, List.take_succ_cons, List.append_assoc, List.take_left]
      rw [hlast, if_neg (by omega), htake, Nat.add_sub_cancel_left, List.append_assoc,
        List.cons_append]
      exact .cut hhead hsep hne htail hended.1 hword
  · rename_i hword
    have htake : (c :: (body ++ after)).take (1 + body.length) = c :: body := by
      rw [Nat.add_comm, List.take_succ_cons, List.take_left]
    rw [htake, Nat.add_sub_cancel_left]
    exact .whole hrun hended (by simpa using hword)

theorem cardRun_fits {d : UInt8} (hd : isAsciiDigit d = true) (rest : Bytes) :
    (cardRun 1 0 rest).1 ≤ rest.length + 1 ∧ (cardRun 1 0 rest).2 ≤ rest.length + 1 := by
  obtain ⟨body, after, rfl, hend, -, -, hlast⟩ := cardRun_spec hd 1 0 rest
  rw [hend, List.length_append]
  refine ⟨by omega, ?_⟩
  rcases hlast with ⟨-, hzero⟩ | ⟨head, sep, tail, rfl, -, -, -, -, hsep⟩
  · rw [hzero]
    exact Nat.zero_le _
  · rw [hsep, List.length_append]
    omega

theorem foundRun_fits (prev : Option UInt8) (d : UInt8) (rest : Bytes) :
    (foundRun prev d rest).2 ≤ rest.length := by
  by_cases hstart : ¬ isAsciiDigit d ∨ wordBehind prev
  · rw [foundRun, if_pos hstart]
    exact Nat.zero_le _
  · obtain ⟨hd, hprev⟩ := not_or.mp hstart
    rw [not_not] at hd
    rw [Bool.not_eq_true] at hprev
    have hat := foundRun_at hd hprev rest
    generalize foundRun prev d rest = found at hat ⊢
    cases hat with
    | whole _ _ _ => simp
    | cut _ _ _ _ _ _ => simp
    | none _ _ _ => simp

/-- A run that is found is what is passed over, digits and separators. -/
theorem foundRun_run {prev : Option UInt8} {c : UInt8} {rest run : Bytes} {n : Nat}
    (h : foundRun prev c rest = (some run, n)) : run = (c :: rest).take (n + 1) ∧ DigitRun run := by
  by_cases hstart : ¬ isAsciiDigit c ∨ wordBehind prev
  · rw [foundRun, if_pos hstart] at h
    exact absurd h (by simp)
  obtain ⟨hc, hprev⟩ := not_or.mp hstart
  rw [not_not] at hc
  rw [Bool.not_eq_true] at hprev
  have hat := foundRun_at hc hprev rest
  rw [h] at hat
  cases hat with
  | whole hrun _ _ => exact ⟨by rw [List.take_succ_cons, List.take_left], hrun⟩
  | cut hrun _ _ _ _ _ => exact ⟨by rw [List.take_succ_cons, List.take_left], hrun⟩

/-! ## The output of the scan -/

theorem scrubCardNumbers_eq : scrubCardNumbers = pass cardPiece := by
  unfold scrubCardNumbers
  congr 1
  funext prev c rest
  by_cases hstart : ¬ isAsciiDigit c ∨ wordBehind prev
  · rw [cardPiece, foundRun, if_pos hstart]
    exact if_pos hstart
  rw [cardPiece, foundRun, if_neg hstart]
  refine (if_neg hstart).trans ?_
  simp only [not_or, not_not] at hstart
  obtain ⟨body, after, rfl, hend, -, -, hlast⟩ := cardRun_spec hstart.1 1 0 rest
  have hwhole : ((c :: (body ++ after)).take (cardRun 1 0 (body ++ after)).1).length =
      (cardRun 1 0 (body ++ after)).1 := by
    simp only [List.length_take, List.length_cons, List.length_append]
    omega
  dsimp only
  split
  · split
    · rw [hend, Nat.add_sub_cancel_left, Nat.add_comm]
    · rename_i hcut
      have htake : ((c :: (body ++ after)).take (cardRun 1 0 (body ++ after)).2).length =
          (cardRun 1 0 (body ++ after)).2 := by
        rcases hlast with ⟨-, hsep⟩ | ⟨head, sep, tail, rfl, -, -, -, -, hlast⟩
        · exact absurd hsep hcut
        · simp only [List.length_take, List.length_cons, List.length_append]
          omega
      simp only [htake]
  · simp only [hwhole]

/-- What is written for the rest of a text behind `prev`. -/
def cardsFrom (prev : Option UInt8) (text : Bytes) : Bytes := (scan cardPiece 0 prev text).flatten

/-- A byte at which no run begins is copied. -/
theorem cardsFrom_cons {prev : Option UInt8} {c : UInt8}
    (h : isAsciiDigit c = true → wordBehind prev = true) (rest : Bytes) :
    cardsFrom prev (c :: rest) = c :: cardsFrom (some c) rest := by
  have hstart : ¬ isAsciiDigit c ∨ wordBehind prev := by
    by_cases hc : isAsciiDigit c
    · exact .inr (h hc)
    · exact .inl hc
  rw [cardsFrom, scan, cardPiece, foundRun, if_pos hstart]
  rfl

theorem cardsFrom_digit {prev : Option UInt8} {c : UInt8} {body rest piece : Bytes}
    (h : cardPiece prev c (body ++ rest) = (piece, body.length)) :
    cardsFrom prev (c :: (body ++ rest)) = piece ++ cardsFrom (lastOr (some c) body) rest := by
  rw [cardsFrom, scan, h, scan_skip, List.flatten_cons]
  rfl

theorem cardRun_digits {g after : Bytes} (hg : ∀ x ∈ g, isAsciiDigit x = true)
    (hend : digitAhead after = false) (hword : wordAhead after = true) (n separator : Nat) :
    cardRun n separator (g ++ after) = (n + g.length, separator) := by
  obtain ⟨w, after, rfl⟩ : ∃ w after', after = w :: after' := by
    cases after with
    | nil => exact absurd hword (by decide)
    | cons w after => exact ⟨w, after, rfl⟩
  have hw : ¬ isAsciiDigit w = true := by simpa [digitAhead] using hend
  have hsep : (w == space || w == dash) = false := by
    by_contra hsep
    rw [Bool.not_eq_false] at hsep
    have hnot : isWordChar w = false := not_isWordChar_of_isSeparator hsep
    exact absurd hword (by simp [wordAhead, hnot])
  induction g generalizing n with
  | nil =>
    cases after with
    | nil => exact if_neg hw
    | cons d after =>
      rw [List.nil_append, cardRun, if_neg hw, hsep, Bool.false_and, if_neg Bool.false_ne_true]
      rfl
  | cons c g ih =>
    obtain ⟨hc, hg⟩ := List.forall_mem_cons.mp hg
    have hnext := ih hg (n + 1)
    obtain ⟨d, t, htail⟩ : ∃ d t, g ++ w :: after = d :: t :=
      List.exists_cons_of_ne_nil (by simp)
    rw [htail] at hnext
    rw [List.cons_append, htail, cardRun, if_pos hc, hnext, List.length_cons, Nat.add_right_comm,
      Nat.add_assoc n]

/-- Digits that end at a word character are copied. -/
theorem cardsFrom_digits {prev : Option UInt8} {g after : Bytes} (hne : g ≠ [])
    (hg : ∀ x ∈ g, isAsciiDigit x = true) (hprev : wordBehind prev = false)
    (hend : digitAhead after = false) (hword : wordAhead after = true) :
    cardsFrom prev (g ++ after) = g ++ cardsFrom (lastOr prev g) after := by
  obtain ⟨c, g, rfl⟩ := List.exists_cons_of_ne_nil hne
  obtain ⟨hc, hg⟩ := List.forall_mem_cons.mp hg
  have hpiece : cardPiece prev c (g ++ after) = (c :: g, g.length) := by
    have hdrop : (c :: (g ++ after)).drop (1 + g.length) = after := by
      rw [Nat.add_comm, List.drop_succ_cons, List.drop_left]
    have htake : (c :: (g ++ after)).take (g.length + 1) = c :: g := by
      rw [List.take_succ_cons, List.take_left]
    rw [cardPiece, foundRun, if_neg (by simp [hc, hprev])]
    simp only [cardRun_digits hg hend hword, hdrop, if_pos hword, if_true, Nat.add_sub_cancel_left,
      htake]
  rw [List.cons_append, cardsFrom_digit hpiece, lastOr_cons]

theorem digitAhead_cardsFrom {prev : Option UInt8} {text : Bytes} (h : digitAhead text = false) :
    digitAhead (cardsFrom prev text) = false := by
  cases text with
  | nil => rfl
  | cons c rest =>
    have hc : isAsciiDigit c = false := h
    rw [cardsFrom_cons (fun hdigit => by rw [hc] at hdigit; exact absurd hdigit (by decide))]
    exact h

theorem wordAhead_cardsFrom {prev : Option UInt8} {text : Bytes} (h : digitAhead text = false) :
    wordAhead (cardsFrom prev text) = wordAhead text := by
  cases text with
  | nil => rfl
  | cons c rest =>
    have hc : isAsciiDigit c = false := h
    rw [cardsFrom_cons (fun hdigit => by rw [hc] at hdigit; exact absurd hdigit (by decide))]
    rfl

/-- Digits up to a word character are in no stretch. -/
theorem blocked {g q s b : Bytes} (hg : ∀ x ∈ g, isAsciiDigit x = true)
    (hend : digitAhead q = false) (hword : wordAhead q = true) (heq : g ++ q = s ++ b)
    (hs : DigitRun s) : wordAhead b = true := by
  by_cases hahead : digitAhead b = true
  · by_contra hb
    rw [digitAhead_of_not_wordAhead (by simpa using hb)] at hahead
    exact absurd hahead (by decide)
  obtain ⟨gs, srest, rfl, -, hgs, hsrest⟩ := hs.groups
  rw [List.append_assoc] at heq
  rcases hsrest with rfl | ⟨sep, s, rfl, hsep, -⟩
  · obtain ⟨-, rfl⟩ := group_unique hg hgs hend (by simpa using hahead) heq
    exact hword
  · obtain ⟨-, rfl⟩ := group_unique hg hgs hend (digitAhead_of_separator hsep) heq
    exact absurd hword (by simp [wordAhead, not_isWordChar_of_isSeparator hsep])

theorem Clean.digits {prev prev' : Option UInt8} {g q : Bytes} (hg : ∀ x ∈ g, isAsciiDigit x = true)
    (hend : digitAhead q = false) (hword : wordAhead q = true) (hq : Clean prev' q) :
    Clean prev (g ++ q) := by
  intro a s b heq hs hbehind hb
  by_cases ha : a = []
  · subst ha
    rw [blocked hg hend hword heq hs] at hb
    exact absurd hb (by decide)
  rw [List.append_assoc] at heq
  rcases List.append_eq_append_iff.mp heq with ⟨a', rfl, hrest⟩ | ⟨c, rfl, -⟩
  · rw [lastOr_append] at hbehind
    rw [← List.append_assoc] at hrest
    exact hq.change hend a' s b hrest hs hbehind hb
  · have hdigits : ∀ c ∈ a, isAsciiDigit c = true := fun c hc => hg c (by simp [hc])
    rw [wordBehind_of_digits ha hdigits] at hbehind
    exact absurd hbehind (by decide)

/-- No stretch reaches over the end of a run that no word character follows. -/
theorem ended_blocks {prev : Option UInt8} {after s t b : Bytes} (hend : Ended after) (hs : s ≠ [])
    (ht : t ≠ []) (heq : cardsFrom prev after = t ++ b) (hrun : DigitRun (s ++ t)) : False := by
  have hahead : digitAhead (cardsFrom prev after) = false := digitAhead_cardsFrom hend.1
  rcases hrun.behind hs ht with hdigit | ⟨sep, t, rfl, hsep, hrest⟩
  · rw [heq, not_run_of_not_digitAhead hdigit] at hahead
    exact absurd hahead (by decide)
  · cases after with
    | nil => exact absurd heq (by simp [cardsFrom])
    | cons c after =>
      have hc : isAsciiDigit c = false := hend.1
      rw [cardsFrom_cons fun hdigit => by rw [hc] at hdigit; exact absurd hdigit (by decide)] at heq
      obtain ⟨rfl, hafter⟩ := List.cons.inj (heq.trans List.cons_append)
      have hnext : digitAhead (cardsFrom (some c) after) = false :=
        digitAhead_cardsFrom (hend.2 c after rfl hsep)
      rw [hafter, not_run_of_not_digitAhead hrest] at hnext
      exact absurd hnext (by decide)

/-- Nor does one over the separator a run was cut back to. -/
theorem cut_blocks {sep : UInt8} {tail q s t b : Bytes} (hsep : isSeparator sep = true)
    (htail : ∀ x ∈ tail, isAsciiDigit x = true) (hend : digitAhead q = false)
    (hword : wordAhead q = true) (hs : s ≠ []) (ht : t ≠ []) (heq : sep :: (tail ++ q) = t ++ b)
    (hrun : DigitRun (s ++ t)) : wordAhead b = true := by
  rcases hrun.behind hs ht with hdigit | ⟨sep', t, rfl, -, hrest⟩
  · obtain ⟨c, t, rfl, hc⟩ := hdigit.head
    obtain ⟨rfl, -⟩ := List.cons.inj heq
    rw [not_isAsciiDigit_of_isSeparator hsep] at hc
    exact absurd hc (by decide)
  · obtain ⟨-, hrest'⟩ := List.cons.inj heq
    exact blocked htail hend hword hrest' hrest

/-- However the scan goes on behind it, the output is clean. -/
theorem cardsFrom_clean (prev : Option UInt8) (text : Bytes) :
    Clean prev (cardsFrom prev text) := by
  induction hn : text.length using Nat.strongRecOn generalizing prev text with
  | ind n ih =>
    cases text with
    | nil => exact .nil prev
    | cons c rest =>
      have hsmall : ∀ (prev : Option UInt8) (text : Bytes), text.length ≤ rest.length →
          Clean prev (cardsFrom prev text) := fun prev text hle =>
        ih text.length (by rw [← hn, List.length_cons]; omega) prev text rfl
      by_cases hstart : isAsciiDigit c = true → wordBehind prev = true
      · rw [cardsFrom_cons hstart]
        exact (hsmall (some c) rest (Nat.le_refl _)).cons hstart
      obtain ⟨hc, hprev⟩ := Classical.not_imp.mp hstart
      rw [Bool.not_eq_true] at hprev
      have hfound := foundRun_at hc hprev rest
      generalize hfr : foundRun prev c rest = found at hfound
      cases hfound with
      | @whole body after hrun hend hword =>
        have hpiece : cardPiece prev c (body ++ after) =
            (scrubCardNumbersIn (c :: body).length (c :: body), body.length) := by
          rw [cardPiece, hfr]
        rw [cardsFrom_digit hpiece]
        apply (scrubCardNumbersIn_scrubbed hrun (Nat.le_refl _)).clean.append
          (hsmall (lastOr (some c) body) after (by simp)) (digitAhead_cardsFrom hend.1)
        intro s t b hs ht _ heq hcross
        exact (ended_blocks hend hs ht heq hcross).elim
      | @cut head tail after sep hrun hsep hne htail hend hword =>
        have hpiece : cardPiece prev c (head ++ sep :: (tail ++ after)) =
            (scrubCardNumbersIn (c :: head).length (c :: head), head.length) := by
          rw [cardPiece, hfr]
        have hnot : isAsciiDigit sep = true → wordBehind (lastOr (some c) head) = true :=
          fun hdigit => by
          rw [not_isAsciiDigit_of_isSeparator hsep] at hdigit
          exact absurd hdigit (by decide)
        have hsepPrev : wordBehind (some sep) = false := not_isWordChar_of_isSeparator hsep
        have hafter := hsmall (lastOr (some c) head) (sep :: (tail ++ after)) (by simp)
        rw [cardsFrom_cons hnot, cardsFrom_digits hne htail hsepPrev hend hword] at hafter
        rw [cardsFrom_digit hpiece, cardsFrom_cons hnot,
          cardsFrom_digits hne htail hsepPrev hend hword]
        apply (scrubCardNumbersIn_scrubbed hrun (Nat.le_refl _)).clean.append hafter
          (not_isAsciiDigit_of_isSeparator hsep)
        intro s t b hs ht _ heq hcross
        exact cut_blocks hsep htail (digitAhead_cardsFrom hend)
          (by rw [wordAhead_cardsFrom hend, hword])
          hs ht heq hcross
      | @none body after hbody hend hword =>
        have hdigits : ∀ x ∈ c :: body, isAsciiDigit x = true :=
          List.forall_mem_cons.mpr ⟨hc, hbody⟩
        show Clean prev (cardsFrom prev ((c :: body) ++ after))
        rw [cardsFrom_digits (List.cons_ne_nil c body) hdigits hprev hend hword]
        apply Clean.digits hdigits (digitAhead_cardsFrom hend)
        · rw [wordAhead_cardsFrom hend, hword]
        · exact hsmall _ after (by simp)

/-! ## The runs of a clean text -/

/-- A stretch of whole groups of a run. -/
structure WholeGroups (run stretch : Bytes) : Prop where
  digitRun : DigitRun stretch
  inRun : ∃ before after, run = before ++ stretch ++ after ∧
    (∀ c ∈ before.getLast?, isAsciiDigit c = false) ∧ digitAhead after = false

/-- A stretch of a run stands between bytes that are no word characters. -/
theorem Clean.stretch {text before run after stretch : Bytes} (h : Clean none text)
    (heq : text = before ++ run ++ after) (hrun : DigitRun run)
    (hbehind : wordBehind (lastOr none before) = false) (hahead : wordAhead after = false)
    (hstretch : WholeGroups run stretch) : isCardNumber (stretch.filter isAsciiDigit) = false := by
  obtain ⟨hdigits, x, y, rfl, hx, hy⟩ := hstretch
  have hnotWord : ∀ c ∈ x ++ stretch ++ y, isAsciiDigit c = false → isWordChar c = false := by
    intro c hc hdigit
    rcases hrun.mem hc with hyes | hsep
    · rw [hyes] at hdigit
      exact absurd hdigit (by decide)
    · exact not_isWordChar_of_isSeparator hsep
  apply h (before ++ x) stretch (y ++ after) (by rw [heq]; simp) hdigits
  · rw [lastOr_append]
    by_cases hnil : x = []
    · subst hnil
      exact hbehind
    · rw [lastOr, List.getLast?_eq_some_getLast hnil]
      exact hnotWord _ (by simp [List.getLast_mem hnil])
        (hx _ (List.getLast?_eq_some_getLast hnil))
  · cases y with
    | nil => exact hahead
    | cons c y => exact hnotWord c (by simp) hy

/-- Nor is one found by a scan that stands at a byte of the text. -/
theorem Clean.found {before rest run stretch : Bytes} {c : UInt8} {n : Nat}
    (h : Clean none (before ++ c :: rest))
    (hfound : foundRun (lastOr none before) c rest = (some run, n))
    (hstretch : WholeGroups run stretch) : isCardNumber (stretch.filter isAsciiDigit) = false := by
  by_cases hstart : ¬ isAsciiDigit c ∨ wordBehind (lastOr none before)
  · rw [foundRun, if_pos hstart] at hfound
    exact absurd hfound (by simp)
  obtain ⟨hc, hprev⟩ := not_or.mp hstart
  rw [not_not] at hc
  rw [Bool.not_eq_true] at hprev
  have hat := foundRun_at hc hprev rest
  rw [hfound] at hat
  cases hat with
  | whole hdigits hend hword => exact h.stretch (by simp) hdigits hprev hword hstretch
  | @cut head tail after sep hdigits hsep hne htail hend hword =>
    have hsepWord : wordAhead (sep :: (tail ++ after)) = false := not_isWordChar_of_isSeparator hsep
    exact h.stretch (by simp) hdigits hprev hsepWord hstretch

theorem Clean.runs {text run stretch : Bytes} (h : Clean none text) (hrun : run ∈ cardRuns text)
    (hstretch : WholeGroups run stretch) : isCardNumber (stretch.filter isAsciiDigit) = false := by
  obtain ⟨before, c, rest, rfl, hfound⟩ := mem_scan (List.reduceOption_mem_iff.mp hrun)
  exact h.found (Prod.ext hfound.symm rfl) hstretch

/-- A scrubbed text has no card number in any run of digits the scan would find in it. -/
theorem no_card_number_left (input : Bytes) {run stretch : Bytes}
    (hrun : run ∈ cardRuns (scrubString input)) (hstretch : WholeGroups run stretch) :
    isCardNumber (stretch.filter isAsciiDigit) = false := by
  rw [scrubString, scrubCardNumbers_eq] at hrun
  exact (cardsFrom_clean none _).runs hrun hstretch

/-- A card number is taken out, and what is left beside it is none. -/
theorem no_card_number_left_order :
    scrubString (ascii "Paid by 4242 4242 4242 4242, order 31 24.") =
      ascii "Paid by [CREDIT CARD FILTERED], order 31 24." ∧
    ascii "31 24" ∈ cardRuns (scrubString (ascii "Paid by 4242 4242 4242 4242, order 31 24.")) ∧
    isCardNumber ((ascii "31").filter isAsciiDigit) = false := by
  have hscrubbed : scrubString (ascii "Paid by 4242 4242 4242 4242, order 31 24.") =
      ascii "Paid by [CREDIT CARD FILTERED], order 31 24." := by decide +kernel
  have hrun : ascii "31 24" ∈ cardRuns
      (scrubString (ascii "Paid by 4242 4242 4242 4242, order 31 24.")) := by
    rw [hscrubbed]
    decide +kernel
  have hstretch : WholeGroups (ascii "31 24") (ascii "31") :=
    ⟨.digit (by decide) (.last (by decide)), [], ascii " 24", rfl, by simp, by decide⟩
  exact ⟨hscrubbed, hrun, no_card_number_left _ hrun hstretch⟩

end ForgeOps.PiiScrubber
