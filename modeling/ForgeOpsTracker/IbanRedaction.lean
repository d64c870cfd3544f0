import ForgeOpsTracker.ScrubAgain

/-! An IBAN in a text, compact or in groups of four: some of it is taken out, unless it is part
of a longer candidate at which the scan for IBANs stands, and no other stage takes any of it. -/

namespace ForgeOps.PiiScrubber

/-! ## IBANs -/

/-- The number an IBAN's characters spell: A is 10, Z is 35. -/
def ibanNumber (s : Bytes) : Nat :=
  s.foldl (fun n c => if isAsciiUpper c then n * 100 + (c.toNat - 55)
    else n * 10 + (c.toNat - 48)) 0

/-- A valid IBAN without its spaces. -/
structure ValidIban (w : Bytes) : Prop where
  least : 15 ≤ w.length
  most : w.length ≤ 34
  chars : ∀ c ∈ w, isIbanChar c = true
  opening : ∃ a b c d rest, w = a :: b :: c :: d :: rest ∧ isAsciiUpper a = true ∧
    isAsciiUpper b = true ∧ isAsciiDigit c = true ∧ isAsciiDigit d = true
  remainder : ibanNumber (w.drop 4 ++ w.take 4) % 97 = 1

/-- Groups of four separated by single spaces, the last one of one to four. -/
def inGroups : Bytes → Bytes
  | a :: b :: c :: d :: e :: rest => a :: b :: c :: d :: space :: inGroups (e :: rest)
  | s => s

theorem inGroups_short {r : Bytes} (h : r.length ≤ 4) : inGroups r = r := by
  rcases r with _ | ⟨a, _ | ⟨b, _ | ⟨c, _ | ⟨d, _ | ⟨e, rest⟩⟩⟩⟩⟩
  · rfl
  · rfl
  · rfl
  · rfl
  · rfl
  · exact absurd h (by simp)

/-- Over the groups of a text: the last one, and one with more behind it. -/
theorem groups_induction {motive : Bytes → Prop} (short : ∀ r : Bytes, r.length ≤ 4 → motive r)
    (more : ∀ a b c d e rest, motive (e :: rest) → motive (a :: b :: c :: d :: e :: rest))
    (r : Bytes) :
    motive r := by
  induction hn : r.length using Nat.strongRecOn generalizing r with
  | ind n ih =>
    by_cases hlength : r.length ≤ 4
    · exact short r hlength
    rcases r with _ | ⟨a, _ | ⟨b, _ | ⟨c, _ | ⟨d, _ | ⟨e, rest⟩⟩⟩⟩⟩ <;> simp at hlength
    exact more a b c d e rest (ih _ (by rw [← hn]; simp) (e :: rest) rfl)

/-- The remainder is taken a digit at a time. -/
theorem foldl_ibanRemainder {s : Bytes} (hs : ∀ c ∈ s, isIbanChar c = true) (n : Nat) :
    s.foldl ibanRemainder (n % 97) =
      s.foldl (fun n c => if isAsciiUpper c then n * 100 + (c.toNat - 55)
      else n * 10 + (c.toNat - 48)) n
        % 97 := by
  induction s generalizing n with
  | nil => rfl
  | cons c s ih =>
    obtain ⟨-, hs⟩ := List.forall_mem_cons.mp hs
    rw [List.foldl_cons, List.foldl_cons, ← ih hs]
    congr 1
    unfold ibanRemainder
    split
    · rename_i hupper
      simp only [isAsciiUpper, Byte.isUpper, Bool.and_eq_true, decide_eq_true_eq,
        UInt8.le_iff_toNat_le, UInt8.reduceToNat] at hupper
      dsimp only
      omega
    · omega

theorem filter_inGroups {w : Bytes} (hw : ∀ c ∈ w, isIbanChar c = true) :
    (inGroups w).filter (· ≠ space) = w := by
  have hne : ∀ c, isIbanChar c = true → decide (c ≠ space) = true := by
    intro c hc
    apply decide_eq_true
    rintro rfl
    exact absurd hc (by decide)
  induction w using groups_induction with
  | more a b c d e rest ih =>
    simp only [List.forall_mem_cons] at hw
    obtain ⟨ha, hb, hc, hd, hrest⟩ := hw
    have hspace : decide (space ≠ space) = false := by decide
    rw [inGroups, List.filter_cons, List.filter_cons, List.filter_cons, List.filter_cons,
      List.filter_cons, hne a ha, hne b hb, hne c hc, hne d hd, hspace,
      ih (List.forall_mem_cons.mpr hrest)]
    rfl
  | short s hshort =>
    rw [inGroups_short hshort]
    exact List.filter_eq_self.mpr fun c hc => hne c (hw c hc)

theorem ValidIban.isIban {w b : Bytes} (h : ValidIban w) (hb : b.filter (· ≠ space) = w) :
    isIban b = true := by
  have hchars : ∀ c ∈ w.drop 4 ++ w.take 4, isIbanChar c = true := by
    intro c hc
    rcases List.mem_append.mp hc with hc | hc
    · exact h.chars c (List.mem_of_mem_drop hc)
    · exact h.chars c (List.mem_of_mem_take hc)
  have hremainder := foldl_ibanRemainder hchars 0
  have hone := h.remainder
  rw [Nat.zero_mod] at hremainder
  unfold ibanNumber at hone
  unfold PiiScrubber.isIban
  dsimp only
  rw [hb, hremainder, hone, decide_eq_true h.least, decide_eq_true h.most]
  rfl

/-! ## The candidate at an IBAN -/

theorem isIbanChar_word {c : UInt8} (h : isIbanChar c = true) : isWordChar c = true := by
  simp [isWordChar, h]

theorem takeWhile_iban {w q : Bytes} (hw : ∀ c ∈ w, isIbanChar c = true)
    (hq : wordAhead q = false) : (w ++ q).takeWhile isIbanChar = w := by
  rw [List.takeWhile_append_of_pos hw]
  cases q with
  | nil => simp
  | cons c q =>
    have hc : isIbanChar c = false := by
      by_contra hchar
      rw [Bool.not_eq_false] at hchar
      have hword : isWordChar c = false := hq
      rw [isIbanChar_word hchar] at hword
      exact absurd hword (by decide)
    rw [List.takeWhile_cons, hc, if_neg Bool.false_ne_true, List.append_nil]

/-- A text that ends in a word character ends at a word boundary. -/
theorem isWordBoundary_end {b q : Bytes} {c : UInt8} (hc : b.getLast? = some c)
    (hword : isWordChar c = true) (hq : wordAhead q = false) :
    isWordBoundary (b ++ q) b.length = true := by
  have hne : b ≠ [] := by
    rintro rfl
    exact absurd hc (by simp)
  have hpos := List.length_pos_iff.mpr hne
  have hlast : (b ++ q)[b.length - 1]? = some c := by
    rw [List.getElem?_append_left (by omega), ← List.getLast?_eq_getElem?, hc]
  have hnext : ((b ++ q)[b.length]?.map isWordChar).getD false = false := by
    rw [List.getElem?_append_right (Nat.le_refl _), Nat.sub_self, ← List.head?_eq_getElem?]
    exact hq
  rw [isWordBoundary, hlast, hnext]
  simp [hword]

theorem not_isWordBoundary {s : Bytes} {pos : Nat} {c d : UInt8} (hc : s[pos - 1]? = some c)
    (hcword : isWordChar c = true) (hd : s[pos]? = some d) (hdword : isWordChar d = true) :
    isWordBoundary s pos = false := by
  rw [isWordBoundary, hc, hd]
  simp [hcword, hdword]

theorem candidate_compact {w q : Bytes} {prev : Option UInt8} (hw : ValidIban w)
    (hq : wordAhead q = false) (hprev : wordBehind prev = false) :
    ibanCandidateEnd prev (w ++ q) = w.length := by
  obtain ⟨a, b, c, d, rest, rfl, ha, hb, hc, hd⟩ := hw.opening
  have hleast := hw.least
  have hmost := hw.most
  have hchars := hw.chars
  simp only [List.length_cons] at hleast hmost
  have hrest : ∀ x ∈ rest, isIbanChar x = true := fun x hx => hchars x (by simp [hx])
  have hrun : min 30 ((rest ++ q).takeWhile isIbanChar).length = rest.length := by
    rw [takeWhile_iban hrest hq]
    omega
  obtain ⟨last, hlast⟩ : ∃ last, (a :: b :: c :: d :: rest).getLast? = some last :=
    ⟨_, List.getLast?_eq_some_getLast (by simp)⟩
  have hend := isWordBoundary_end hlast
    (isIbanChar_word (hchars last (List.mem_of_getLast? hlast))) hq
  have hcompact : lastBoundary (a :: b :: c :: d :: rest ++ q) 4 11 rest.length =
      4 + rest.length := by
    obtain ⟨k, hk⟩ := Nat.exists_eq_add_of_le (show 1 ≤ rest.length by omega)
    have hlength : (a :: b :: c :: d :: rest).length = 4 + rest.length := by
      simp only [List.length_cons]
      omega
    rw [hlength, hk, Nat.add_comm 1] at hend
    rw [hk, Nat.add_comm 1, lastBoundary, if_neg (by omega), if_pos hend]
  have hstart : ¬ (prev.map isWordChar).getD false = true := by
    show ¬ wordBehind prev = true
    simp [hprev]
  simp only [List.cons_append] at hcompact ⊢
  rw [ibanCandidateEnd, if_neg hstart]
  simp only [ha, hb, hc, hd, Bool.and_self, if_true, hrun, hcompact, List.length_cons]
  rw [if_pos (by omega)]
  omega

/-- No candidate that begins before a compact IBAN reaches into it: it would have to end at a
boundary inside a word, or to have no space for more than four characters. -/
theorem candidate_before_compact {y w q : Bytes} {c : UInt8} {prev : Option UInt8}
    (hw : ValidIban w) (hy : y.getLast? = some c) (hc : isWordChar c = false) :
    ibanCandidateEnd prev (y ++ w ++ q) ≤ y.length := by
  by_contra hover
  have hne : ibanCandidateEnd prev (y ++ w ++ q) ≠ 0 := by omega
  have hspec := ibanCandidateEnd_spec hne
  generalize ibanCandidateEnd prev (y ++ w ++ q) = e at hover hspec
  have hpos : 0 < y.length := by
    apply List.length_pos_iff.mpr
    rintro rfl
    exact absurd hy (by simp)
  have hleast := hw.least
  have hinside : ∀ j < w.length, ∃ x, (y ++ w ++ q)[y.length + j]? = some x ∧
      isIbanChar x = true := by
    intro j hj
    refine ⟨w[j], ?_, hw.chars _ (List.getElem_mem hj)⟩
    rw [List.append_assoc, List.getElem?_append_right (Nat.le_add_right _ _),
      Nat.add_sub_cancel_left, List.getElem?_append_left hj, List.getElem?_eq_getElem hj]
  rcases hspec.shape with hshape | hshape
  · obtain ⟨x, hx, hchar⟩ := hshape (y.length - 1) (by omega)
    rw [Option.mem_def, List.append_assoc, List.getElem?_append_left (by omega),
      ← List.getLast?_eq_getElem?, hy] at hx
    obtain rfl := Option.some.inj hx
    rw [isIbanChar_word hchar] at hc
    exact absurd hc (by decide)
  by_cases hend : e < y.length + w.length
  · -- it ends inside the word
    have hboundary := hspec.boundary
    obtain ⟨x, hx, hxchar⟩ := hinside (e - y.length) (by omega)
    obtain ⟨z, hz, hzchar⟩ := hinside (e - y.length - 1) (by omega)
    rw [show y.length + (e - y.length) = e by omega] at hx
    rw [show y.length + (e - y.length - 1) = e - 1 by omega] at hz
    rw [not_isWordBoundary hz (isIbanChar_word hzchar) hx (isIbanChar_word hxchar)] at hboundary
    exact absurd hboundary (by decide)
  · obtain ⟨j, hj, hmod⟩ : ∃ j < 5, (y.length + j) % 5 = 4 :=
      ⟨(9 - y.length % 5) % 5, Nat.mod_lt _ (by decide), by omega⟩
    obtain ⟨x, hx, hkind⟩ := hshape (y.length + j) (by omega)
    obtain ⟨z, hz, hchar⟩ := hinside j (by omega)
    rw [if_pos hmod] at hkind
    rw [Option.mem_def, hz] at hx
    obtain rfl := Option.some.inj hx
    rw [hkind] at hchar
    exact absurd hchar (by decide)

/-! ## The candidate at an IBAN in groups -/

theorem length_inGroups (r : Bytes) : (inGroups r).length = r.length + (r.length - 1) / 4 := by
  induction r using groups_induction with
  | more a b c d e rest ih =>
    rw [inGroups]
    simp only [List.length_cons, ih]
    omega
  | short r hshort =>
    rw [inGroups_short hshort]
    omega

theorem getLast_inGroups (r : Bytes) : (inGroups r).getLast? = r.getLast? := by
  induction r using groups_induction with
  | more a b c d e rest ih =>
    obtain ⟨f, tail, htail⟩ : ∃ f tail, inGroups (e :: rest) = f :: tail := by
      apply List.exists_cons_of_length_pos
      rw [length_inGroups]
      simp
    rw [htail] at ih
    rw [inGroups, htail]
    simp only [List.getLast?_cons_cons] at ih ⊢
    exact ih
  | short r hshort => rw [inGroups_short hshort]

theorem isIbanGroup_short {g q : Bytes} (hg : g.length < 4) (hq : wordAhead q = false) :
    isIbanGroup (space :: (g ++ q)) = false := by
  by_contra hgroup
  rw [Bool.not_eq_false] at hgroup
  obtain ⟨x, hx, hkind⟩ := isIbanGroup_spec hgroup (show g.length + 1 < 5 by omega)
  rw [if_neg (by omega)] at hkind
  rw [Option.mem_def, List.getElem?_cons_succ, List.getElem?_append_right (Nat.le_refl _),
    Nat.sub_self, ← List.head?_eq_getElem?] at hx
  rw [wordAhead, hx] at hq
  exact absurd hq (by simp [isIbanChar_word hkind])

theorem ibanGroups_none {s : Bytes} (h : isIbanGroup s = false) (most : Nat) :
    ibanGroups most s = 0 := by
  cases most with
  | zero => rfl
  | succ most => rw [ibanGroups, h, if_neg Bool.false_ne_true]

/-- The groups of the matcher are those of the IBAN and, behind a full last group, of what
follows. -/
theorem ibanGroups_inGroups {r q : Bytes} (hr : ∀ c ∈ r, isIbanChar c = true) (hne : r ≠ [])
    (hq : wordAhead q = false) {most : Nat} (hmost : r.length / 4 ≤ most) :
    ibanGroups most (space :: (inGroups r ++ q)) =
      r.length / 4 + if r.length % 4 = 0 then ibanGroups (most - r.length / 4) q else 0 := by
  induction r using groups_induction generalizing most with
  | more a b c d e rest ih =>
    simp only [List.forall_mem_cons] at hr
    obtain ⟨ha, hb, hc, hd, hrest⟩ := hr
    simp only [List.length_cons] at hmost ih ⊢
    obtain ⟨most, rfl⟩ := Nat.exists_eq_add_of_le (show 1 ≤ most by omega)
    have hgroup :
        isIbanGroup (space :: (inGroups (a :: b :: c :: d :: e :: rest) ++ q)) = true := by
      simp [inGroups, isIbanGroup, ha, hb, hc, hd]
    have hnext := ih (List.forall_mem_cons.mpr hrest) (by simp)
      (show (rest.length + 1) / 4 ≤ most by omega)
    have hdiv : (rest.length + 1 + 1 + 1 + 1 + 1) / 4 = (rest.length + 1) / 4 + 1 := by omega
    have hmod : (rest.length + 1 + 1 + 1 + 1 + 1) % 4 = (rest.length + 1) % 4 := by omega
    rw [Nat.add_comm 1, ibanGroups, if_pos hgroup, inGroups, hdiv, hmod, Nat.add_sub_add_right]
    show ibanGroups most (space :: (inGroups (e :: rest) ++ q)) + 1 = _
    rw [hnext]
    omega
  | short r hshort =>
    rw [inGroups_short hshort]
    rcases r with _ | ⟨a, _ | ⟨b, _ | ⟨c, _ | ⟨d, _ | ⟨e, rest⟩⟩⟩⟩⟩
    · exact absurd rfl hne
    · exact (ibanGroups_none (isIbanGroup_short (g := [a]) (by simp) hq) most).trans (by simp)
    · exact (ibanGroups_none (isIbanGroup_short (g := [a, b]) (by simp) hq) most).trans (by simp)
    · exact (ibanGroups_none (isIbanGroup_short (g := [a, b, c]) (by simp) hq) most).trans (by simp)
    · simp only [List.forall_mem_cons] at hr
      obtain ⟨ha, hb, hc, hd, -⟩ := hr
      obtain ⟨most, rfl⟩ := Nat.exists_eq_add_of_le (show 1 ≤ most by simpa using hmost)
      have hgroup : isIbanGroup (space :: ([a, b, c, d] ++ q)) = true := by
        simp [isIbanGroup, ha, hb, hc, hd]
      rw [Nat.add_comm 1, ibanGroups, if_pos hgroup]
      simp [Nat.add_comm]
    · exact absurd hshort (by simp)

/-- What stands behind the full groups. -/
theorem drop_inGroups {r : Bytes} (hne : r ≠ []) (q : Bytes) :
    (space :: (inGroups r ++ q)).drop (5 * (r.length / 4)) =
      if r.length % 4 = 0 then q else space :: (r.drop (4 * (r.length / 4)) ++ q) := by
  induction r using groups_induction with
  | more a b c d e rest ih =>
    have hnext := ih (by simp)
    simp only [List.length_cons] at hnext ⊢
    have hdiv : (rest.length + 1 + 1 + 1 + 1 + 1) / 4 = (rest.length + 1) / 4 + 1 := by omega
    have hmod : (rest.length + 1 + 1 + 1 + 1 + 1) % 4 = (rest.length + 1) % 4 := by omega
    rw [hdiv, hmod, Nat.mul_add, Nat.mul_add, inGroups]
    exact hnext
  | short r hshort =>
    rw [inGroups_short hshort]
    rcases r with _ | ⟨a, _ | ⟨b, _ | ⟨c, _ | ⟨d, _ | ⟨e, rest⟩⟩⟩⟩⟩
    · exact absurd rfl hne
    · simp
    · simp
    · simp
    · simp
    · exact absurd hshort (by simp)

/-- A space and one to four capital letters or digits that end a word. -/
def Continues (q : Bytes) : Prop :=
  ∃ t rest, q = space :: (t ++ rest) ∧ 1 ≤ t.length ∧ t.length ≤ 4 ∧
    (∀ x ∈ t, isIbanChar x = true) ∧ wordAhead rest = false

/-- Nothing more is taken in unless the text goes on like a group. -/
theorem spacedTail_eq_zero (b : Bytes) {q : Bytes} (hcont : ¬ Continues q) :
    spacedTail (b ++ q) b.length = 0 := by
  by_contra htail
  obtain ⟨hspace, hboundary, t, hone, hfour, hrun, heq⟩ := spacedTail_spec htail
  rw [List.getElem?_append_right (Nat.le_refl _), Nat.sub_self, ← List.head?_eq_getElem?] at hspace
  obtain ⟨rest, rfl⟩ : ∃ rest, q = space :: rest := by
    cases q with
    | nil => exact absurd hspace (by simp)
    | cons x rest => exact ⟨rest, by rw [Option.some.inj hspace]⟩
  have hdrop : (b ++ space :: rest).drop (b.length + 1) = rest := by
    rw [← List.drop_drop, List.drop_left]
    rfl
  rw [hdrop] at hrun
  obtain ⟨hle, hchars⟩ := le_length_takeWhile.mp hrun
  have hlength : (rest.take t).length = t := List.length_take_of_le hle
  apply hcont
  refine ⟨rest.take t, rest.drop t, by rw [List.take_append_drop], by omega, by omega, hchars, ?_⟩
  -- the end found is a boundary behind a word character
  have hbefore : (b ++ space :: rest)[b.length + 1 + t - 1]? = rest[t - 1]? := by
    rw [List.getElem?_append_right (by omega),
      show b.length + 1 + t - 1 - b.length = t - 1 + 1 by omega,
      List.getElem?_cons_succ]
  have hat : (b ++ space :: rest)[b.length + 1 + t]? = rest[t]? := by
    rw [List.getElem?_append_right (by omega),
      show b.length + 1 + t - b.length = t + 1 by omega, List.getElem?_cons_succ]
  obtain ⟨x, hx, hchar⟩ := exists_of_lt_takeWhile
    (Nat.lt_of_lt_of_le (show t - 1 < t by omega) hrun)
  rw [heq, isWordBoundary, hbefore, hat, hx] at hboundary
  rw [wordAhead, List.head?_drop]
  simpa [isIbanChar_word hchar] using hboundary

/-- The IBAN behind its first four characters. -/
structure Opened (w : Bytes) (a b c d : UInt8) (r : Bytes) : Prop where
  valid : ValidIban w
  split : w = a :: b :: c :: d :: r
  upper : isAsciiUpper a = true ∧ isAsciiUpper b = true
  digit : isAsciiDigit c = true ∧ isAsciiDigit d = true

theorem ValidIban.opened {w : Bytes} (h : ValidIban w) : ∃ a b c d r, Opened w a b c d r := by
  obtain ⟨a, b, c, d, r, hw, ha, hb, hc, hd⟩ := h.opening
  exact ⟨a, b, c, d, r, h, hw, ⟨ha, hb⟩, ⟨hc, hd⟩⟩

namespace Opened

variable {w r q : Bytes} {a b c d : UInt8} (h : Opened w a b c d r)
include h

theorem length_eq : w.length = r.length + 4 := by
  rw [h.split]
  rfl

theorem bounds : 11 ≤ r.length ∧ r.length ≤ 30 := by
  have hlength := h.length_eq
  have hleast := h.valid.least
  have hmost := h.valid.most
  omega

theorem chars : ∀ x ∈ r, isIbanChar x = true := by
  intro x hx
  exact h.valid.chars x (by rw [h.split]; simp [hx])

theorem ne_nil : r ≠ [] := by
  rintro rfl
  exact absurd h.bounds.1 (by decide)

theorem inGroups_eq : inGroups w = a :: b :: c :: d :: space :: inGroups r := by
  obtain ⟨e, rest, rfl⟩ := List.exists_cons_of_ne_nil h.ne_nil
  rw [h.split, inGroups]

theorem length_inGroups_eq : (inGroups w).length =
    4 + 5 * (r.length / 4) + if r.length % 4 = 0 then 0 else 1 + r.length % 4 := by
  have hbounds := h.bounds
  rw [length_inGroups, h.length_eq]
  split <;> omega

/-- What stands in the text behind the full groups. -/
theorem drop_eq (q : Bytes) : (inGroups w ++ q).drop (4 + 5 * (r.length / 4)) =
    if r.length % 4 = 0 then q else space :: (r.drop (4 * (r.length / 4)) ++ q) := by
  rw [← drop_inGroups h.ne_nil q, h.inGroups_eq, Nat.add_comm 4]
  rfl

theorem isWordBoundary_end (hq : wordAhead q = false) :
    isWordBoundary (inGroups w ++ q) (inGroups w).length = true := by
  obtain ⟨last, hlast⟩ : ∃ last, w.getLast? = some last := by
    rw [h.split]
    exact ⟨_, List.getLast?_eq_some_getLast (by simp)⟩
  have hchar := h.valid.chars last (List.mem_of_getLast? hlast)
  rw [← getLast_inGroups] at hlast
  exact PiiScrubber.isWordBoundary_end hlast (isIbanChar_word hchar) hq

/-- The matcher finds no compact form, and then the groups. -/
theorem candidate_eq {prev : Option UInt8} (hprev : wordBehind prev = false)
    (hq : wordAhead q = false) :
    ibanCandidateEnd prev (inGroups w ++ q) = spacedEnd (inGroups w ++ q)
      (r.length / 4 + if r.length % 4 = 0 then ibanGroups (7 - r.length / 4) q else 0) := by
  have hbounds := h.bounds
  have hstart : ¬ (prev.map isWordChar).getD false = true := by
    show ¬ wordBehind prev = true
    simp [hprev]
  have hgroups := ibanGroups_inGroups h.chars h.ne_nil hq (show r.length / 4 ≤ 7 by omega)
  have hspace : isIbanChar space = false := rfl
  rw [h.inGroups_eq, ← hgroups]
  simp only [List.cons_append]
  rw [ibanCandidateEnd, if_neg hstart]
  simp only [h.upper, h.digit, Bool.and_self, if_true, List.takeWhile_cons, hspace]
  rfl

/-- With a short last group the candidate is the IBAN. -/
theorem candidate_short {prev : Option UInt8} (hprev : wordBehind prev = false)
    (hq : wordAhead q = false) (hshort : r.length % 4 ≠ 0) :
    ibanCandidateEnd prev (inGroups w ++ q) = (inGroups w).length := by
  have hbounds := h.bounds
  have hdrop := h.drop_eq q
  have hend := h.isWordBoundary_end hq
  have hlength := h.length_inGroups_eq
  rw [if_neg hshort] at hdrop hlength
  have htail : ∀ x ∈ r.drop (4 * (r.length / 4)), isIbanChar x = true :=
    fun x hx => h.chars x (List.mem_of_mem_drop hx)
  have hnext : (inGroups w ++ q).drop (4 + 5 * (r.length / 4) + 1) =
      r.drop (4 * (r.length / 4)) ++ q := by
    rw [← List.drop_drop, hdrop]
    rfl
  have hat : (inGroups w ++ q)[4 + 5 * (r.length / 4)]? = some space := by
    rw [← List.head?_drop, hdrop]
    rfl
  have hspaced : spacedTail (inGroups w ++ q) (4 + 5 * (r.length / 4)) = (inGroups w).length := by
    have hmin : min 4 (r.drop (4 * (r.length / 4))).length = r.length % 4 - 1 + 1 := by
      rw [List.length_drop]
      omega
    have hplace : 4 + 5 * (r.length / 4) + 1 + (r.length % 4 - 1 + 1) = (inGroups w).length := by
      omega
    rw [spacedTail, if_pos hat, hnext, takeWhile_iban htail hq, hmin, lastBoundary,
      if_neg (by omega), hplace, if_pos hend]
  obtain ⟨g, hg⟩ : ∃ g, r.length / 4 = g + 1 := ⟨r.length / 4 - 1, by omega⟩
  rw [h.candidate_eq hprev hq, if_neg hshort, Nat.add_zero]
  rw [hg] at hspaced ⊢
  rw [spacedEnd_succ (by omega), hspaced, if_pos (by omega)]

/-- The end of a full last group is an end the matcher can go back to. -/
theorem spacedEnd_ne_zero (hq : wordAhead q = false) (hfull : r.length % 4 = 0) {g : Nat}
    (hg : r.length / 4 ≤ g) : spacedEnd (inGroups w ++ q) g ≠ 0 := by
  have hbounds := h.bounds
  have hlength := h.length_inGroups_eq
  rw [if_pos hfull, Nat.add_zero] at hlength
  induction g, hg using Nat.le_induction with
  | base =>
    have hend := h.isWordBoundary_end hq
    rw [hlength] at hend
    obtain ⟨g, hg⟩ : ∃ g, r.length / 4 = g + 1 := ⟨r.length / 4 - 1, by omega⟩
    rw [hg] at hend ⊢
    rw [spacedEnd_succ (by omega), if_pos hend]
    split
    · assumption
    · omega
  | succ g hg ih =>
    rw [spacedEnd_succ (by omega)]
    split
    · assumption
    split
    · omega
    · exact ih

/-- The matcher then goes back to the IBAN's own end. -/
theorem spacedEnd_full (hq : wordAhead q = false) (hfull : r.length % 4 = 0) (hcont : ¬ Continues q)
    {g : Nat} (hg : r.length / 4 ≤ g) (hmost : g ≤ r.length / 4 + ibanGroups (7 - r.length / 4) q) :
    spacedEnd (inGroups w ++ q) g = (inGroups w).length := by
  have hbounds := h.bounds
  have hlength := h.length_inGroups_eq
  rw [if_pos hfull, Nat.add_zero] at hlength
  induction g, hg using Nat.le_induction with
  | base =>
    have hend := h.isWordBoundary_end hq
    have htail := spacedTail_eq_zero (inGroups w) hcont
    rw [hlength] at hend htail
    obtain ⟨g, hg⟩ : ∃ g, r.length / 4 = g + 1 := ⟨r.length / 4 - 1, by omega⟩
    rw [hg] at hend htail hlength ⊢
    rw [spacedEnd_succ (by omega), htail, if_neg (by decide), if_pos hend, hlength]
  | succ g hg ih =>
    have hback := ih (by omega)
    -- a group follows, and the word it begins goes on behind it
    have hgroup : isIbanGroup q = true := by
      by_contra hnone
      rw [ibanGroups_none (by simpa using hnone)] at hmost
      omega
    obtain ⟨t, rest, rfl, ht, hchars⟩ := isIbanGroup_split hgroup
    have hword : wordAhead rest = true := by
      by_contra hend
      exact hcont ⟨t, rest, rfl, by omega, by omega, hchars, by simpa using hend⟩
    obtain ⟨y, rest, rfl⟩ : ∃ y rest', rest = y :: rest' := by
      cases rest with
      | nil => exact absurd hword (by decide)
      | cons y rest => exact ⟨y, rest, rfl⟩
    have hy : isWordChar y = true := hword
    have hnone : isIbanGroup (y :: rest) = false := by
      by_contra hmore
      rw [Bool.not_eq_false] at hmore
      obtain ⟨t, rest, heq, -⟩ := isIbanGroup_split hmore
      obtain ⟨rfl, -⟩ := List.cons.inj heq
      exact absurd hy (by decide)
    have hone : ibanGroups (7 - r.length / 4) (space :: (t ++ y :: rest)) ≤ 1 := by
      have hdrop : (space :: (t ++ y :: rest)).drop 5 = y :: rest := by
        rw [List.drop_succ_cons, ← ht, List.drop_left]
      cases 7 - r.length / 4 with
      | zero => exact Nat.zero_le _
      | succ most =>
        rw [ibanGroups, if_pos hgroup, hdrop, ibanGroups_none hnone]
    obtain rfl : g = r.length / 4 := by omega
    have hplace : 4 + 5 * (r.length / 4 + 1) = (inGroups w).length + 5 := by omega
    have hat : (inGroups w ++ space :: (t ++ y :: rest))[(inGroups w).length + 5]? = some y := by
      rw [List.getElem?_append_right (Nat.le_add_right _ _), Nat.add_sub_cancel_left,
        List.getElem?_cons_succ, List.getElem?_append_right (by omega), ht]
      rfl
    have hbefore : ∃ x, (inGroups w ++ space :: (t ++ y :: rest))[(inGroups w).length +
        5 - 1]? = some x ∧ isWordChar x = true := by
      refine ⟨t[3], ?_, isIbanChar_word (hchars _ (List.getElem_mem (by omega)))⟩
      rw [List.getElem?_append_right (by omega),
        show (inGroups w).length + 5 - 1 - (inGroups w).length = 3 + 1 by
          omega, List.getElem?_cons_succ,
        List.getElem?_append_left (by omega), List.getElem?_eq_getElem (by omega)]
    obtain ⟨x, hx, hxword⟩ := hbefore
    have hspace : y ≠ space := by
      rintro rfl
      exact absurd hy (by decide)
    have htail : spacedTail (inGroups w ++ space :: (t ++ y :: rest))
        ((inGroups w).length + 5) = 0 := by
      rw [spacedTail, hat]
      exact if_neg (by simpa using hspace)
    rw [spacedEnd_succ (by omega), hplace, htail, if_neg (by decide),
      not_isWordBoundary hx hxword hat hy, if_neg Bool.false_ne_true, hback]

end Opened

/-! ## An IBAN in a text -/

/-- `b` is the IBAN `w` as people write it. -/
def Writes (b w : Bytes) : Prop := ValidIban w ∧ (b = w ∨ b = inGroups w)

theorem Writes.isIban {b w : Bytes} (h : Writes b w) : isIban b = true := by
  obtain ⟨hw, rfl | rfl⟩ := h
  · apply hw.isIban
    apply List.filter_eq_self.mpr
    intro c hc
    apply decide_eq_true
    rintro rfl
    exact absurd (hw.chars _ hc) (by decide)
  · exact hw.isIban (filter_inGroups hw.chars)

/-- The scan for IBANs stands behind `before`, at a candidate. -/
def Candidate (text before candidate : Bytes) : Prop :=
  candidate ≠ [] ∧ ∃ written rest, Reaches ibanPiece text written before (candidate ++ rest) ∧
    ibanCandidateEnd (lastOr none before) (candidate ++ rest) = candidate.length

/-- A stretch behind `before` has some of `b`, which stands behind `p`. -/
def Overlaps (p b before stretch : Bytes) : Prop :=
  before.length < p.length + b.length ∧ p.length < before.length + stretch.length

/-- A candidate that fails the check takes in some of the IBAN: one that begins before it, or one
that begins with it where the text goes on like a group behind its full last one. -/
inductive Disturbed (w p q : Bytes) : Prop
  | before {x candidate : Bytes} (hbefore : x.length < p.length)
      (hcandidate : Candidate (p ++ inGroups w ++ q) x candidate)
      (hover : p.length < x.length + candidate.length) (hfails : isIban candidate = false)
  | behind {candidate : Bytes} (hfull : w.length % 4 = 0) (hcont : Continues q)
      (hcandidate : Candidate (p ++ inGroups w ++ q) p candidate)
      (hfails : isIban candidate = false)

/-- Some of `b` is in a stretch that is taken out, and the marker stands in its place. -/
def Redacts (label p b q : Bytes) : Prop :=
  ∃ (before after : Redaction Bytes) (stretch : Bytes),
    redaction (p ++ b ++ q) = before.join label stretch after ∧
    Overlaps p b before.original stretch ∧ scrubString (p ++ b ++ q) =
    before.written filtered ++ filtered label ++ after.written filtered

def PartRedacted (p b q : Bytes) : Prop := ∃ label, Redacts label p b q

/-- The IBAN `w` in groups is passed over by the scan for IBANs and by the stages behind it. -/
structure PassedOver (w p b q : Bytes) : Prop where
  grouped : b = inGroups w
  disturbed : Disturbed w p q
  fails : ∀ before candidate, Candidate (p ++ b ++ q) before candidate →
    Overlaps p b before candidate → isIban candidate = false
  later : ∀ label, label ≠ ascii "IBAN" → ¬ Redacts label p b q

theorem redacts_iff {label p b q : Bytes} : Redacts label p b q ↔
    ∃ before stretch,
      (redaction (p ++ b ++ q)).TakesOut before label stretch ∧ Overlaps p b before stretch := by
  constructor
  · rintro ⟨before, after, stretch, hredaction, hover, -⟩
    exact ⟨before.original, stretch, ⟨before, after, hredaction, rfl⟩, hover⟩
  · rintro ⟨_, stretch, ⟨before, after, hredaction, rfl⟩, hover⟩
    refine ⟨before, after, stretch, hredaction, hover, ?_⟩
    rw [← redaction_written, hredaction, Redaction.written_join]

/-- The scan for IBANs takes out the candidates that pass the check. -/
theorem ibanStage_takesOut {text before stretch : Bytes} :
    (ibanStage.redact text).TakesOut before (ascii "IBAN") stretch ↔
      Candidate text before stretch ∧ isIban stretch = true := by
  have hmarker : markers.write (ascii "IBAN") = ibanMarker := by decide
  refine (Stage.takesOut_ofPiece _ _).trans ?_
  rw [hmarker]
  constructor
  · rintro ⟨-, written, c, s, rest, rfl, hreach, hpiece⟩
    have htake : (c :: (s ++ rest)).take (s.length + 1) = c :: s := by
      rw [List.take_succ_cons, List.take_left]
    have hbracket : c ≠ 91 := by
      rintro rfl
      rw [(ibanPiece_barrier (show isBracket 91 = true from rfl)).copied] at hpiece
      exact absurd (Prod.mk.inj hpiece).1 (by decide)
    have hcopied : ∀ t, c :: t ≠ ibanMarker := fun t heq => hbracket (List.cons.inj heq).1
    unfold ibanPiece at hpiece
    dsimp only at hpiece
    split at hpiece
    · exact absurd (Prod.mk.inj hpiece).1 (hcopied [])
    rename_i hn
    obtain ⟨n, hn⟩ := Nat.exists_eq_succ_of_ne_zero hn
    split at hpiece
    · rename_i hiban
      obtain ⟨-, hlength⟩ := Prod.mk.inj hpiece
      rw [hn, Nat.succ_sub_one] at hlength
      rw [hn, hlength, htake] at hiban
      exact ⟨⟨List.cons_ne_nil c s, written, rest, hreach, by
        rw [List.cons_append, hn, hlength, List.length_cons]⟩, hiban⟩
    · obtain ⟨hcopy, -⟩ := Prod.mk.inj hpiece
      rw [hn, List.take_succ_cons] at hcopy
      exact absurd hcopy (hcopied _)
  · rintro ⟨⟨hne, written, rest, hreach, hend⟩, hiban⟩
    obtain ⟨c, s, rfl⟩ := List.exists_cons_of_ne_nil hne
    refine ⟨rfl, written, c, s, rest, rfl, hreach, ?_⟩
    have htake : (c :: (s ++ rest)).take (s.length + 1) = c :: s := by
      rw [List.take_succ_cons, List.take_left]
    rw [List.cons_append, List.length_cons] at hend
    rw [ibanPiece, hend, if_neg (Nat.succ_ne_zero _), htake, if_pos hiban, Nat.add_sub_cancel]

theorem redaction_eq (text : Bytes) :
    redaction text = Stage.redactFrom stages.tail (ibanStage.redact text) := by
  have hfirst : stages = ibanStage :: stages.tail := by
    rw [stages, List.cons_append, List.tail_cons]
  exact (congrArg (fun sts => Stage.redactAll sts text) hfirst).trans (Stage.redactAll_cons _ _ _)

/-- A stretch with the marker of the scan for IBANs was taken out by it. -/
theorem redaction_takesOut_iban {text before stretch : Bytes} :
    (redaction text).TakesOut before (ascii "IBAN") stretch ↔
      Candidate text before stretch ∧ isIban stretch = true := by
  rw [← ibanStage_takesOut, redaction_eq]
  constructor
  · intro h
    refine (Stage.takesOut_of_redactFrom h).resolve_right ?_
    rintro ⟨st, hst, hmarker⟩
    have hlater : st.marker ∈ (labels ++ [ascii "CREDIT CARD"]).tail := by
      rw [← stages_markers, ← List.map_tail]
      exact List.mem_map_of_mem hst
    rw [← hmarker] at hlater
    exact absurd hlater (by decide)
  · exact Stage.takesOut_redactFrom

theorem redacts_iban {p b q before candidate : Bytes} (h : Candidate (p ++ b ++ q) before candidate)
    (hover : Overlaps p b before candidate) (hiban : isIban candidate = true) :
    PartRedacted p b q :=
  ⟨_, redacts_iff.mpr ⟨before, candidate, redaction_takesOut_iban.mpr ⟨h, hiban⟩, hover⟩⟩

/-- There is a candidate where the IBAN stands, and it passes the check unless the text goes on like
a group behind a full last one. -/
theorem candidate_here {p b q w : Bytes} (hb : Writes b w) (hp : wordBehind (lastOr none p) = false)
    (hq : wordAhead q = false) :
    ibanCandidateEnd (lastOr none p) (b ++ q) ≠ 0 ∧
      (isIban ((b ++ q).take (ibanCandidateEnd (lastOr none p) (b ++ q))) = true ∨
        b = inGroups w ∧ w.length % 4 = 0 ∧ Continues q) := by
  have hiban := hb.isIban
  have hself : ibanCandidateEnd (lastOr none p) (b ++ q) = b.length →
      ibanCandidateEnd (lastOr none p) (b ++ q) ≠ 0 ∧
        (isIban ((b ++ q).take (ibanCandidateEnd (lastOr none p) (b ++ q))) = true ∨
          b = inGroups w ∧ w.length % 4 = 0 ∧ Continues q) := by
    intro hend
    rw [hend, List.take_left]
    refine ⟨?_, .inl hiban⟩
    intro hnil
    rw [List.length_eq_zero_iff.mp hnil] at hiban
    exact absurd hiban (by decide)
  obtain ⟨hw, hform⟩ := hb
  obtain ⟨a, b', c, d, r, h⟩ := hw.opened
  rcases hform with rfl | rfl
  · exact hself (candidate_compact hw hq hp)
  by_cases hfull : r.length % 4 = 0
  swap
  · exact hself (h.candidate_short hp hq hfull)
  by_cases hcont : Continues q
  · have hend : ibanCandidateEnd (lastOr none p) (inGroups w ++ q) ≠ 0 := by
      rw [h.candidate_eq hp hq, if_pos hfull]
      exact h.spacedEnd_ne_zero hq hfull (Nat.le_add_right _ _)
    have hlength := h.length_eq
    exact ⟨hend, .inr ⟨rfl, by omega, hcont⟩⟩
  · apply hself
    rw [h.candidate_eq hp hq, if_pos hfull]
    exact h.spacedEnd_full hq hfull hcont (Nat.le_add_right _ _) (Nat.le_refl _)

/-- The scan stands at a candidate that takes in some of the IBAN, before it or where it stands. -/
theorem exists_candidate {p b q w : Bytes} (hb : Writes b w)
    (hp : wordBehind (lastOr none p) = false) (hq : wordAhead q = false) :
    ∃ before candidate, Candidate (p ++ b ++ q) before candidate ∧
      Overlaps p b before candidate ∧ (isIban candidate = false → b = inGroups w ∧
        Disturbed w p q) := by
  have hfits : ∀ prev c s, (ibanPiece prev c s).2 ≤ s.length :=
    (ibanPiece_barrier (show isBracket 91 = true from rfl)).fits
  have hne : b ≠ [] := by
    rintro rfl
    exact absurd hb.isIban (by decide)
  have hpos := List.length_pos_iff.mpr hne
  have htext : p ++ b ++ q = [] ++ p ++ (b ++ q) := by simp
  have hstart : Reaches ibanPiece ([] ++ p ++ (b ++ q)) [] [] (p ++ (b ++ q)) := .start
  rcases Reaches.or_over hfits p (b ++ q) hstart with ⟨written, hreach⟩ |
    ⟨written, x, y, s, rest, c, tok, hsplit, hy, hrest, hreach, htok, hover⟩
  · -- the scan comes to stand before the IBAN
    rw [← htext, List.nil_append] at hreach
    obtain ⟨hend, hkind⟩ := candidate_here hb hp hq
    have hle := ibanCandidateEnd_le (lastOr none p) (b ++ q)
    generalize hedef : ibanCandidateEnd (lastOr none p) (b ++ q) = e at hend hkind hle
    have hlength : ((b ++ q).take e).length = e := List.length_take_of_le hle
    have hcandidate : Candidate (p ++ b ++ q) p ((b ++ q).take e) := by
      refine ⟨List.ne_nil_of_length_pos (by omega), written, (b ++ q).drop e, ?_, ?_⟩
      · rwa [List.take_append_drop]
      · rw [List.take_append_drop, hedef, hlength]
    refine ⟨p, _, hcandidate, ⟨by omega, by omega⟩, fun hfails => ?_⟩
    rcases hkind with hiban | ⟨rfl, hfull, hcont⟩
    · exact absurd (hiban.symm.trans hfails) (by decide)
    · exact ⟨rfl, .behind hfull hcont hcandidate hfails⟩
  · rw [← htext] at hreach
    rw [List.nil_append] at hsplit
    have hypos := List.length_pos_iff.mpr hy
    have hend : ibanCandidateEnd (lastOr none x) (c :: (s ++ rest)) = s.length + 1 := by
      have hsecond := congrArg Prod.snd htok
      unfold ibanPiece at hsecond
      dsimp only at hsecond
      split at hsecond
      · exact absurd hsecond (by dsimp only; omega)
      split at hsecond <;> dsimp only at hsecond <;> omega
    have hplength : p.length = x.length + y.length := by rw [hsplit, List.length_append]
    have hcandidate : Candidate (p ++ b ++ q) x (c :: s) :=
      ⟨List.cons_ne_nil c s, written, rest, hreach, hend⟩
    have hbehind : p.length < x.length + (c :: s).length := by
      rw [List.length_cons]
      omega
    refine ⟨x, c :: s, hcandidate, ⟨by omega, hbehind⟩, fun hfails => ?_⟩
    rcases hb with ⟨hw, rfl | rfl⟩
    · -- none reaches into a compact one
      obtain ⟨z, hz⟩ : ∃ z, y.getLast? = some z := ⟨_, List.getLast?_eq_some_getLast hy⟩
      have hzword : isWordChar z = false := by
        rw [hsplit, lastOr_append, lastOr, hz] at hp
        exact hp
      have hle : ibanCandidateEnd (lastOr none x) (y ++ _ ++ q) ≤ y.length :=
        candidate_before_compact hw hz hzword
      rw [List.append_assoc, hrest, hend] at hle
      omega
    · exact ⟨rfl, .before (by omega) hcandidate hbehind hfails⟩

/-- Some of every IBAN is taken out of a text, unless it is in groups and every candidate that takes
in some of it fails the check, one that is longer than the IBAN among them, and no later stage
takes any of it. -/
theorem iban_redacted {p b q w : Bytes} (hb : Writes b w) (hp : wordBehind (lastOr none p) = false)
    (hq : wordAhead q = false) : PartRedacted p b q ↔ ¬ PassedOver w p b q := by
  constructor
  · rintro ⟨label, hredacts⟩ hpassed
    by_cases hlabel : label = ascii "IBAN"
    · subst hlabel
      obtain ⟨before, candidate, htakes, hover⟩ := redacts_iff.mp hredacts
      obtain ⟨hcandidate, hiban⟩ := redaction_takesOut_iban.mp htakes
      have hfails := hpassed.fails before candidate hcandidate hover
      exact absurd (hiban.symm.trans hfails) (by decide)
    · exact hpassed.later label hlabel hredacts
  · intro hfree
    by_contra hnone
    have hfails : ∀ before candidate, Candidate (p ++ b ++ q) before candidate →
        Overlaps p b before candidate → isIban candidate = false := by
      intro before candidate hcandidate hover
      by_contra hiban
      exact hnone (redacts_iban hcandidate hover (by simpa using hiban))
    obtain ⟨before, candidate, hcandidate, hover, hdisturbed⟩ := exists_candidate hb hp hq
    obtain ⟨hgrouped, hdisturbed⟩ := hdisturbed (hfails before candidate hcandidate hover)
    exact hfree ⟨hgrouped, hdisturbed, hfails, fun label _ hredacts => hnone ⟨label, hredacts⟩⟩

/-- The scan does not stand at the candidate `GG22 HHHH IIII BE68 ...`: one that begins before it
ends where the IBAN's groups begin. -/
theorem iban_redacted_behind_code :
    PartRedacted (ascii "AA11 BBBB CCCC DDDD EEEE FFFF GG22 HHHH IIII ")
      (ascii "BE68 5390 0754 7034") [] := by
  have hvalid : ValidIban (ascii "BE68539007547034") :=
    ⟨by decide, by decide, List.all_eq_true.mp (by decide),
      ⟨66, 69, 54, 56, ascii "539007547034", by decide, rfl, rfl, rfl, rfl⟩, by decide⟩
  have hcandidate : Candidate (ascii "AA11 BBBB CCCC DDDD EEEE FFFF GG22 HHHH IIII " ++
      ascii "BE68 5390 0754 7034" ++ []) (ascii "AA11 BBBB CCCC DDDD EEEE FFFF GG22 HHHH IIII ")
      (ascii "BE68 5390 0754 7034") := by
    have htext : ascii "AA11 BBBB CCCC DDDD EEEE FFFF GG22 HHHH IIII " ++
        ascii "BE68 5390 0754 7034" ++ [] =
        65 :: (ascii "A11 BBBB CCCC DDDD EEEE FFFF GG22 HHHH IIII" ++
          ascii " BE68 5390 0754 7034") := by decide
    have hlonger : ibanPiece none 65 (ascii "A11 BBBB CCCC DDDD EEEE FFFF GG22 HHHH IIII" ++
        ascii " BE68 5390 0754 7034") = (ascii "AA11 BBBB CCCC DDDD EEEE FFFF GG22 HHHH IIII",
        43) := by decide
    have hspace :
        ibanPiece (lastOr none (ascii "AA11 BBBB CCCC DDDD EEEE FFFF GG22 HHHH IIII")) space
        ([] ++ ascii "BE68 5390 0754 7034") = ([space], 0) := by decide
    have hreach := (Reaches.start.token hlonger).token hspace
    rw [htext]
    exact ⟨by decide, _, [], hreach, by decide⟩
  apply (iban_redacted ⟨hvalid, .inr (by decide)⟩ (by decide) (by decide)).mpr
  intro hpassed
  exact absurd (hpassed.fails _ _ hcandidate ⟨by decide, by decide⟩) (by decide)

/-- A country code behind an IBAN of full groups is taken for its last group, and the whole of it
fails the check. -/
theorem iban_beside_code_survives :
    ¬ ∀ p b q w, Writes b w → wordBehind (lastOr none p) = false → wordAhead q = false →
        PartRedacted p b q := by
  intro h
  have hvalid : ValidIban (ascii "BE68539007547034") :=
    ⟨by decide, by decide, List.all_eq_true.mp (by decide),
      ⟨66, 69, 54, 56, ascii "539007547034", by decide, rfl, rfl, rfl, rfl⟩, by decide⟩
  have hsame : scrubString ([] ++ ascii "BE68 5390 0754 7034" ++ ascii " BE") =
      ascii "BE68 5390 0754 7034 BE" := by decide
  obtain ⟨label, before, after, stretch, -, -, hout⟩ :=
    h [] (ascii "BE68 5390 0754 7034") (ascii " BE") _ ⟨hvalid, .inr (by decide)⟩
      (by decide) (by decide)
  have hmarker : (91 : UInt8) ∈ ascii "BE68 5390 0754 7034 BE" := by
    rw [← hsame, hout]
    simp [filtered, ascii]
  exact absurd hmarker (by decide)

end ForgeOps.PiiScrubber
