import ForgeOpsTracker.SqlStatement

/-! How `number_end` reads a text that is followed by something else: what cannot be
part of a number changes nothing, and more text can only help a number that ends
before it or where a word cannot go on. -/

namespace ForgeOps.SqlStatement

/-! ## What a part of a number is -/

theorem fractionLength_eq_some {s : Bytes} {n : Nat} : fractionLength s = some n ↔
    ∃ d t, s = 46 :: d :: t ∧ isDigitChar d = true ∧ n = 1 + digitsLength (d :: t) := by
  constructor
  · intro h
    match s with
    | [] | [_] => exact absurd h (by simp [fractionLength])
    | dot :: d :: t =>
      rw [fractionLength] at h
      split at h
      · rename_i hdot
        obtain ⟨rfl, hd⟩ := hdot
        exact ⟨d, t, rfl, hd, (Option.some.inj h).symm⟩
      · exact absurd h (by simp)
  · rintro ⟨d, t, rfl, hd, rfl⟩
    exact if_pos ⟨rfl, hd⟩

theorem exponentLength_eq_some {s : Bytes} {n : Nat} : exponentLength s = some n ↔
    ∃ e t, s = e :: t ∧ (e = 101 ∨ e = 69) ∧ 0 < digitsLength (t.drop (signLength t)) ∧
      n = 1 + signLength t + digitsLength (t.drop (signLength t)) := by
  constructor
  · intro h
    cases s with
    | nil => exact absurd h (by simp [exponentLength])
    | cons e t =>
      simp only [exponentLength] at h
      split at h
      · rename_i he
        split at h
        · rename_i hdigits
          exact ⟨e, t, rfl, he, hdigits, (Option.some.inj h).symm⟩
        · exact absurd h (by simp)
      · exact absurd h (by simp)
  · rintro ⟨e, t, rfl, he, hdigits, rfl⟩
    simp only [exponentLength, if_pos he, gt_iff_lt, if_pos hdigits]

theorem radixEnd_eq_some {s : Bytes} {n : Nat} : radixEnd s = some n ↔
    ∃ x t, s = 48 :: x :: t ∧ 0 < (t.takeWhile (radixDigit x)).length ∧
      endsHere (t.drop (t.takeWhile (radixDigit x)).length) = true ∧
      n = 2 + (t.takeWhile (radixDigit x)).length := by
  constructor
  · intro h
    match s with
    | [] | [_] => exact absurd h (by simp [radixEnd])
    | zero :: x :: t =>
      simp only [radixEnd] at h
      split at h
      · rename_i hradix
        obtain ⟨rfl, hdigits, hend⟩ := hradix
        exact ⟨x, t, rfl, hdigits, hend, (Option.some.inj h).symm⟩
      · exact absurd h (by simp)
  · rintro ⟨x, t, rfl, hdigits, hend, rfl⟩
    exact if_pos ⟨rfl, hdigits, hend⟩

/-- Only after `0x` and `0b` is anything a digit of another base. -/
theorem radix_of_digits {x : UInt8} {t : Bytes} (h : 0 < (t.takeWhile (radixDigit x)).length) :
    x = 120 ∨ x = 88 ∨ x = 98 ∨ x = 66 := by
  by_contra hnot
  simp only [not_or] at hnot
  have hnone : radixDigit x = fun _ => false := by
    funext c
    simp [radixDigit, hnot]
  rw [hnone] at h
  cases t <;> exact absurd h (by simp)

/-- A mantissa's number ends behind an exponent or where the mantissa does. -/
theorem mantissaEnd_cases {s : Bytes} {n k : Nat} (h : mantissaEnd s n = some k) :
    (∃ e, exponentLength (s.drop n) = some e ∧ k = n + e ∧ endsHere (s.drop (n + e)) = true) ∨
      k = n ∧ endsHere (s.drop n) = true := by
  unfold mantissaEnd at h
  split at h
  · rename_i e he
    split at h
    · rename_i hend
      exact .inl ⟨e, he, (Option.some.inj h).symm, hend⟩
    split at h
    · rename_i hend
      exact .inr ⟨(Option.some.inj h).symm, hend⟩
    · exact absurd h (by simp)
  · split at h
    · rename_i hend
      exact .inr ⟨(Option.some.inj h).symm, hend⟩
    · exact absurd h (by simp)

/-- A number is one of another base, or a mantissa with or without a fraction. -/
theorem numberEnd_cases {s : Bytes} {n : Nat} (h : numberEnd s = some n) : radixEnd s = some n ∨
    (∃ f, fractionLength (s.drop (digitsLength s)) = some f ∧
    mantissaEnd s (digitsLength s + f) = some n) ∨
      0 < digitsLength s ∧ mantissaEnd s (digitsLength s) = some n := by
  unfold numberEnd at h
  split at h
  · rename_i hradix
    exact .inl (hradix.trans h)
  dsimp only at h
  split at h
  · rename_i hfraction
    obtain ⟨_, hf, hmantissa⟩ := Option.bind_eq_some_iff.mp hfraction
    obtain ⟨f, hlength, rfl⟩ := Option.map_eq_some_iff.mp hf
    exact .inr (.inl ⟨f, hlength, hmantissa.trans h⟩)
  · split at h
    · rename_i hpos
      exact .inr (.inr ⟨hpos, h⟩)
    · exact absurd h (by simp)

/-! ## The parts of a number lie inside the text -/

theorem digitsLength_le (s : Bytes) : digitsLength s ≤ s.length :=
  (List.takeWhile_prefix _).length_le

theorem fractionLength_le {s : Bytes} {n : Nat} (h : fractionLength s = some n) : n ≤ s.length := by
  obtain ⟨d, t, rfl, -, rfl⟩ := fractionLength_eq_some.mp h
  have := digitsLength_le (d :: t)
  simp only [List.length_cons] at this ⊢
  omega

theorem signLength_le (s : Bytes) : signLength s ≤ s.length := by
  cases s with
  | nil => exact Nat.le_refl _
  | cons c s =>
    unfold signLength
    split
    · exact Nat.succ_le_succ (Nat.zero_le _)
    · exact Nat.zero_le _

theorem exponentLength_le {s : Bytes} {n : Nat} (h : exponentLength s = some n) : n ≤ s.length := by
  obtain ⟨e, t, rfl, -, -, rfl⟩ := exponentLength_eq_some.mp h
  have hsign := signLength_le t
  have hdigits := digitsLength_le (t.drop (signLength t))
  simp only [List.length_drop, List.length_cons] at hdigits ⊢
  omega

theorem mantissaEnd_le {s : Bytes} {n k : Nat} (hn : n ≤ s.length) (h : mantissaEnd s n = some k) :
    k ≤ s.length := by
  rcases mantissaEnd_cases h with ⟨e, he, rfl, -⟩ | ⟨rfl, -⟩
  · have hle := exponentLength_le he
    rw [List.length_drop] at hle
    omega
  · exact hn

theorem radixEnd_le {s : Bytes} {n : Nat} (h : radixEnd s = some n) : n ≤ s.length := by
  obtain ⟨x, t, rfl, -, -, rfl⟩ := radixEnd_eq_some.mp h
  have hle : (t.takeWhile (radixDigit x)).length ≤ t.length := (List.takeWhile_prefix _).length_le
  simp only [List.length_cons]
  omega

/-- A number ends inside the text. -/
theorem numberEnd_le {s : Bytes} {n : Nat} (h : numberEnd s = some n) : n ≤ s.length := by
  have hdigits := digitsLength_le s
  rcases numberEnd_cases h with hradix | ⟨f, hf, hmantissa⟩ | ⟨-, hmantissa⟩
  · exact radixEnd_le hradix
  · have hle := fractionLength_le hf
    rw [List.length_drop] at hle
    exact mantissaEnd_le (by omega) hmantissa
  · exact mantissaEnd_le hdigits hmantissa

/-! ## Text that no number goes on in -/

/-- Neither a word character, a sign nor the start of a fraction stands at the head. -/
def inert : Bytes → Bool
  | [] => true
  | c :: s => !isWord c && !isSign c && (c != 46 || !(s.head?.map isDigitChar).getD false)

theorem isWord_of_digit {c : UInt8} (h : isDigitChar c = true) : isWord c = true := by
  simp only [isDigitChar] at h
  simp [isWord, Byte.isWord, Byte.isAlnum, h]

theorem isWord_of_hex {c : UInt8} (h : isHexChar c = true) : isWord c = true := by
  simp only [isHexChar, Byte.isHex, Byte.isDigit, Bool.or_eq_true, Bool.and_eq_true,
    decide_eq_true_eq] at h
  simp only [isWord, Byte.isWord, Byte.isAlnum, Byte.isAlpha, Byte.isUpper,
    Byte.isLower, Byte.isDigit, Bool.or_eq_true, Bool.and_eq_true, decide_eq_true_eq]
  grind

theorem isWord_of_radixDigit {x c : UInt8} (h : radixDigit x c = true) : isWord c = true := by
  unfold radixDigit at h
  split at h
  · exact isWord_of_hex h
  split at h
  · simp only [isBinaryChar, Bool.or_eq_true, beq_iff_eq] at h
    rcases h with rfl | rfl <;> rfl
  · exact absurd h (by decide)

section
variable {rest : Bytes} (h : inert rest = true)
include h

theorem not_word_of_inert {c : UInt8} (hc : rest.head? = some c) : isWord c = false := by
  cases rest with
  | nil => exact absurd hc (by simp)
  | cons d s =>
    obtain rfl : d = c := Option.some.inj hc
    simp only [inert, Bool.and_eq_true, Bool.not_eq_true'] at h
    exact h.1.1

theorem endsHere_of_inert : endsHere rest = true := by
  cases rest with
  | nil => rfl
  | cons c s =>
    have := not_word_of_inert h rfl
    simp [endsHere, this]

theorem takeWhile_append_inert {p : UInt8 → Bool}
    (hp : ∀ c, p c = true → isWord c = true) (r : Bytes) :
    (r ++ rest).takeWhile p = r.takeWhile p := by
  refine takeWhile_append_stop (fun c hc => ?_) r
  have hword := not_word_of_inert h hc
  by_contra hpc
  rw [hp c (by simpa using hpc)] at hword
  exact absurd hword (by decide)

theorem digitsLength_append (r : Bytes) : digitsLength (r ++ rest) = digitsLength r := by
  rw [digitsLength, takeWhile_append_inert h (fun _ hc => isWord_of_digit hc), digitsLength]

theorem endsHere_append (r : Bytes) : endsHere (r ++ rest) = endsHere r := by
  cases r with
  | nil => exact endsHere_of_inert h
  | cons c r => rfl

theorem fractionLength_append (r : Bytes) : fractionLength (r ++ rest) = fractionLength r := by
  match r with
  | [] =>
    cases rest with
    | nil => rfl
    | cons c s =>
      cases s with
      | nil => rfl
      | cons d s =>
        apply if_neg
        rintro ⟨rfl, hd⟩
        simp [inert, hd] at h
  | [c] =>
    cases rest with
    | nil => rfl
    | cons d s =>
      apply if_neg
      rintro ⟨rfl, hd⟩
      have hword := not_word_of_inert h rfl
      rw [isWord_of_digit hd] at hword
      exact absurd hword (by decide)
  | c :: d :: s =>
    have hdigits := digitsLength_append h (d :: s)
    simp only [List.cons_append] at hdigits
    simp only [List.cons_append, fractionLength, hdigits]

theorem signLength_append (r : Bytes) : signLength (r ++ rest) = signLength r := by
  cases r with
  | nil =>
    cases rest with
    | nil => rfl
    | cons c s =>
      simp only [inert, Bool.and_eq_true, Bool.not_eq_true'] at h
      simp [signLength, h.1.2]
  | cons c r => rfl

theorem exponentLength_append (r : Bytes) : exponentLength (r ++ rest) = exponentLength r := by
  cases r with
  | nil =>
    cases rest with
    | nil => rfl
    | cons c s =>
      apply if_neg
      intro hc
      have hword := not_word_of_inert h rfl
      rcases hc with rfl | rfl
      · exact absurd hword (by decide)
      · exact absurd hword (by decide)
  | cons e r =>
    simp only [List.cons_append, exponentLength, signLength_append h,
      List.drop_append_of_le_length (signLength_le r), digitsLength_append h]

theorem radixEnd_append (r : Bytes) : radixEnd (r ++ rest) = radixEnd r := by
  match r with
  | [] =>
    match rest with
    | [] => rfl
    | [_] => rfl
    | c :: d :: s =>
      apply if_neg
      rintro ⟨rfl, -⟩
      exact absurd (not_word_of_inert h rfl) (by decide)
  | [c] =>
    cases rest with
    | nil => rfl
    | cons x s =>
      apply if_neg
      rintro ⟨-, hdigits, -⟩
      have hword := not_word_of_inert h rfl
      rcases radix_of_digits hdigits with rfl | rfl | rfl | rfl <;> exact absurd hword (by decide)
  | c :: x :: s =>
    have hle : (s.takeWhile (radixDigit x)).length ≤ s.length := (List.takeWhile_prefix _).length_le
    simp only [List.cons_append, radixEnd,
      takeWhile_append_inert h (fun _ hc => isWord_of_radixDigit hc),
      List.drop_append_of_le_length hle, endsHere_append h]

end

section
variable {rest : Bytes} (h : inert rest = true)
include h

theorem mantissaEnd_append {r : Bytes} {n : Nat} (hn : n ≤ r.length) :
    mantissaEnd (r ++ rest) n = mantissaEnd r n := by
  unfold mantissaEnd
  rw [List.drop_append_of_le_length hn, exponentLength_append h, endsHere_append h]
  cases he : exponentLength (r.drop n) with
  | none => rfl
  | some e =>
    have hle : n + e ≤ r.length := by
      have := exponentLength_le he
      rw [List.length_drop] at this
      omega
    simp only [List.drop_append_of_le_length hle, endsHere_append h]

/-- Inert text behind a text does not change the number at its head. -/
theorem numberEnd_append (r : Bytes) : numberEnd (r ++ rest) = numberEnd r := by
  have hint := digitsLength_le r
  have hfraction : ((fractionLength (r.drop (digitsLength r))).map (digitsLength r + ·)).bind
      (mantissaEnd (r ++ rest)) =
      ((fractionLength (r.drop (digitsLength r))).map (digitsLength r + ·)).bind
      (mantissaEnd r) := by
    cases hf : fractionLength (r.drop (digitsLength r)) with
    | none => rfl
    | some f =>
      have hle := fractionLength_le hf
      rw [List.length_drop] at hle
      show mantissaEnd (r ++ rest) (digitsLength r + f) = mantissaEnd r (digitsLength r + f)
      exact mantissaEnd_append h (by omega)
  simp only [numberEnd, radixEnd_append h, digitsLength_append h,
    List.drop_append_of_le_length hint, fractionLength_append h, hfraction,
    mantissaEnd_append h hint]

end

/-! ## More text behind a standalone number -/

/-- No word goes on from the end of `s` into `rest`. -/
def Boundary (s rest : Bytes) : Prop :=
  ∀ c d, s.getLast? = some c → rest.head? = some d → isWord c = true → isWord d = false

theorem Boundary.endsHere {s rest : Bytes} (h : Boundary s rest) {c : UInt8}
    (hc : s.getLast? = some c) (hword : isWord c = true) : endsHere rest = true := by
  cases rest with
  | nil => rfl
  | cons d t =>
    have := h c d hc rfl hword
    simp [SqlStatement.endsHere, this]

theorem Boundary.drop {s rest : Bytes} (h : Boundary s rest) (n : Nat) :
    Boundary (s.drop n) rest := by
  intro c d hc
  apply h c d
  rw [List.getLast?_drop] at hc
  split at hc
  · exact absurd hc (by simp)
  · exact hc

theorem Boundary.tail {c : UInt8} {s rest : Bytes} (h : Boundary (c :: s) rest) : Boundary s rest :=
  h.drop 1

section
variable {p : UInt8 → Bool} (hp : ∀ c, p c = true → isWord c = true)
include hp

/-- A run of word characters at the head of `s` does not go on into `rest`. -/
theorem takeWhile_append_boundary {s rest : Bytes} (hne : s ≠ []) (h : Boundary s rest) :
    (s ++ rest).takeWhile p = s.takeWhile p := by
  induction s with
  | nil => exact absurd rfl hne
  | cons c s ih =>
    rw [List.cons_append, List.takeWhile_cons, List.takeWhile_cons]
    split
    · rename_i hc
      cases s with
      | cons d s => rw [ih (List.cons_ne_nil d s) h.tail]
      | nil =>
        cases rest with
        | nil => rfl
        | cons e t =>
          have hword := h c e rfl rfl (hp c hc)
          have he : ¬ p e := fun he => by simp [hp e he] at hword
          rw [List.nil_append, List.takeWhile_cons_of_neg he, List.takeWhile_nil]
    · rfl

/-- When such a run is all of `s`, no word character follows. -/
theorem endsHere_of_run {s rest : Bytes} (hne : s ≠ []) (hrun : (s.takeWhile p).length = s.length)
    (h : Boundary s rest) : endsHere rest = true := by
  have hall : s.takeWhile p = s := (List.takeWhile_prefix p).eq_of_length hrun
  have hlast := List.getLast?_eq_getLast_of_ne_nil hne
  apply h.endsHere hlast
  apply hp
  have hp : s.all p := by
    rw [← hall]
    exact List.all_takeWhile
  exact List.all_eq_true.mp hp _ (List.getLast_mem hne)

end

theorem endsHere_drop_append {s rest : Bytes} {n : Nat} (hn : n ≤ s.length)
    (h : endsHere (s.drop n) = true) (hend : n = s.length → endsHere rest = true) :
    endsHere ((s ++ rest).drop n) = true := by
  rw [List.drop_append_of_le_length hn]
  cases hs : s.drop n with
  | nil => exact hend (Nat.le_antisymm hn (List.drop_eq_nil_iff.mp hs))
  | cons c t =>
    rw [hs] at h
    exact h

/-- Behind a mantissa: its end, or an exponent and its end. -/
def tailStands (t : Bytes) : Prop :=
  endsHere t = true ∨ ∃ e, exponentLength t = some e ∧ endsHere (t.drop e) = true

theorem exponentLength_boundary {t rest : Bytes} {e : Nat} (h : exponentLength t = some e)
    (hb : Boundary t rest) :
    exponentLength (t ++ rest) = some e ∧ (e = t.length → endsHere rest = true) := by
  obtain ⟨c, t, rfl, hc, hdigits, rfl⟩ := exponentLength_eq_some.mp h
  have hne : t.drop (signLength t) ≠ [] := by
    intro hnil
    rw [hnil] at hdigits
    exact absurd hdigits (by decide)
  have hsign : signLength (t ++ rest) = signLength t := by
    cases t with
    | nil => exact absurd rfl hne
    | cons d t => rfl
  have hrest : Boundary (t.drop (signLength t)) rest := hb.tail.drop _
  have hrun : digitsLength ((t ++ rest).drop (signLength (t ++ rest))) =
      digitsLength (t.drop (signLength t)) := by
    rw [hsign, List.drop_append_of_le_length (signLength_le t), digitsLength, digitsLength,
      takeWhile_append_boundary (fun _ hd => isWord_of_digit hd) hne hrest]
  constructor
  · exact exponentLength_eq_some.mpr ⟨c, t ++ rest, rfl, hc, hrun ▸ hdigits, by rw [hrun, hsign]⟩
  · intro hlen
    apply endsHere_of_run (fun _ hd => isWord_of_digit hd) hne _ hrest
    rw [List.length_drop]
    simp only [digitsLength, List.length_cons] at hlen
    omega

theorem tailStands_append {t rest : Bytes} (h : tailStands t) (hb : Boundary t rest)
    (hend : t = [] → endsHere rest = true) : tailStands (t ++ rest) := by
  rcases h with h | ⟨e, he, h⟩
  · left
    cases t with
    | nil => exact hend rfl
    | cons c t => exact h
  · right
    obtain ⟨hsame, hlast⟩ := exponentLength_boundary he hb
    exact ⟨e, hsame, endsHere_drop_append (exponentLength_le he) h hlast⟩

theorem mantissaEnd_isSome {s : Bytes} {n : Nat} :
    (mantissaEnd s n).isSome = true ↔ tailStands (s.drop n) := by
  unfold mantissaEnd tailStands
  cases exponentLength (s.drop n) with
  | none => simp
  | some e =>
    simp only [Option.some.injEq, exists_eq_left', List.drop_drop]
    split
    · rename_i h
      simp [h]
    · rename_i h
      simp [h]

/-- Behind a fraction's dot nothing else has to stand. -/
theorem tailStands_of_fraction {t : Bytes} {f : Nat} (h : fractionLength t = some f) :
    tailStands t := by
  obtain ⟨d, t, rfl, -, -⟩ := fractionLength_eq_some.mp h
  exact .inl rfl

/-- What a standalone number is: one of another base, digits with an end behind them, or a
fraction alone with an end behind it. -/
theorem numberEnd_isSome (s : Bytes) : (numberEnd s).isSome = true ↔
    (radixEnd s).isSome = true ∨
      (0 < digitsLength s ∧ tailStands (s.drop (digitsLength s))) ∨
      (digitsLength s = 0 ∧ ∃ f, fractionLength s = some f ∧ tailStands (s.drop f)) := by
  unfold numberEnd
  cases radixEnd s with
  | some n => simp
  | none =>
    simp only [Option.isSome_none, Bool.false_eq_true, false_or]
    rcases Nat.eq_zero_or_pos (digitsLength s) with hzero | hpos
    · simp only [hzero, List.drop_zero, Nat.zero_add, Nat.lt_irrefl, false_and, true_and, false_or,
        if_false]
      cases hf : fractionLength s with
      | none => simp
      | some f =>
        have hmantissa : (mantissaEnd s f).isSome = true ↔ tailStands (s.drop f) :=
          mantissaEnd_isSome
        simp only [Option.map_some, Option.bind_some, Option.some.injEq,
          exists_eq_left', ← hmantissa]
        cases mantissaEnd s f <;> simp
    · simp only [hpos, if_true, true_and, Nat.ne_of_gt hpos, false_and, or_false]
      rw [← mantissaEnd_isSome]
      cases hf : fractionLength (s.drop (digitsLength s)) with
      | none => simp
      | some f =>
        have hstands : (mantissaEnd s (digitsLength s)).isSome = true :=
          mantissaEnd_isSome.mpr (tailStands_of_fraction hf)
        simp only [Option.map_some, Option.bind_some]
        cases mantissaEnd s (digitsLength s + f) with
        | none => simp
        | some n => simp [hstands]

theorem radixEnd_boundary {s rest : Bytes} (h : (radixEnd s).isSome = true) (hb : Boundary s rest) :
    (radixEnd (s ++ rest)).isSome = true := by
  obtain ⟨n, h⟩ := Option.isSome_iff_exists.mp h
  obtain ⟨x, s, rfl, hdigits, hend, rfl⟩ := radixEnd_eq_some.mp h
  have hne : s ≠ [] := by
    rintro rfl
    exact absurd hdigits (by simp)
  have hrun := takeWhile_append_boundary
    (fun _ hd => isWord_of_radixDigit (x := x) hd) hne hb.tail.tail
  have hstop : endsHere ((s ++ rest).drop (s.takeWhile (radixDigit x)).length) = true := by
    apply endsHere_drop_append (List.takeWhile_prefix _).length_le hend
    intro hall
    exact endsHere_of_run (fun _ hd => isWord_of_radixDigit (x := x) hd) hne hall hb.tail.tail
  rw [Option.isSome_iff_exists]
  exact ⟨_, radixEnd_eq_some.mpr ⟨x, s ++ rest, rfl, by rwa [hrun], by rwa [hrun], rfl⟩⟩

/-- A text that starts with a standalone number still does when no word goes on behind it. -/
theorem numberEnd_boundary {s rest : Bytes} (h : (numberEnd s).isSome = true)
    (hb : Boundary s rest) : (numberEnd (s ++ rest)).isSome = true := by
  rw [numberEnd_isSome] at h ⊢
  rcases h with hradix | ⟨hpos, htail⟩ | ⟨hzero, f, hf, htail⟩
  · exact .inl (radixEnd_boundary hradix hb)
  · have hne : s ≠ [] := by
      rintro rfl
      exact absurd hpos (by decide)
    have hrun : digitsLength (s ++ rest) = digitsLength s :=
      congrArg List.length (takeWhile_append_boundary (fun _ hd => isWord_of_digit hd) hne hb)
    refine .inr (.inl ⟨hrun ▸ hpos, ?_⟩)
    rw [hrun, List.drop_append_of_le_length (digitsLength_le s)]
    apply tailStands_append htail (hb.drop _)
    intro hnil
    apply endsHere_of_run (fun _ hd => isWord_of_digit hd) hne _ hb
    exact Nat.le_antisymm (digitsLength_le s) (List.drop_eq_nil_iff.mp hnil)
  · obtain ⟨d, s, rfl, hd, rfl⟩ := fractionLength_eq_some.mp hf
    have hrun : digitsLength (d :: s ++ rest) = digitsLength (d :: s) := congrArg List.length
      (takeWhile_append_boundary (fun _ hd => isWord_of_digit hd) (List.cons_ne_nil d s) hb.tail)
    have hint : digitsLength (46 :: d :: s ++ rest) = digitsLength (46 :: d :: s) :=
      congrArg List.length
      (takeWhile_append_boundary (fun _ hd => isWord_of_digit hd) (List.cons_ne_nil 46 (d :: s)) hb)
    have hle := fractionLength_le hf
    have hsame : fractionLength (46 :: d :: s ++ rest) = some (1 + digitsLength (d :: s)) :=
      fractionLength_eq_some.mpr ⟨d, s ++ rest, rfl, hd, by rw [← List.cons_append, hrun]⟩
    refine .inr (.inr ⟨hint.trans hzero, _, hsame, ?_⟩)
    rw [List.drop_append_of_le_length hle]
    apply tailStands_append htail (hb.drop _)
    intro hnil
    apply endsHere_of_run (fun _ hd => isWord_of_digit hd) (List.cons_ne_nil d s) _ hb.tail
    have hlen := Nat.le_antisymm hle (List.drop_eq_nil_iff.mp hnil)
    simp only [digitsLength, List.length_cons] at hlen ⊢
    omega

end ForgeOps.SqlStatement
