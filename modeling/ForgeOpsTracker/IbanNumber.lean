import Mathlib.Data.List.Rotate
import Mathlib.Data.Nat.Digits.Defs
import ForgeOpsTracker.PiiScrubber

/-! The number whose remainder `is_iban` takes, and the buffer it takes it from. -/

namespace ForgeOps.PiiScrubber

/-! ## As it runs -/

/-- `compact` -/
abbrev CompactBuffer := Vector UInt8 64

/-- What the copying loop comes to: `n` bytes are in the buffer, there is one too many, or it has
written behind the end of the buffer. -/
inductive Copied
  | compact (buffer : CompactBuffer) (n : Nat)
  | tooLong
  | overrun

/-- The copying loop, with `n` bytes written. -/
def copyCompact (buffer : CompactBuffer) (n : Nat) : Bytes → Copied
  | [] => .compact buffer n
  | c :: rest =>
    if c = space then copyCompact buffer n rest
    else if n = 34 then .tooLong
    else if h : n < 64 then copyCompact (buffer.set n c) (n + 1) rest
    else .overrun

/-- The body of the second loop, on `unsigned`. -/
def remainderStep (remainder : UInt32) (c : UInt8) : UInt32 :=
  if isAsciiUpper c then
    let value := c.toUInt32 - 65 + 10
    ((remainder * 10 + value / 10) % 97 * 10 + value % 10) % 97
  else (remainder * 10 + (c.toUInt32 - 48)) % 97

/-- `is_iban` as it runs on whatever its buffer holds; `none` when it writes or reads behind the
end. -/
def isIbanIn (buffer : CompactBuffer) (candidate : Bytes) : Option Bool :=
  match copyCompact buffer 0 candidate with
  | .overrun => none
  | .tooLong => some false
  | .compact buffer n =>
    if n < 15 then some false
    else
      ((List.range n).foldlM (fun remainder k => (buffer[(k + 4) % n]?).map
        (remainderStep remainder)) 0).map (· == 1)

/-! ## The number -/

/-- A digit stands for itself, and a letter for two digits, from 10 for A to 35 for Z. -/
def decimalDigits (c : UInt8) : List Nat :=
  if isAsciiUpper c then [(c.toNat - 65 + 10) / 10, (c.toNat - 65 + 10) % 10] else [c.toNat - 48]

/-- The decimal digits of the whole number, the first four characters moved to the end. -/
def checkDigits (compact : Bytes) : List Nat :=
  (compact.drop 4 ++ compact.take 4).flatMap decimalDigits

/-- The number itself; `Nat.ofDigits` takes the last digit first. -/
def checkNumber (compact : Bytes) : Nat := Nat.ofDigits 10 (checkDigits compact).reverse

theorem decimalDigits_lt {c : UInt8} (hc : isIbanChar c = true) {d : Nat}
    (hd : d ∈ decimalDigits c) : d < 10 := by
  rw [decimalDigits] at hd
  split at hd
  · rename_i hupper
    have hrange : 65 ≤ c.toNat ∧ c.toNat ≤ 90 := by
      simpa [isAsciiUpper, Byte.isUpper, UInt8.le_iff_toNat_le] using hupper
    rcases List.mem_pair.mp hd with rfl | rfl
    · omega
    · exact Nat.mod_lt _ (by omega)
  · rename_i hupper
    have hrange : 48 ≤ c.toNat ∧ c.toNat ≤ 57 := by
      simpa [isIbanChar, hupper, isAsciiDigit, Byte.isDigit, UInt8.le_iff_toNat_le] using hc
    obtain rfl := List.mem_singleton.mp hd
    omega

theorem ofDigits_reverse_append (ds es : List Nat) : Nat.ofDigits 10 (ds ++ es).reverse =
    Nat.ofDigits 10 es.reverse + 10 ^ es.length * Nat.ofDigits 10 ds.reverse := by
  rw [List.reverse_append, Nat.ofDigits_append, List.length_reverse]

/-- The remainder carried along is that of the number read so far. -/
theorem ibanRemainder_ofDigits (s : Bytes) :
    s.foldl ibanRemainder 0 = Nat.ofDigits 10 (s.flatMap decimalDigits).reverse % 97 := by
  induction s using List.reverseRecOn with
  | nil => rfl
  | append_singleton s c ih =>
    rw [List.foldl_append, List.foldl_cons, List.foldl_nil, ih, List.flatMap_append,
      List.flatMap_singleton, ofDigits_reverse_append, ibanRemainder, decimalDigits]
    generalize Nat.ofDigits 10 (s.flatMap decimalDigits).reverse = number
    split
    · simp only [List.reverse_cons, List.reverse_nil, List.nil_append, List.singleton_append,
        Nat.ofDigits_cons, Nat.ofDigits_nil, List.length_cons, List.length_nil]
      omega
    · simp only [List.reverse_singleton, Nat.ofDigits_singleton, List.length_singleton]
      omega

/-! ## The loops -/

/-- The first bytes of the buffer. -/
def Holds (buffer : CompactBuffer) (written : Bytes) : Prop :=
  buffer.toList.take written.length = written

theorem Holds.set {buffer : CompactBuffer} {written : Bytes} (h : Holds buffer written) (c : UInt8)
    (hn : written.length < 64) : Holds (buffer.set written.length c) (written ++ [c]) := by
  have hlength : written.length < buffer.toList.length := by simpa using hn
  unfold Holds at h ⊢
  rw [Vector.toList_set, List.length_append, List.length_singleton, List.take_add_one,
    List.take_set_of_le (Nat.le_refl _), h, List.getElem?_set_self hlength]
  rfl

theorem Holds.getElem? {buffer : CompactBuffer} {written : Bytes}
    (h : Holds buffer written) {k : Nat} (hk : k < written.length) : buffer[k]? = written[k]? := by
  rw [← h, List.getElem?_take_of_lt hk]
  simp

/-- At most 34 bytes are written, and they are those that are no spaces. -/
theorem copyCompact_spec {buffer : CompactBuffer} {written : Bytes} (rest : Bytes)
    (h : Holds buffer written) (hwritten : written.length ≤ 34) :
    (∃ filled, copyCompact buffer written.length rest =
      .compact filled (written ++ rest.filter (· ≠ space)).length ∧
      Holds filled (written ++ rest.filter (· ≠ space)) ∧
      (written ++ rest.filter (· ≠ space)).length ≤ 34) ∨
    copyCompact buffer written.length rest = .tooLong ∧
    34 < (written ++ rest.filter (· ≠ space)).length := by
  induction rest generalizing buffer written with
  | nil => exact .inl ⟨buffer, by simp [copyCompact], by simpa using h, by simpa using hwritten⟩
  | cons c rest ih =>
    by_cases hc : c = space
    · have hfilter : (c :: rest).filter (· ≠ space) = rest.filter (· ≠ space) := by simp [hc]
      rw [copyCompact, if_pos hc, hfilter]
      exact ih h hwritten
    · have hfilter : (c :: rest).filter (· ≠ space) = c :: rest.filter (· ≠ space) := by simp [hc]
      rw [copyCompact, if_neg hc, hfilter]
      by_cases hfull : written.length = 34
      · rw [if_pos hfull]
        refine .inr ⟨rfl, ?_⟩
        rw [List.length_append, List.length_cons]
        omega
      · have hfits : written.length < 64 := by omega
        have hlater := ih (h.set c hfits) (by rw [List.length_append, List.length_singleton]; omega)
        rw [List.append_assoc, List.singleton_append, List.length_append,
          List.length_singleton] at hlater
        rw [if_neg hfull, dif_pos hfits]
        exact hlater

/-- A loop over the places of a list, where each of them can be read, goes over its elements. -/
theorem foldlM_places {α β : Type*} {read : Nat → Option α} {step : β → α → β} {l : List α}
    (h : ∀ k < l.length, read k = l[k]?) (start : β) :
    (List.range l.length).foldlM (fun value k => (read k).map (step value)) start =
      some (l.foldl step start) := by
  induction l using List.reverseRecOn with
  | nil => rfl
  | append_singleton l a ih =>
    have hbefore : ∀ k < l.length, read k = l[k]? := by
      intro k hk
      rw [h k (by rw [List.length_append]; omega), List.getElem?_append_left hk]
    have hlast : read l.length = some a := by
      rw [h l.length (by simp), List.getElem?_concat_length]
    rw [List.length_append, List.length_singleton, List.range_succ, List.foldlM_append, ih hbefore,
      List.foldl_append]
    simp [hlast]

/-- With a remainder below 97 no step on `unsigned` overflows. -/
theorem digitStep_toNat {remainder digit : UInt32} (h : remainder.toNat < 97)
    (hdigit : digit.toNat < 10) :
    ((remainder * 10 + digit) % 97).toNat = (remainder.toNat * 10 + digit.toNat) % 97 := by
  have hmul : (remainder * 10).toNat = remainder.toNat * 10 := by
    simp only [UInt32.toNat_mul, UInt32.reduceToNat]
    omega
  have hadd : (remainder * 10 + digit).toNat = remainder.toNat * 10 + digit.toNat := by
    simp only [UInt32.toNat_add, hmul]
    omega
  simp only [UInt32.toNat_mod, hadd, UInt32.reduceToNat]

theorem remainderStep_toNat {remainder : UInt32} {c : UInt8} (hc : isIbanChar c = true)
    (h : remainder.toNat < 97) :
    (remainderStep remainder c).toNat = ibanRemainder remainder.toNat c := by
  have hsize : c.toUInt32.toNat = c.toNat := UInt8.toNat_toUInt32 c
  rw [remainderStep, ibanRemainder]
  split
  · rename_i hupper
    have hrange : 65 ≤ c.toNat ∧ c.toNat ≤ 90 := by
      simpa [isAsciiUpper, Byte.isUpper, UInt8.le_iff_toNat_le] using hupper
    have hvalue : (c.toUInt32 - 65 + 10).toNat = c.toNat - 65 + 10 := by
      simp only [UInt32.toNat_add, UInt32.toNat_sub, hsize, UInt32.reduceToNat]
      omega
    have htens : ((c.toUInt32 - 65 + 10) / 10).toNat = (c.toNat - 65 + 10) / 10 := by
      simp only [UInt32.toNat_div, hvalue, UInt32.reduceToNat]
    have hones : ((c.toUInt32 - 65 + 10) % 10).toNat = (c.toNat - 65 + 10) % 10 := by
      simp only [UInt32.toNat_mod, hvalue, UInt32.reduceToNat]
    have hfirst := @digitStep_toNat remainder ((c.toUInt32 - 65 + 10) / 10) h (by rw [htens]; omega)
    rw [digitStep_toNat (by rw [hfirst]; exact Nat.mod_lt _ (by omega)) (by rw [hones]; omega),
      hfirst, htens, hones]
  · rename_i hupper
    have hrange : 48 ≤ c.toNat ∧ c.toNat ≤ 57 := by
      simpa [isIbanChar, hupper, isAsciiDigit, Byte.isDigit, UInt8.le_iff_toNat_le] using hc
    have hvalue : (c.toUInt32 - 48).toNat = c.toNat - 48 := by
      simp only [UInt32.toNat_sub, hsize, UInt32.reduceToNat]
      omega
    rw [digitStep_toNat h (by rw [hvalue]; omega), hvalue]

theorem ibanRemainder_lt (remainder : Nat) (c : UInt8) : ibanRemainder remainder c < 97 := by
  rw [ibanRemainder]
  split <;> exact Nat.mod_lt _ (by omega)

theorem foldl_remainderStep {s : Bytes} (h : ∀ c ∈ s, isIbanChar c = true) :
    (s.foldl remainderStep 0).toNat = s.foldl ibanRemainder 0 ∧ s.foldl ibanRemainder 0 < 97 := by
  induction s using List.reverseRecOn with
  | nil => exact ⟨rfl, by decide⟩
  | append_singleton s c ih =>
    obtain ⟨heq, hlt⟩ := ih fun d hd => h d (List.mem_append_left _ hd)
    simp only [List.foldl_append, List.foldl_cons, List.foldl_nil]
    refine ⟨?_, ibanRemainder_lt _ _⟩
    rw [remainderStep_toNat (h c (by simp)) (by rwa [heq]), heq]

/-! ## The check -/

/-- The second loop reads the characters from the fifth on, and then the first four. -/
theorem remainder_loop {buffer : CompactBuffer} {compact : Bytes} (h : Holds buffer compact)
    (hfour : 4 ≤ compact.length) :
    (List.range compact.length).foldlM
      (fun remainder k => (buffer[(k + 4) % compact.length]?).map (remainderStep remainder)) 0 =
        some ((compact.drop 4 ++ compact.take 4).foldl remainderStep 0) := by
  rw [← List.rotate_eq_drop_append_take hfour]
  have hlength : (compact.rotate 4).length = compact.length := List.length_rotate _ _
  have hplaces : ∀ k < (compact.rotate 4).length, buffer[(k + 4) % compact.length]? =
      (compact.rotate 4)[k]? := by
    intro k hk
    rw [hlength] at hk
    rw [List.getElem?_rotate hk]
    exact h.getElem? (Nat.mod_lt _ (by omega))
  have hloop := @foldlM_places _ _ _ remainderStep _ hplaces 0
  rwa [hlength] at hloop

/-- The check never leaves its buffer, and passes exactly the strings of 15 to 34 characters without
their spaces whose number, with these decimal digits, is 1 modulo 97. -/
theorem isIban_number (buffer : CompactBuffer) {candidate : Bytes}
    (h : candidate.all (fun c => isIbanChar c || c == space) = true) :
    isIbanIn buffer candidate = some (isIban candidate) ∧
      (isIban candidate = true ↔ 15 ≤ (candidate.filter (· ≠ space)).length ∧
        (candidate.filter (· ≠ space)).length ≤ 34 ∧
        checkNumber (candidate.filter (· ≠ space)) % 97 = 1) ∧
      ∀ d ∈ checkDigits (candidate.filter (· ≠ space)), d < 10 := by
  have hchars : ∀ c ∈ candidate.filter (· ≠ space), isIbanChar c = true := by
    intro c hc
    obtain ⟨hmem, hne⟩ := List.mem_filter.mp hc
    have hkind := List.all_eq_true.mp h c hmem
    simp only [Bool.or_eq_true, beq_iff_eq] at hkind
    exact hkind.resolve_right (by simpa using hne)
  generalize hcompact : candidate.filter (· ≠ space) = compact at hchars
  have hrotated : ∀ c ∈ compact.drop 4 ++ compact.take 4, isIbanChar c = true := by
    intro c hc
    rcases List.mem_append.mp hc with hc | hc
    · exact hchars c (List.mem_of_mem_drop hc)
    · exact hchars c (List.mem_of_mem_take hc)
  obtain ⟨hremainder, hlt⟩ := foldl_remainderStep hrotated
  have hnumber : checkNumber compact % 97 =
      (compact.drop 4 ++ compact.take 4).foldl ibanRemainder 0 :=
    (ibanRemainder_ofDigits _).symm
  have hcheck : isIban candidate = (decide (15 ≤ compact.length) && decide (compact.length ≤ 34) &&
      (compact.drop 4 ++ compact.take 4).foldl ibanRemainder 0 == 1) := by
    rw [← hcompact]
    rfl
  refine ⟨?_, ?_, ?_⟩
  · have hempty : Holds buffer [] := rfl
    have hcopy := copyCompact_spec candidate hempty (Nat.zero_le _)
    rw [List.nil_append, hcompact, List.length_nil] at hcopy
    rw [isIbanIn, hcheck]
    rcases hcopy with ⟨filled, hfilled, hholds, hlong⟩ | ⟨hlong, hmany⟩
    · rw [hfilled]
      by_cases hshort : compact.length < 15
      · simp [hshort]
      · have hone : ((compact.drop 4 ++ compact.take 4).foldl remainderStep 0 == 1) =
            ((compact.drop 4 ++ compact.take 4).foldl ibanRemainder 0 == 1) := by
          rw [Bool.eq_iff_iff, beq_iff_eq, beq_iff_eq, ← hremainder, ← UInt32.toNat_inj]
          rfl
        have hbounds : 15 ≤ compact.length ∧ compact.length ≤ 34 := by omega
        simp only [if_neg hshort, remainder_loop hholds (by omega), Option.map_some, hone,
          hbounds, decide_true, Bool.true_and]
    · rw [hlong]
      simp [Nat.not_le_of_gt hmany]
  · rw [hcheck, hnumber]
    simp [and_assoc]
  · intro d hd
    obtain ⟨c, hc, hd⟩ := List.mem_flatMap.mp hd
    exact decimalDigits_lt (hrotated c hc) hd

theorem isIban_number_west :
    checkNumber ((ascii "GB82 WEST 1234 5698 7654 32").filter (· ≠ space)) % 97 = 1 :=
  have hiban : isIban (ascii "GB82 WEST 1234 5698 7654 32") = true := by decide
  ((isIban_number (Vector.replicate 64 0) (by decide)).2.1.mp hiban).2.2

end ForgeOps.PiiScrubber
