import ForgeOpsTracker.PiiScrubber

/-! Which keys `forgeops_is_sensitive_key` takes for sensitive: punctuation and case do not matter,
and what is sensitive stays so in a longer key as long as the normalized copy reaches it. -/

namespace ForgeOps.PiiScrubber

/-- What the normalized copy would be in a buffer of any size. -/
def keyLetters (key : Bytes) : Bytes := (key.filter Byte.isAlnum).map Byte.toLower

/-- The same key with letters in the other case and with further bytes that are no letters or
digits. -/
inductive Respelled : Bytes → Bytes → Prop
  | nil : Respelled [] []
  | keep (c : UInt8) {s t : Bytes} (h : Respelled s t) : Respelled (c :: s) (c :: t)
  | case {c d : UInt8} {s t : Bytes} (hc : Byte.isAlpha c = true) (hd : Byte.isAlpha d = true)
      (hcase : Byte.toLower c = Byte.toLower d) (h : Respelled s t) : Respelled (c :: s) (d :: t)
  | insert {c : UInt8} {s t : Bytes} (hc : Byte.isAlnum c = false) (h : Respelled s t) :
      Respelled s (c :: t)

theorem isAlnum_of_isAlpha {c : UInt8} (h : Byte.isAlpha c = true) : Byte.isAlnum c = true := by
  rw [Byte.isAlnum, h, Bool.true_or]

theorem Respelled.keyLetters_eq {key key' : Bytes} (h : Respelled key key') :
    keyLetters key' = keyLetters key := by
  unfold keyLetters
  induction h with
  | nil => rfl
  | keep c _ ih =>
    by_cases hc : Byte.isAlnum c = true
    · rw [List.filter_cons_of_pos hc, List.filter_cons_of_pos hc, List.map_cons, List.map_cons, ih]
    · rw [List.filter_cons_of_neg hc, List.filter_cons_of_neg hc, ih]
  | case hc hd hcase _ ih =>
    rw [List.filter_cons_of_pos (isAlnum_of_isAlpha hd),
      List.filter_cons_of_pos (isAlnum_of_isAlpha hc), List.map_cons, List.map_cons, ih, hcase]
  | insert hc _ ih =>
    rw [List.filter_cons_of_neg (by simp [hc]), ih]

theorem keyLetters_append (s t : Bytes) : keyLetters (s ++ t) = keyLetters s ++ keyLetters t := by
  simp [keyLetters]

theorem keyLetters_within {key longer : Bytes} (h : key <:+: longer) :
    keyLetters key <:+: keyLetters longer := by
  obtain ⟨before, after, rfl⟩ := h
  exact ⟨keyLetters before, keyLetters after, by rw [keyLetters_append, keyLetters_append]⟩

theorem sensitiveKeys_ne_nil {part : Bytes} (h : part ∈ sensitiveKeys) : part ≠ [] := by
  have hall : sensitiveKeys.all (fun part => !part.isEmpty) = true := by decide
  have hpart := List.all_eq_true.mp hall part h
  intro hnil
  rw [hnil] at hpart
  exact absurd hpart (by decide)

theorem isSensitiveKey_iff {key : Bytes} : isSensitiveKey (some key) = true ↔
    ∃ part ∈ sensitiveKeys, part <:+: (keyLetters key).take 255 := by
  have hdef : isSensitiveKey (some key) = (decide (key ≠ []) &&
      sensitiveKeys.any fun part => decide (part <:+: (keyLetters key).take 255)) := rfl
  rw [hdef, Bool.and_eq_true, List.any_eq_true]
  simp only [decide_eq_true_eq]
  constructor
  · exact fun h => h.2
  · rintro ⟨part, hpart, hin⟩
    refine ⟨?_, part, hpart, hin⟩
    rintro rfl
    exact sensitiveKeys_ne_nil hpart (List.infix_nil.mp hin)

/-- A sensitive part ends here. -/
def endsPart (letters : Bytes) : Bool := sensitiveKeys.any fun part => decide (part <:+ letters)

/-- Where the first sensitive part of a key ends, in letters and digits from its start. -/
def firstPartEnd (key : Bytes) : Option Nat :=
  (List.range ((keyLetters key).length + 1)).find? fun e => endsPart ((keyLetters key).take e)

/-- A part lies in the first bytes when it ends at one of them. -/
theorem infix_take_iff {part letters : Bytes} {n : Nat} :
    part <:+: letters.take n ↔ ∃ e ≤ n, part <:+ letters.take e := by
  rw [List.infix_iff_suffix_prefix]
  constructor
  · rintro ⟨before, hsuffix, hbefore⟩
    have hlength := hbefore.length_le
    rw [List.length_take] at hlength
    have hprefix := List.prefix_iff_eq_take.mp (hbefore.trans (List.take_prefix n letters))
    exact ⟨before.length, by omega, by rwa [← hprefix]⟩
  · rintro ⟨e, he, hsuffix⟩
    exact ⟨letters.take e, hsuffix, List.take_prefix_take_left he⟩

theorem exists_part_iff {letters : Bytes} {n : Nat} :
    (∃ part ∈ sensitiveKeys, part <:+: letters.take n) ↔
    ∃ e ≤ n, endsPart (letters.take e) = true := by
  simp only [infix_take_iff, endsPart, List.any_eq_true, decide_eq_true_eq]
  constructor
  · rintro ⟨part, hpart, e, he, hsuffix⟩
    exact ⟨e, he, part, hpart, hsuffix⟩
  · rintro ⟨e, he, part, hpart, hsuffix⟩
    exact ⟨part, hpart, e, he, hsuffix⟩

/-- No part ends before the first one does. -/
theorem firstPartEnd_spec {key : Bytes} {n : Nat} (h : endsPart ((keyLetters key).take n) = true) :
    ∃ e,
      firstPartEnd key = some e ∧ ∀ m, (∃ e' ≤ m, endsPart ((keyLetters key).take e') =
        true) ↔ e ≤ m := by
  have hwithin : ∃ e ∈ List.range ((keyLetters key).length + 1),
      endsPart ((keyLetters key).take e) = true := by
    by_cases hn : n ≤ (keyLetters key).length
    · exact ⟨n, List.mem_range.mpr (Nat.lt_succ_of_le hn), h⟩
    · refine ⟨(keyLetters key).length, List.mem_range.mpr (Nat.lt_succ_self _), ?_⟩
      rw [List.take_of_length_le (by omega)] at h
      rwa [List.take_length]
  obtain ⟨e, he⟩ := Option.isSome_iff_exists.mp (List.find?_isSome.mpr hwithin)
  obtain ⟨hends, -, hbefore⟩ := List.find?_range_eq_some.mp he
  refine ⟨e, he, fun m => ⟨?_, fun hm => ⟨e, hm, hends⟩⟩⟩
  rintro ⟨e', hle, hends'⟩
  by_contra hm
  have hnot := hbefore e' (by omega)
  rw [hends'] at hnot
  exact absurd hnot (by decide)

/-- Other punctuation and case never change the answer; and in a longer key the answer for a
sensitive one stays the same exactly when the first sensitive part ends within 255 letters and
digits. -/
theorem isSensitiveKey_letters (key : Bytes) :
    (∀ key', Respelled key key' → isSensitiveKey (some key') = isSensitiveKey (some key)) ∧
      ∀ longer, key <:+: longer → isSensitiveKey (some key) = true →
        ∃ e, firstPartEnd longer = some e ∧ (isSensitiveKey (some longer) = true ↔ e ≤ 255) := by
  constructor
  · intro key' h
    rw [Bool.eq_iff_iff, isSensitiveKey_iff, isSensitiveKey_iff, h.keyLetters_eq]
  · intro longer hlonger hkey
    obtain ⟨part, hpart, hin⟩ := isSensitiveKey_iff.mp hkey
    have hwhole : part <:+: (keyLetters longer).take (keyLetters longer).length := by
      rw [List.take_length]
      exact (hin.trans (List.take_prefix _ _).isInfix).trans (keyLetters_within hlonger)
    obtain ⟨n, -, hn⟩ := exists_part_iff.mp ⟨part, hpart, hwhole⟩
    obtain ⟨e, he, hfirst⟩ := firstPartEnd_spec hn
    exact ⟨e, he, by rw [isSensitiveKey_iff, exists_part_iff, hfirst]⟩

theorem isSensitiveKey_letters_user : isSensitiveKey (some (ascii "user[password]")) = true := by
  obtain ⟨e, he, hiff⟩ := (isSensitiveKey_letters (ascii "password")).2 (ascii "user[password]")
    ⟨ascii "user[", ascii "]", rfl⟩ (by decide)
  have hend : firstPartEnd (ascii "user[password]") = some 12 := by decide
  rw [hend] at he
  obtain rfl := Option.some.inj he
  exact hiff.mpr (by decide)

/-- 255 letters in front of a sensitive key hide it. -/
theorem long_key_not_sensitive : isSensitiveKey (some (ascii "password")) = true ∧
    ascii "password" <:+: List.replicate 255 97 ++ ascii "password" ∧
    isSensitiveKey (some (List.replicate 255 97 ++ ascii "password")) = false := by
  refine ⟨by decide, (List.suffix_append _ _).isInfix, ?_⟩
  rw [Bool.eq_false_iff]
  intro hkey
  obtain ⟨part, hpart, hin⟩ := isSensitiveKey_iff.mp hkey
  have hhead : ∀ n, keyLetters (List.replicate n 97) = List.replicate n 97 := by
    intro n
    have halnum : Byte.isAlnum 97 = true := by decide
    have hlower : Byte.toLower 97 = 97 := by decide
    rw [keyLetters, List.filter_replicate_of_pos halnum, List.map_replicate, hlower]
  have hletters : (keyLetters (List.replicate 255 97 ++ ascii "password")).take 255 =
      List.replicate 255 97 := by
    rw [keyLetters_append, hhead, List.take_left' List.length_replicate]
  have hother : sensitiveKeys.all (fun part => part.any (· != 97)) = true := by decide
  obtain ⟨c, hc, hne⟩ := List.any_eq_true.mp (List.all_eq_true.mp hother part hpart)
  rw [hletters] at hin
  exact absurd (List.eq_of_mem_replicate (hin.subset hc)) (by simpa using hne)

end ForgeOps.PiiScrubber
