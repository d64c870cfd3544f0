import ForgeOpsTracker.ScrubStages
import ForgeOpsTracker.Lib.Utf8

/-! Scrubbing keeps UTF-8 valid: what a stage replaces starts and ends with ASCII, and so does
what it puts there. -/

namespace ForgeOps.PiiScrubber

theorem isAscii_of_isIbanChar {c : UInt8} (h : isIbanChar c = true) : Byte.isAscii c = true := by
  simp only [isIbanChar, isAsciiUpper, isAsciiDigit, Byte.isUpper, Byte.isDigit, Bool.or_eq_true,
    Bool.and_eq_true, decide_eq_true_eq] at h
  rcases h with h | h
  · exact isAscii_of_le h.2 rfl
  · exact isAscii_of_le h.2 rfl

theorem isAscii_of_isSeparator {c : UInt8} (h : isSeparator c = true) : Byte.isAscii c = true := by
  rcases isSeparator_cases h with rfl | rfl <;> rfl

/-! ## IBANs -/

/-- Capital letters, digits and spaces. -/
theorem CandidateEnd.isAscii {prev : Option UInt8} {s : Bytes} {e j : Nat}
    (h : CandidateEnd prev s e) (hj : j < e) : ∀ d ∈ s[j]?, Byte.isAscii d = true := by
  intro d hd
  rcases h.shape with hshape | hshape
  · obtain ⟨x, hx, hchar⟩ := hshape j hj
    obtain rfl := Option.mem_unique hx hd
    exact isAscii_of_isIbanChar hchar
  · obtain ⟨x, hx, hkind⟩ := hshape j hj
    obtain rfl := Option.mem_unique hx hd
    split at hkind
    · exact hkind ▸ rfl
    · exact isAscii_of_isIbanChar hkind

theorem ibanPiece_keepsCharacters : KeepsCharacters ibanPiece := by
  intro prev c rest
  unfold ibanPiece
  dsimp only
  by_cases hzero : ibanCandidateEnd prev (c :: rest) = 0
  · rw [if_pos hzero]
    exact .inl rfl
  rw [if_neg hzero]
  have hend := ibanCandidateEnd_spec hzero
  have hpos := Nat.pos_of_ne_zero hzero
  split
  · refine .inr ⟨hend.isAscii hpos c rfl, utf8_of_isAscii rfl,
      fun _ => hend.isAscii (Nat.sub_lt hpos Nat.one_pos)⟩
  · left
    dsimp only
    rw [Nat.sub_add_cancel hpos]

/-! ## Patterns -/

theorem avoids_of_not_isAscii {c : UInt8} (hc : Byte.isAscii c = false) {spec : PatternSpec}
    (hspec : spec ∈ patterns) : spec.pattern.avoids c = true := by
  have hall : patterns.all (fun spec => (List.range 128).all
      fun n => spec.pattern.avoids (UInt8.ofNat (n + 128))) = true := by
    decide +kernel
  have hhigh : 128 ≤ c.toNat := Nat.le_of_not_lt fun hlow =>
    Bool.false_ne_true (hc.symm.trans (decide_eq_true (UInt8.lt_iff_toNat_lt.mpr hlow)))
  have hlt := c.toNat_lt
  have hc := List.all_eq_true.mp (List.all_eq_true.mp hall spec hspec) (c.toNat - 128)
    (List.mem_range.mpr (by omega))
  rwa [Nat.sub_add_cancel hhigh, UInt8.ofNat_toNat] at hc

theorem isAscii_of_matches {spec : PatternSpec} (hspec : spec ∈ patterns) {w : Bytes}
    (h : spec.pattern.Matches w) {c : UInt8} (hc : c ∈ w) : Byte.isAscii c = true := by
  by_contra hnot
  exact h.not_mem (avoids_of_not_isAscii (Bool.eq_false_iff.mpr hnot) hspec) hc

theorem filtered_utf8 {spec : PatternSpec} (hspec : spec ∈ patterns) :
    Utf8 (filtered spec.label) := by
  have hall : patterns.all (fun spec => (filtered spec.label).all Byte.isAscii) = true := by
    decide +kernel
  exact utf8_of_isAscii (List.all_eq_true.mp hall spec hspec)

theorem patternPiece_keepsCharacters {spec : PatternSpec} (hspec : spec ∈ patterns) :
    KeepsCharacters (patternPiece spec) := by
  have hempty : ∀ s, spec.pattern.longest s ≠ some 0 := by
    intro s h
    have hall : patterns.all (fun spec => (spec.pattern.longest []).isNone) = true := by
      decide +kernel
    have hnone := Option.isNone_iff_eq_none.mp (List.all_eq_true.mp hall spec hspec)
    exact Ere.longest_eq_none.mp hnone [] List.prefix_rfl (Ere.longest_eq_some.mp h).1.2
  intro prev c rest
  unfold patternPiece
  split
  · exact .inl rfl
  rename_i n hn
  have hpos : 0 < n := Nat.pos_of_ne_zero fun hzero => hempty _ (hzero ▸ hn)
  obtain ⟨hfits, hmatch⟩ := (Ere.longest_eq_some.mp hn).1
  have hascii : ∀ j < n, ∀ d ∈ (c :: rest)[j]?, Byte.isAscii d = true := by
    intro j hj d hd
    have htake : ((c :: rest).take n)[j]? = some d :=
      by rw [List.getElem?_take, if_pos hj, Option.mem_def.mp hd]
    exact isAscii_of_matches hspec hmatch (List.mem_of_getElem? htake)
  split
  · exact .inl rfl
  · exact .inr ⟨hascii 0 hpos c rfl, filtered_utf8 hspec,
      fun _ => hascii (n - 1) (Nat.sub_lt hpos Nat.one_pos)⟩

/-! ## Card numbers -/

theorem Scrubbed.isAscii {run out : Bytes} (h : Scrubbed run out) :
    out.all Byte.isAscii = true := by
  have hdigits : ∀ {g : Bytes}, (∀ c ∈ g, isAsciiDigit c = true) →
      g.all Byte.isAscii = true := fun hg =>
    List.all_eq_true.mpr fun c hc => isAscii_of_isIbanChar
      (by rw [isIbanChar, hg c hc, Bool.or_true])
  induction h with
  | group _ hg _ => exact hdigits hg
  | groupJoin _ hg hsep _ _ ih =>
    rw [List.all_append, List.all_cons, hdigits hg, isAscii_of_isSeparator hsep, ih]; rfl
  | card => rfl
  | cardJoin hsep _ ih => rw [List.all_append, List.all_cons, isAscii_of_isSeparator hsep, ih]; rfl

theorem DigitRun.isAscii {run : Bytes} (h : DigitRun run) {c : UInt8} (hc : c ∈ run) :
    Byte.isAscii c = true := by
  rcases h.mem hc with hdigit | hsep
  · exact isAscii_of_isIbanChar (by rw [isIbanChar, hdigit, Bool.or_true])
  · exact isAscii_of_isSeparator hsep

theorem cardPiece_keepsCharacters : KeepsCharacters cardPiece := by
  intro prev c rest
  unfold cardPiece
  split
  · rename_i run n hfound
    obtain ⟨rfl, hrun⟩ := foundRun_run hfound
    refine .inr ⟨hrun.isAscii List.mem_cons_self,
      utf8_of_isAscii (scrubCardNumbersIn_scrubbed hrun (Nat.le_refl _)).isAscii, fun _ d hd => ?_⟩
    have htake : ((c :: rest).take (n + 1))[n]? = some d := by
      rw [List.getElem?_take, if_pos n.lt_succ_self, Option.mem_def.mp hd]
    exact hrun.isAscii (List.mem_of_getElem? htake)
  · exact .inl rfl

/-! ## The whole pass -/

theorem scrubString_utf8 {input : Bytes} (h : Utf8 input) : Utf8 (scrubString input) := by
  have hpatterns : ∀ (specs : List PatternSpec) (s : Bytes),
      (∀ spec ∈ specs, spec ∈ patterns) → Utf8 s →
      Utf8 (specs.foldl (fun current spec => applyPattern spec current) s) := by
    intro specs
    induction specs with
    | nil => exact fun _ _ hs => hs
    | cons spec specs ih =>
      intro s hspecs hs
      obtain ⟨hspec, hrest⟩ := List.forall_mem_cons.mp hspecs
      have hpiece : Utf8 (applyPattern spec s) := by
        rw [applyPattern_eq]
        exact (patternPiece_keepsCharacters hspec).pass hs
      exact ih _ hrest hpiece
  have hibans : Utf8 (scrubIbans input) := scrubIbans_eq ▸ ibanPiece_keepsCharacters.pass h
  rw [scrubString_eq, laterStages, scrubCardNumbers_eq]
  exact cardPiece_keepsCharacters.pass (hpatterns patterns _ (fun _ hspec => hspec) hibans)

end ForgeOps.PiiScrubber
