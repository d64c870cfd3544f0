import ForgeOpsTracker.ScrubAgain

/-! What `forgeops_scrub_string` leaves. A match that stands anywhere in the scrubbed text stands
between brackets or in what every stage kept, and there only one pattern finds anything: the marker
of a bearer token. -/

namespace ForgeOps.PiiScrubber

/-- A pattern that asks for no word boundary takes something out wherever it matches. -/
theorem applyPattern_eq_self {spec : PatternSpec} (hspec : spec ∈ patterns)
    (hfree : spec.wordBounded = false) {text : Bytes} :
    applyPattern spec text = text ↔ Unmatched spec.pattern text := by
  refine ⟨fun h => ?_, applyPattern_of_unmatched hspec⟩
  rw [← patternStage_apply hspec, Stage.apply_eq_self] at h
  have hkept : text ∈ ((patternStage spec hspec).redact text).kept := by
    have horiginal := (patternStage spec hspec).original_redact text
    revert h horiginal
    cases (patternStage spec hspec).redact text with
    | last kept =>
      rintro - rfl
      exact List.mem_singleton_self kept
    | taken kept m stretch rest => exact fun h => absurd h (List.cons_ne_nil _ _)
  exact kept_unmatched hspec hfree hkept

/-- No pattern but the one for bearer tokens finds anything in a marker, and that one only in its
own. -/
theorem unmatched_label {spec : PatternSpec} (hspec : spec ∈ patterns)
    (hfree : spec.wordBounded = false) {label : Bytes} (hlabel : label ∈ labels)
    (h : spec.label = bearerLabel → label ≠ bearerLabel) :
    Unmatched spec.pattern (markers.body label) :=
  (applyPattern_eq_self hspec hfree).mp (applyPattern_label spec hspec label hlabel h)

/-- Of the seven patterns that may match inside a word none matches anywhere in a scrubbed text,
but for the words of the marker that stands for a bearer token. -/
theorem scrubString_unmatched (input : Bytes) {spec : PatternSpec} (hspec : spec ∈ patterns)
    (hfree : spec.wordBounded = false) {w : Bytes} (hw : w <:+: scrubString input)
    (hmatch : spec.pattern.Matches w) :
    spec = bearerTokenSpec ∧ w <:+: ascii "BEARER TOKEN FILTERED" := by
  have havoids : ∀ {c : UInt8}, isBracket c = true → c ∉ w := fun hc =>
    hmatch.not_mem (avoids_bracket hc hspec)
  rw [← redaction_written, ← funext write_markers] at hw
  rcases Redaction.infix_written (havoids rfl) (havoids rfl) hw with ⟨p, hp, hpart⟩ | ⟨t, ht, hpart⟩
  · obtain ⟨text, q, hq, hinfix⟩ := Stage.kept_redactAll (patternStage_mem hspec) hp
    exact absurd hmatch (kept_unmatched hspec hfree hq w (hpart.trans hinfix))
  · have hbearer : ∀ spec ∈ patterns, spec.label = bearerLabel → spec = bearerTokenSpec := by
      simp [patterns, bearerLabel, bearerTokenSpec, ascii]
    by_cases hspecLabel : spec.label = bearerLabel
    · refine ⟨hbearer spec hspec hspecLabel, ?_⟩
      by_cases hlabel : t.1 = bearerLabel
      · rw [hlabel] at hpart
        exact hpart
      · exact absurd hmatch (unmatched_label hspec hfree (takenOut_label ht)
          (fun _ => hlabel) w hpart)
    · exact absurd hmatch (unmatched_label hspec hfree (takenOut_label ht)
        (fun h => absurd h hspecLabel) w hpart)

theorem scrubString_unmatched_bearer : bearerTokenSpec = bearerTokenSpec ∧
    ascii "BEARER TOKEN" <:+: ascii "BEARER TOKEN FILTERED" := by
  have hmatch : bearerTokenSpec.pattern.Matches (ascii "BEARER TOKEN") :=
    (Ere.mem_lengths.mp (by decide : 12 ∈ bearerTokenSpec.pattern.lengths (ascii "BEARER TOKEN"))).2
  have hpart : ascii "BEARER TOKEN" <:+: scrubString (ascii "Bearer abc") := by decide +kernel
  exact scrubString_unmatched (ascii "Bearer abc") bearerTokenSpec_mem rfl hpart hmatch

end ForgeOps.PiiScrubber
