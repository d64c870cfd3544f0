import ForgeOpsTracker.Lib.Redaction
import ForgeOpsTracker.ScrubStages

/-! `forgeops_scrub_string` of a text that was scrubbed before, as the side that receives it
does it. Both passes are the same ten stages; the second one sees the markers of the first
and what the first kept, piece by piece. -/

namespace ForgeOps.PiiScrubber

/-! ## The stages -/

def markers : Brackets Bytes where
  opening := 91
  closing := 93
  body label := label ++ ascii " FILTERED"

theorem write_markers (label : Bytes) : markers.write label = filtered label := by
  have hend : ascii " FILTERED]" = ascii " FILTERED" ++ [93] := by decide
  rw [filtered, hend, Brackets.write]
  simp [markers, ascii]

theorem isBracket_of {c : UInt8} (h : c = markers.opening ∨ c = markers.closing) :
    isBracket c = true := by
  rcases h with rfl | rfl <;> rfl

theorem ibanPiece_cases (prev : Option UInt8) (c : UInt8) (rest : Bytes) :
    (ibanPiece prev c rest).1 = markers.write (ascii "IBAN") ∨
      (ibanPiece prev c rest).1 = (c :: rest).take ((ibanPiece prev c rest).2 + 1) := by
  unfold ibanPiece
  dsimp only
  split
  · exact .inr rfl
  rename_i hn
  split
  · have hmarker : ibanMarker = markers.write (ascii "IBAN") := by decide
    exact .inl hmarker
  · rw [Nat.sub_add_cancel (Nat.pos_of_ne_zero hn)]
    exact .inr rfl

def ibanStage : Stage markers :=
  .ofPiece (ascii "IBAN") ibanPiece ibanPiece_cases fun _ hc => ibanPiece_barrier (isBracket_of hc)

theorem patternPiece_cases (spec : PatternSpec) (prev : Option UInt8) (c : UInt8) (rest : Bytes) :
    (patternPiece spec prev c rest).1 = markers.write spec.label ∨
      (patternPiece spec prev c rest).1 =
        (c :: rest).take ((patternPiece spec prev c rest).2 + 1) := by
  unfold patternPiece
  split
  · exact .inr rfl
  split
  · exact .inr rfl
  · exact .inl (write_markers spec.label).symm

def patternStage (spec : PatternSpec) (hspec : spec ∈ patterns) : Stage markers :=
  .ofPiece spec.label (patternPiece spec) (patternPiece_cases spec) fun _ hc =>
    patternPiece_barrier (isBracket_of hc) hspec

/-- What `scrub_card_numbers_in` takes out of a run and what it copies. -/
def cardMarks : Nat → Bytes → List (Mark Bytes)
  | 0, _ => []
  | size + 1, run =>
    if run = [] then []
    else
      let group := run.takeWhile isAsciiDigit
      let foundEnd := cardStretchEnd run.length 0 [] 0 run
      let writtenTo := if foundEnd ≠ 0 then foundEnd else group.length
      (if foundEnd ≠ 0 then .taken (ascii "CREDIT CARD") (run.take foundEnd) else .kept group) ::
        .kept ((run.drop writtenTo).take 1) :: cardMarks size (run.drop (writtenTo + 1))

theorem take_take_one (s : Bytes) (n : Nat) :
    s.take n ++ ((s.drop n).take 1 ++ s.drop (n + 1)) = s := by
  rw [← List.drop_drop, List.take_append_drop, List.take_append_drop]

theorem cardMarks_text {size : Nat} {run : Bytes} (h : run.length ≤ size) :
    (cardMarks size run).flatMap Mark.text = run := by
  induction size generalizing run with
  | zero => exact (List.length_eq_zero_iff.mp (Nat.le_zero.mp h)).symm
  | succ size ih =>
    by_cases hnil : run = []
    · rw [cardMarks, if_pos hnil, hnil]
      rfl
    have htake : run.take (run.takeWhile isAsciiDigit).length = run.takeWhile isAsciiDigit :=
      (List.prefix_iff_eq_take.mp (List.takeWhile_prefix _)).symm
    rw [cardMarks, if_neg hnil, List.flatMap_cons, List.flatMap_cons,
      ih (by rw [List.length_drop]; omega)]
    by_cases hfound : cardStretchEnd run.length 0 [] 0 run = 0
    · simp only [hfound, ne_eq, not_true_eq_false, if_false, Mark.text]
      rw [← htake, List.length_take_of_le (List.takeWhile_prefix _).length_le]
      exact take_take_one run _
    · simp only [hfound, ne_eq, not_false_eq_true, if_true, Mark.text]
      exact take_take_one run _

theorem cardMarks_written (size : Nat) (run : Bytes) :
    (cardMarks size run).flatMap (Mark.written markers.write) = scrubCardNumbersIn size run := by
  have hmarker : markers.write (ascii "CREDIT CARD") = ascii "[CREDIT CARD FILTERED]" := by decide
  induction size generalizing run with
  | zero => rfl
  | succ size ih =>
    by_cases hnil : run = []
    · rw [cardMarks, if_pos hnil, scrubCardNumbersIn, if_pos hnil]
      rfl
    rw [cardMarks, if_neg hnil, scrubCardNumbersIn, if_neg hnil, List.flatMap_cons,
      List.flatMap_cons, ih, List.append_assoc]
    by_cases hfound : cardStretchEnd run.length 0 [] 0 run = 0
    · simp only [hfound, ne_eq, not_true_eq_false, if_false, Mark.written]
    · simp only [hfound, ne_eq, not_false_eq_true, if_true, Mark.written, hmarker]

theorem WholeGroups.behind {before run stretch : Bytes} {sep : UInt8}
    (hsep : isSeparator sep = true) (h : WholeGroups run stretch) :
    WholeGroups (before ++ sep :: run) stretch := by
  obtain ⟨hdigits, x, y, rfl, hx, hy⟩ := h
  refine ⟨hdigits, before ++ sep :: x, y, by simp, ?_, hy⟩
  intro c hc
  rw [List.getLast?_append_cons, List.getLast?_cons] at hc
  cases hlast : x.getLast? with
  | none =>
    rw [hlast] at hc
    obtain rfl := Option.some.inj hc
    exact not_isAsciiDigit_of_isSeparator hsep
  | some d =>
    rw [hlast] at hc
    obtain rfl := Option.some.inj hc
    exact hx _ hlast

/-- A card number that is taken out is whole groups of the run. -/
theorem cardMarks_taken {size : Nat} {run label stretch : Bytes} (hrun : DigitRun run)
    (h : Mark.taken label stretch ∈ cardMarks size run) : label = ascii "CREDIT CARD" ∧
      WholeGroups run stretch ∧ isCardNumber (stretch.filter isAsciiDigit) = true := by
  induction size generalizing run with
  | zero => exact absurd h List.not_mem_nil
  | succ size ih =>
    have hlater : ∀ {p rest : Bytes}, run = p ++ rest → RunEnd rest →
        Mark.taken label stretch ∈ cardMarks size (run.drop (p.length + 1)) →
        label = ascii "CREDIT CARD" ∧
          WholeGroups run stretch ∧ isCardNumber (stretch.filter isAsciiDigit) = true := by
      rintro p rest rfl hrest hmem
      rw [List.drop_append, Nat.add_sub_cancel_left, List.drop_of_length_le (Nat.le_succ _),
        List.nil_append] at hmem
      rcases hrest with rfl | ⟨sep, s, rfl, hsep, hs⟩
      · cases size <;> exact absurd hmem List.not_mem_nil
      · obtain ⟨hlabel, hwhole, hcard⟩ := ih hs hmem
        exact ⟨hlabel, hwhole.behind hsep, hcard⟩
    rw [cardMarks, if_neg hrun.ne_nil] at h
    rcases cardStretchEnd_cases run.length 0 0 [] (.inr hrun) with
      hzero | ⟨p, y, hsplit, hp, hy, hcard, hend⟩
    · obtain ⟨g, rest, hsplit, -, hg, hrest⟩ := hrun.groups
      have hgroup : run.takeWhile isAsciiDigit = g := by
        rw [hsplit, takeWhile_group hg hrest.not_digitAhead]
      simp only [hzero, ne_eq, not_true_eq_false, if_false, hgroup, List.mem_cons, reduceCtorEq,
        false_or] at h
      exact hlater hsplit hrest h
    · have hpos : p.length ≠ 0 := fun hzero => hp.ne_nil (List.length_eq_zero_iff.mp hzero)
      rw [Nat.zero_add] at hend
      simp only [hend, if_pos hpos, List.mem_cons, reduceCtorEq, false_or] at h
      rcases h with h | h
      · obtain ⟨rfl, rfl⟩ := Mark.taken.inj h
        have htake : run.take p.length = p := by rw [hsplit, List.take_left]
        rw [htake]
        exact ⟨rfl, ⟨hp, [], y, hsplit, by simp, hy.not_digitAhead⟩, hcard⟩
      · exact hlater hsplit hy h

def cardNext (prev : Option UInt8) (c : UInt8) (rest : Bytes) : List (Mark Bytes) × Nat :=
  match foundRun prev c rest with
  | (some run, n) => (cardMarks run.length run, n)
  | (none, n) => ([.kept ((c :: rest).take (n + 1))], n)

theorem cardNext_text (prev : Option UInt8) (c : UInt8) (rest : Bytes) :
    (cardNext prev c rest).1.flatMap Mark.text =
      (c :: rest).take ((cardNext prev c rest).2 + 1) := by
  unfold cardNext
  split
  · rename_i run n hfound
    exact (cardMarks_text (Nat.le_refl _)).trans (foundRun_run hfound).1
  · simp [Mark.text]

theorem cardNext_written (prev : Option UInt8) (c : UInt8) (rest : Bytes) :
    ((cardNext prev c rest).1.flatMap (Mark.written markers.write), (cardNext prev c rest).2) =
      cardPiece prev c rest := by
  unfold cardNext cardPiece
  rcases foundRun prev c rest with ⟨_ | run, n⟩
  · simp [Mark.written]
  · simp [cardMarks_written]

theorem cardNext_taken {prev : Option UInt8} {c : UInt8} {rest label stretch : Bytes}
    (h : Mark.taken label stretch ∈ (cardNext prev c rest).1) : label = ascii "CREDIT CARD" ∧
      ∃ run n, foundRun prev c rest = (some run, n) ∧ WholeGroups run stretch ∧
        isCardNumber (stretch.filter isAsciiDigit) = true := by
  unfold cardNext at h
  split at h
  · rename_i run n hfound
    obtain ⟨hlabel, hwhole⟩ := cardMarks_taken (foundRun_run hfound).2 h
    exact ⟨hlabel, run, n, hfound, hwhole⟩
  · exact absurd (List.mem_singleton.mp h) (by simp)

def cardStage : Stage markers :=
  .ofScan (ascii "CREDIT CARD") cardNext cardPiece cardNext_text cardNext_written
    (fun _ _ _ _ _ h => (cardNext_taken h).1) fun _ hc => cardPiece_barrier (isBracket_of hc)

def stages : List (Stage markers) :=
  ibanStage :: (patterns.attach.map fun spec => patternStage spec.1 spec.2) ++ [cardStage]

theorem ibanStage_apply (s : Bytes) : ibanStage.apply s = scrubIbans s := Stage.apply_ofPiece _ _ s

theorem patternStage_apply {spec : PatternSpec} (hspec : spec ∈ patterns) (s : Bytes) :
    (patternStage spec hspec).apply s = applyPattern spec s := Stage.apply_ofPiece _ _ s

theorem cardStage_apply (s : Bytes) : cardStage.apply s = scrubCardNumbers s := by
  rw [scrubCardNumbers_eq]
  exact Stage.apply_ofScan _ _ _ _ s

theorem applyAll_stages (input : Bytes) : Stage.applyAll stages input = scrubString input := by
  simp only [stages, Stage.applyAll, List.cons_append, List.foldl_cons, List.foldl_append,
    List.foldl_map, List.foldl_nil, ibanStage_apply, patternStage_apply, cardStage_apply]
  rw [List.foldl_attach (f := fun current spec => applyPattern spec current)]
  rfl

theorem mem_stages {st : Stage markers} : st ∈ stages ↔
    st = ibanStage ∨ (∃ spec, ∃ h : spec ∈ patterns, st = patternStage spec h) ∨
    st = cardStage := by
  simp [stages, eq_comm]

/-! ## The markers of the first pass -/

def labels : List Bytes := ascii "IBAN" :: patterns.map PatternSpec.label

def bearerLabel : Bytes := ascii "BEARER TOKEN"

theorem applyPattern_label : ∀ spec ∈ patterns, ∀ label ∈ labels,
    (spec.label = bearerLabel → label ≠ bearerLabel) →
      applyPattern spec (markers.body label) = markers.body label := by
  decide +kernel

theorem scrubIbans_label : ∀ label ∈ labels, scrubIbans (markers.body label) =
    markers.body label := by
  decide +kernel

theorem scrubCardNumbers_label :
    ∀ label ∈ labels, scrubCardNumbers (markers.body label) = markers.body label := by
  decide +kernel

theorem apply_label {st : Stage markers} (hst : st ∈ stages) {label : Bytes}
    (hlabel : label ∈ labels) (h : st.marker = bearerLabel → label ≠ bearerLabel) :
    st.apply (markers.body label) = markers.body label := by
  rcases mem_stages.mp hst with rfl | ⟨spec, hspec, rfl⟩ | rfl
  · rw [ibanStage_apply]
    exact scrubIbans_label label hlabel
  · rw [patternStage_apply]
    exact applyPattern_label spec hspec label hlabel h
  · rw [cardStage_apply]
    exact scrubCardNumbers_label label hlabel

theorem marker_mem_labels {st : Stage markers} (hst : st ∈ stages) : st.marker ∈ labels := by
  rcases mem_stages.mp hst with rfl | ⟨spec, hspec, rfl⟩ | rfl
  · exact List.mem_cons_self
  · exact List.mem_cons_of_mem _ (List.mem_map_of_mem hspec)
  · have hcard : ascii "CREDIT CARD" ∈ labels := by decide
    exact hcard

theorem stages_markers : stages.map Stage.marker = labels ++ [ascii "CREDIT CARD"] := by
  rfl

theorem stages_ordered : Stage.Ordered stages := by
  have hmarkers : (stages.map Stage.marker).Pairwise fun label later =>
      later = bearerLabel → label ≠ bearerLabel := by
    rw [stages_markers]
    decide
  exact (List.pairwise_map.mp hmarkers).imp_of_mem fun hst hlater h =>
    apply_label hlater (marker_mem_labels hst) h

/-! ## What a pattern leaves -/

/-- No match of the expression is anywhere in the text. -/
def Unmatched (e : Ere) (text : Bytes) : Prop := ∀ w, w <:+: text → ¬ e.Matches w

theorem Unmatched.mono {e : Ere} {s t : Bytes} (h : Unmatched e t) (hpart : s <:+: t) :
    Unmatched e s :=
  fun w hw => h w (hw.trans hpart)

section
variable {spec : PatternSpec} {prev : Option UInt8} {c : UInt8} {rest : Bytes}

theorem marksOf_copied (h : patternPiece spec prev c rest = ([c], 0)) :
    Stage.marksOf markers spec.label (patternPiece spec) prev c rest = ([.kept [c]], 0) := by
  have hne : [c] ≠ markers.write spec.label := by
    intro heq
    have hlength := markers.length_write spec.label
    rw [← heq] at hlength
    exact absurd hlength (by simp)
  rw [Stage.marksOf, h]
  simp [hne]

theorem marksOf_matched (hfree : spec.wordBounded = false) {n : Nat}
    (h : spec.pattern.longest (c :: rest) = some n) :
    Stage.marksOf markers spec.label (patternPiece spec) prev c rest =
      ([.taken spec.label ((c :: rest).take (n - 1 + 1))], n - 1) := by
  have hpiece : patternPiece spec prev c rest = (filtered spec.label, n - 1) := by
    rw [patternPiece, h]
    simp [hfree]
  rw [Stage.marksOf, hpiece]
  simp [write_markers]

end

/-- Nothing to take out where nothing matches. -/
theorem applyPattern_of_unmatched {spec : PatternSpec} (hspec : spec ∈ patterns) {text : Bytes}
    (h : Unmatched spec.pattern text) : applyPattern spec text = text := by
  rw [← patternStage_apply hspec, Stage.apply_eq_self, List.eq_nil_iff_forall_not_mem]
  intro t ht
  obtain ⟨marks, hmarks, hmem⟩ := List.mem_flatten.mp (Redaction.mem_takenOut_collect.mp ht)
  obtain ⟨before, c, rest, rfl, rfl⟩ := mem_scan hmarks
  have hnone : spec.pattern.longest (c :: rest) = none := by
    rw [Ere.longest_eq_none]
    intro w hw
    exact h w (hw.isInfix.trans (List.suffix_append before _).isInfix)
  rw [marksOf_copied (by rw [patternPiece, hnone])] at hmem
  exact absurd (List.mem_singleton.mp hmem) (by simp)

theorem marksOf_text (spec : PatternSpec) (prev : Option UInt8) (text : Bytes) :
    (Redaction.collect (scan (Stage.marksOf markers spec.label (patternPiece spec)) 0 prev
      text).flatten).original = text := by
  rw [Redaction.original_collect, original_scan fun _ _ _ => Stage.marksOf_text]
  rfl

/-- At a byte that is kept no match stood. -/
theorem kept_scan {spec : PatternSpec} (hfree : spec.wordBounded = false) {k : Nat}
    {prev : Option UInt8} {text u v : Bytes} (hv : v ≠ [])
    (hp : u ++ v ∈
      (Redaction.collect (scan (Stage.marksOf markers spec.label (patternPiece spec)) k prev
        text).flatten).kept) :
    ∃ rest, spec.pattern.longest (v ++ rest) = none := by
  induction text generalizing k prev u with
  | nil =>
    rw [scan_nil] at hp
    exact absurd (List.append_eq_nil_iff.mp (List.mem_singleton.mp hp)).2 hv
  | cons c rest ih =>
    cases k with
    | succ k => exact ih hp
    | zero =>
      rw [scan] at hp
      cases hmatch : spec.pattern.longest (c :: rest) with
      | none =>
        rw [marksOf_copied (by rw [patternPiece, hmatch]), List.flatten_cons, List.singleton_append,
          Redaction.collect] at hp
        rcases Redaction.mem_kept_prepend hp with hlater | ⟨q, hq, hprefix, heq⟩
        · exact ih hlater
        rw [marksOf_text] at hprefix
        obtain ⟨after, hafter⟩ := hprefix
        cases u with
        | nil =>
          refine ⟨after, ?_⟩
          rw [show v = c :: q from heq, List.cons_append, hafter]
          exact hmatch
        | cons d u =>
          obtain ⟨-, hsplit⟩ := List.cons.inj heq
          rw [show q = u ++ v from hsplit.symm] at hq
          exact ih hq
      | some n =>
        rw [marksOf_matched hfree hmatch] at hp
        rcases List.mem_cons.mp hp with hnil | hlater
        · exact absurd (List.append_eq_nil_iff.mp hnil).2 hv
        · exact ih hlater

theorem kept_unmatched {spec : PatternSpec} (hspec : spec ∈ patterns)
    (hfree : spec.wordBounded = false) {text p : Bytes}
    (hp : p ∈ ((patternStage spec hspec).redact text).kept) : Unmatched spec.pattern p := by
  rintro w ⟨u, v, hsplit⟩ hw
  rw [List.append_assoc] at hsplit
  have hne : w ≠ [] := by
    rintro rfl
    have hnil : ∀ spec ∈ patterns, spec.pattern.longest [] = none := by decide
    exact Ere.longest_eq_none.mp (hnil spec hspec) [] (List.prefix_refl _) hw
  rw [← hsplit] at hp
  obtain ⟨rest, hnone⟩ := kept_scan hfree (fun hnil => hne (List.append_eq_nil_iff.mp hnil).1) hp
  exact Ere.longest_eq_none.mp hnone w (by rw [List.append_assoc]; exact List.prefix_append w _) hw

/-- Nothing to take out of a text without card numbers. -/
theorem Clean.scrubCardNumbers {text : Bytes} (h : Clean none text) :
    scrubCardNumbers text = text := by
  rw [← cardStage_apply, Stage.apply_eq_self, List.eq_nil_iff_forall_not_mem]
  intro t ht
  obtain ⟨marks, hmarks, hmem⟩ := List.mem_flatten.mp (Redaction.mem_takenOut_collect.mp ht)
  obtain ⟨before, c, rest, rfl, rfl⟩ := mem_scan hmarks
  obtain ⟨-, run, n, hfound, hwhole, hcard⟩ := cardNext_taken hmem
  rw [h.found hfound hwhole] at hcard
  exact absurd hcard (by decide)

/-! ## The second pass -/

def bearerTokenSpec : PatternSpec where
  label := ascii "BEARER TOKEN"
  pattern := bearerToken

/-- What the stages take out of a text one after another, and what they keep. -/
def redaction (input : Bytes) : Redaction Bytes := Stage.redactAll stages input

theorem redaction_original (input : Bytes) : (redaction input).original = input :=
  Stage.original_redactAll stages input

theorem redaction_written (input : Bytes) :
    (redaction input).written filtered = scrubString input := by
  have h := Stage.written_redactAll stages_ordered input
  rwa [funext write_markers, applyAll_stages] at h

theorem patternStage_mem {spec : PatternSpec} (hspec : spec ∈ patterns) :
    patternStage spec hspec ∈ stages :=
  mem_stages.mpr (.inr (.inl ⟨spec, hspec, rfl⟩))

theorem bearerTokenSpec_mem : bearerTokenSpec ∈ patterns := .tail _ (.tail _ (.tail _ (.head _)))

theorem bounded_eq_cardSpec :
    ∀ spec ∈ patterns, spec.wordBounded = true → spec = cardSpec := by
  simp [patterns, cardSpec]

theorem bearerToken_label :
    applyPattern bearerTokenSpec (markers.body bearerLabel) ≠ markers.body bearerLabel := by
  decide +kernel

theorem takenOut_label {input : Bytes} {t : Bytes × Bytes} (h : t ∈ (redaction input).takenOut) :
    t.1 ∈ labels := by
  obtain ⟨st, hst, heq⟩ := Stage.takenOut_redactAll h
  rw [heq]
  exact marker_mem_labels hst

/-- A second pass changes nothing if and only if the first one took out no bearer token, and
neither an IBAN nor a card number in groups is in a stretch it kept, read on its own. -/
theorem scrubString_twice (input : Bytes) : scrubString (scrubString input) = scrubString input ↔
    (∀ t ∈ (redaction input).takenOut, t.1 ≠ ascii "BEARER TOKEN") ∧
      ∀ p ∈ (redaction input).kept, scrubIbans p = p ∧ applyPattern cardSpec p = p := by
  have htwice := Stage.applyAll_twice stages_ordered input
  rw [applyAll_stages, applyAll_stages] at htwice
  rw [htwice]
  constructor
  · intro h
    constructor
    · rintro t ht heq
      have hbearer := (h _ (patternStage_mem bearerTokenSpec_mem)).2 t ht
      rw [patternStage_apply, heq] at hbearer
      exact bearerToken_label hbearer
    · intro p hp
      have hiban := (h ibanStage (mem_stages.mpr (.inl rfl))).1 p hp
      have hcard := (h _ (patternStage_mem cardSpec_mem)).1 p hp
      rw [ibanStage_apply] at hiban
      rw [patternStage_apply] at hcard
      exact ⟨hiban, hcard⟩
  · rintro ⟨hbearer, hkept⟩ st hst
    have hlabels : ∀ t ∈ (redaction input).takenOut, st.apply (markers.body t.1) =
        markers.body t.1 :=
      fun t ht => apply_label hst (takenOut_label ht) fun _ => hbearer t ht
    refine ⟨fun p hp => ?_, hlabels⟩
    rcases mem_stages.mp hst with rfl | ⟨spec, hspec, rfl⟩ | rfl
    · rw [ibanStage_apply]
      exact (hkept p hp).1
    · rw [patternStage_apply]
      cases hbounded : spec.wordBounded with
      | true =>
        obtain rfl := bounded_eq_cardSpec spec hspec hbounded
        exact (hkept p hp).2
      | false =>
        obtain ⟨text, q, hq, hpart⟩ := Stage.kept_redactAll (patternStage_mem hspec) hp
        exact applyPattern_of_unmatched hspec ((kept_unmatched hspec hbounded hq).mono hpart)
    · have hclean : Clean none (scrubString input) := by
        rw [scrubString, scrubCardNumbers_eq]
        exact cardsFrom_clean none _
      have happly : cardStage.apply (scrubString input) = scrubString input := by
        rw [cardStage_apply]
        exact hclean.scrubCardNumbers
      rw [← redaction_written, ← funext write_markers] at happly
      exact (cardStage.apply_written_eq_self.mp happly).1 p hp

-- An IBAN that begins at a word boundary only once the number in front of it is taken out.
example : scrubString (scrubString (ascii "123-45-6789DE89370400440532013000")) ≠
    scrubString (ascii "123-45-6789DE89370400440532013000") := by
  decide +kernel

/-- The marker of a bearer token is one itself, written in capitals. -/
theorem bearer_token_again : ¬ ∀ input :
    Bytes, scrubString (scrubString input) = scrubString input := by
  intro h
  have hinput : scrubString (scrubString (ascii "Bearer abc")) ≠
      scrubString (ascii "Bearer abc") := by
    decide +kernel
  exact hinput (h (ascii "Bearer abc"))

end ForgeOps.PiiScrubber
