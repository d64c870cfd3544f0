import ForgeOpsTracker.SignalReport

/-! A raw report cut at any byte, and when the payload made of it is still JSON. -/

namespace ForgeOps.SignalReport

/-! ## Reading back whole lines and the head of one -/

theorem Readable.cut {l q : Bytes} (h : Readable l) (hq : q <+: l) : Readable q where
  no_newline := fun hc => h.no_newline (hq.subset hc)
  no_nul := fun hc => h.no_nul (hq.subset hc)
  fits := Nat.lt_of_le_of_lt hq.length_le h.fits

theorem stripped_line {l : Bytes} (h : 0 ∉ l) : stripped (l ++ [10]) = l := by
  have hline : 0 ∉ l ++ [10] := by simp [h]
  rw [stripped, takeWhile_no_nul hline, List.getLast?_concat, if_pos rfl, List.dropLast_concat]

theorem stripped_last {q : Bytes} (h : 0 ∉ q) (hnl : 10 ∉ q) : stripped q = q := by
  rw [stripped, takeWhile_no_nul h, if_neg]
  intro hlast
  exact hnl (List.mem_of_getLast? hlast)

/-- Reading lines and the head of another one is folding over all of them. -/
theorem sections_unlines {ls : List Bytes} {q : Bytes} (hls : ∀ l ∈ ls, Readable l)
    (hq : Readable q) : sections (unlines ls ++ q) = (ls ++ [q]).foldl takeLine {} := by
  have hmap : (ls.map (· ++ [10])).map stripped = ls := by
    rw [List.map_map]
    conv_rhs => rw [← List.map_id ls]
    apply List.map_congr_left
    intro l hl
    exact stripped_line (hls l hl).no_nul
  rw [sections, chunks_unlines (fun l hl => ⟨(hls l hl).no_newline, (hls l hl).fits⟩)
    hq.no_newline hq.fits.le (Nat.le_refl _), List.map_append, hmap, List.foldl_append,
    List.foldl_append]
  by_cases hnil : q = []
  · rw [if_pos hnil, hnil]
    rfl
  · rw [if_neg hnil, List.map_singleton, stripped_last hq.no_nul hq.no_newline]

/-- What a breadcrumb line may be cut to: its mark and the head of its entry. -/
theorem crumbOf_prefix_rawLine {q e j : Bytes} (hq : q <+: Breadcrumbs.rawLine e)
    (h : crumbOf q = some j) : q = Breadcrumbs.rawLine j ∧ j <+: e ∧ looksComplete j := by
  unfold crumbOf at h
  split at h
  · rename_i hmark
    obtain rfl := Option.some.inj h
    obtain ⟨⟨rest, rfl⟩, hcomplete⟩ := hmark
    have hdrop : (ascii "#breadcrumb " ++ rest).drop 12 = rest := rfl
    rw [hdrop] at hcomplete ⊢
    exact ⟨rfl, (List.prefix_append_right_inj _).mp hq, hcomplete⟩
  · exact absurd h (by simp)

theorem crumbOf_rawLine {e : Bytes} (h : looksComplete e) :
    crumbOf (Breadcrumbs.rawLine e) = some e := by
  have hdrop : (Breadcrumbs.rawLine e).drop 12 = e := rfl
  rw [crumbOf, hdrop, if_pos ⟨List.prefix_append _ _, h⟩]

/-- A line that does not begin with the mark adds no entry, however it is cut. -/
theorem crumbOf_unmarked {l q : Bytes} (hq : q <+: l) (h : ¬ ascii "#breadcrumb" <+: l) :
    crumbOf q = none := by
  apply if_neg
  rintro ⟨hmark, -⟩
  have hshort : ascii "#breadcrumb" <+: ascii "#breadcrumb " := ⟨ascii " ", rfl⟩
  exact h ((hshort.trans hmark).trans hq)

/-! ## Where a report can be cut -/

namespace Crash

variable (crash : Crash)

def entries : List Bytes := Breadcrumbs.entries crash.trail

def crumbLines : List Bytes := crash.entries.map Breadcrumbs.rawLine

theorem entries_isEntry : ∀ e ∈ crash.entries, Breadcrumbs.IsEntry e :=
  Breadcrumbs.sound_of_reachable crash.trail_reachable

theorem writeReport_eq : writeReport crash =
    unlines (crash.signalName :: (crash.backtrace ++ crash.crumbLines ++
      (crash.traceId.map traceLine).toList)) := by
  have htrace : writeRawTraceIdToFd crash.traceId =
      unlines (crash.traceId.map traceLine).toList := by
    cases crash.traceId with
    | none => rfl
    | some id => exact (List.append_nil _).symm
  rw [writeReport, htrace, unlines_cons, unlines_append, unlines_append, Breadcrumbs.writeRawToFd,
    show ascii "\n" = [10] from rfl]
  simp only [crumbLines, entries, List.append_assoc, List.cons_append, List.nil_append]

/-- The file, by the section the cut falls into. -/
inductive Cut : Bytes → Prop
  | name {q : Bytes} (hq : q <+: crash.signalName) : Cut q
  | backtrace {ls ls' : List Bytes} {l q : Bytes} (hls : crash.backtrace = ls ++ l :: ls')
      (hq : q <+: l) : Cut (unlines (crash.signalName :: ls) ++ q)
  | trail {es es' : List Bytes} {e q : Bytes} (hes : crash.entries = es ++ e :: es')
      (hq : q <+: Breadcrumbs.rawLine e) :
      Cut (unlines (crash.signalName :: (crash.backtrace ++ es.map Breadcrumbs.rawLine)) ++ q)
  | trace {q id : Bytes} (hid : crash.traceId = some id) (hq : q <+: traceLine id) :
      Cut (unlines (crash.signalName :: (crash.backtrace ++ crash.crumbLines)) ++ q)
  | whole : Cut (unlines (crash.signalName :: (crash.backtrace ++ crash.crumbLines ++
      (crash.traceId.map traceLine).toList)))

theorem cut_take (n : Nat) : crash.Cut ((writeReport crash).take n) := by
  rw [writeReport_eq]
  obtain ⟨ls, q, heq, hcut⟩ := prefix_unlines (List.take_prefix n (unlines (crash.signalName ::
    (crash.backtrace ++ crash.crumbLines ++ (crash.traceId.map traceLine).toList))))
  rw [heq]
  rcases hcut with ⟨rfl, rfl⟩ | ⟨l, ls', hls, hq⟩
  · rw [List.append_nil]
    exact .whole
  cases ls with
  | nil =>
    obtain ⟨rfl, -⟩ := List.cons.inj hls
    exact .name hq
  | cons name ls =>
    obtain ⟨rfl, hbody⟩ := List.cons.inj hls
    rcases append_eq_append_cons (List.append_assoc _ _ _ ▸ hbody) with ⟨as, hback⟩ |
      ⟨ks, rfl, hrest⟩
    · exact .backtrace hback hq
    rcases append_eq_append_cons hrest with ⟨bs, hcrumbs⟩ | ⟨ts, rfl, htrace⟩
    · obtain ⟨es, es'', hes, rfl, hmap⟩ := List.map_eq_append_iff.mp hcrumbs
      obtain ⟨e, es', rfl, rfl, -⟩ := List.map_eq_cons_iff.mp hmap
      exact .trail hes hq
    · cases hid : crash.traceId with
      | none => simp [hid] at htrace
      | some id =>
        rw [hid] at htrace
        cases ts with
        | nil =>
          obtain ⟨rfl, -⟩ := List.cons.inj htrace
          rw [List.append_nil]
          exact .trace hid hq
        | cons t ts => simp at htrace

/-! ## The lines of a report -/

/-- The lines after the name. -/
def body : List Bytes := crash.backtrace ++ crash.crumbLines ++ (crash.traceId.map traceLine).toList

theorem rawLine_readable {e : Bytes} (h : Breadcrumbs.IsEntry e) :
    Readable (Breadcrumbs.rawLine e) := by
  have hprintable : (Breadcrumbs.rawLine e).all JsonText.isPrintable := by
    rw [Breadcrumbs.rawLine, List.all_append, h.printable]
    rfl
  refine ⟨fun hc => ?_, fun hc => ?_, ?_⟩
  · exact absurd (List.all_eq_true.mp hprintable 10 hc) (by decide)
  · exact absurd (List.all_eq_true.mp hprintable 0 hc) (by decide)
  · have hfits : e.length < 1024 := h.fits
    rw [Breadcrumbs.rawLine, List.length_append, lineSize, Breadcrumbs.slotSize,
      show (ascii "#breadcrumb ").length = 12 from rfl]
    omega

theorem traceLine_readable {id : Bytes} (h : id.length = traceIdLength ∧ id.all isLowerHex) :
    Readable (traceLine id) := by
  have hbyte : ∀ c, c ∈ traceLine id → c ∈ ascii "#trace_id " ∨ isLowerHex c = true := by
    intro c hc
    rcases List.mem_append.mp hc with hc | hc
    · exact .inl hc
    · exact .inr (List.all_eq_true.mp h.2 c hc)
  refine ⟨fun hc => ?_, fun hc => ?_, ?_⟩
  · rcases hbyte 10 hc with hc | hc
    · exact absurd hc (by decide)
    · exact absurd hc (by decide)
  · rcases hbyte 0 hc with hc | hc
    · exact absurd hc (by decide)
    · exact absurd hc (by decide)
  · rw [traceLine, List.length_append, h.1]
    decide

theorem body_readable : ∀ l ∈ crash.body, Readable l := by
  intro l hl
  simp only [body, crumbLines, List.mem_append, List.mem_map, Option.mem_toList,
    Option.map_eq_some_iff] at hl
  rcases hl with (hl | ⟨e, he, rfl⟩) | ⟨id, hid, rfl⟩
  · exact crash.backtrace_readable l hl
  · exact rawLine_readable (crash.entries_isEntry e he)
  · exact traceLine_readable (crash.traceId_hex id hid)

theorem traceLine_unmarked (id : Bytes) : ¬ ascii "#breadcrumb" <+: traceLine id := by
  intro h
  exact absurd (List.cons_prefix_cons.mp (List.cons_prefix_cons.mp h).2).1 (by decide)

theorem entry_wellFormed {e : Bytes} (h : Breadcrumbs.IsEntry e) : Json.WellFormed e := by
  obtain ⟨ms, hms, rfl⟩ := h.object
  exact Json.object_wellFormed hms

/-- A whole line adds nothing or a whole entry. -/
theorem crumb_wellFormed {l c : Bytes} (hl : l ∈ crash.body) (hc : crumbOf l = some c) :
    Json.WellFormed c := by
  simp only [body, crumbLines, List.mem_append, List.mem_map, Option.mem_toList,
    Option.map_eq_some_iff] at hl
  rcases hl with (hl | ⟨e, he, rfl⟩) | ⟨id, -, rfl⟩
  · rw [crumbOf_unmarked (List.prefix_refl l) (crash.backtrace_unmarked l hl).1] at hc
    exact absurd hc (by simp)
  · obtain ⟨heq, -, -⟩ := crumbOf_prefix_rawLine (List.prefix_refl _) hc
    obtain rfl := List.append_cancel_left heq
    exact entry_wellFormed (crash.entries_isEntry e he)
  · rw [crumbOf_unmarked (List.prefix_refl _) (traceLine_unmarked id)] at hc
    exact absurd hc (by simp)

theorem name_readable : 10 ∉ crash.signalName ∧ 0 ∉ crash.signalName := by
  refine ⟨fun hc => ?_, fun hc => ?_⟩
  · exact absurd (List.all_eq_true.mp crash.name_ascii 10 hc) (by decide)
  · exact absurd (List.all_eq_true.mp crash.name_ascii 0 hc) (by decide)

theorem completeJson_unlines {ls : List Bytes} {q : Bytes} (hls : ∀ l ∈ ls, Readable l)
    (hq : Readable q) (config : Configuration) (now : Nat) (user : List (Bytes × Option Bytes)) :
    completeJson config (unlines (crash.signalName :: ls) ++ q) now user =
      payload config crash.signalName ((ls ++ [q]).foldl takeLine {}) now user := by
  obtain ⟨hnewline, hnul⟩ := crash.name_readable
  rw [unlines_cons, List.append_assoc, List.cons_append, completeJson, signalNameOf]
  rcases Nat.lt_or_eq_of_le (Nat.le_sub_one_of_lt crash.name_fits) with hshort | hfull
  · rw [fgets_line hnewline hshort, if_neg (by simp), stripped_line hnul, sections_unlines hls hq]
  · -- the newline of the name is read as an empty line
    have hempty : Readable [] := ⟨by simp, by simp, by decide⟩
    have hne : crash.signalName ≠ [] := by
      intro hnil
      rw [hnil] at hfull
      exact absurd hfull (by decide)
    rw [fgets_full hnewline hfull, if_neg hne, stripped_last hnul hnewline,
      show 10 :: (unlines ls ++ q) = unlines ([] :: ls) ++ q from rfl,
      sections_unlines (List.forall_mem_cons.mpr ⟨hempty, hls⟩) hq]
    rfl

/-- A file of whole lines and a head of a line that adds nothing or a JSON value. -/
theorem completeJson_wellFormed_of_lines {ls : List Bytes} {q : Bytes} {config : Configuration}
    (hls : ∀ l ∈ ls, l ∈ crash.body) (hq : Readable q)
    (h : config.strictPrivacy = true ∨ ∀ c, crumbOf q = some c → Json.WellFormed c) (now : Nat)
    (user : List (Bytes × Option Bytes)) :
    Json.WellFormed (completeJson config (unlines (crash.signalName :: ls) ++ q) now user) := by
  rw [crash.completeJson_unlines (fun l hl => crash.body_readable l (hls l hl)) hq]
  apply payload_wellFormed crash.name_ascii
  · apply traceId_hex_foldl
    intro id hid
    exact absurd hid (by simp)
  · apply h.imp_right
    intro hlast c hc
    rw [crumbs_foldl, List.nil_append] at hc
    obtain ⟨l, hl, hcrumb⟩ := List.mem_filterMap.mp hc
    rcases List.mem_append.mp hl with hl | hl
    · exact crash.crumb_wellFormed (hls l hl) hcrumb
    · obtain rfl := List.mem_singleton.mp hl
      exact hlast c hcrumb

/-- A file that stops inside the name, or is empty. -/
theorem completeJson_wellFormed_of_name {q : Bytes} (hq : q <+: crash.signalName)
    {config : Configuration} (now : Nat) (user : List (Bytes × Option Bytes)) :
    Json.WellFormed (completeJson config q now user) := by
  obtain ⟨hnewline, hnul⟩ := crash.name_readable
  have hq10 : 10 ∉ q := fun hc => hnewline (hq.subset hc)
  have hq0 : 0 ∉ q := fun hc => hnul (hq.subset hc)
  have hname : (signalNameOf q).all isAsciiText := by
    rw [signalNameOf, fgets_last hq10
      (Nat.le_sub_one_of_lt (Nat.lt_of_le_of_lt hq.length_le crash.name_fits))]
    split
    · decide
    · rw [stripped_last hq0 hq10]
      exact List.all_eq_true.mpr fun c hc => List.all_eq_true.mp crash.name_ascii c (hq.subset hc)
  rw [completeJson, fgets_last hq10
    (Nat.le_sub_one_of_lt (Nat.lt_of_le_of_lt hq.length_le crash.name_fits))]
  exact payload_wellFormed hname (fun id hid => absurd hid (by simp [sections, chunks]))
    (.inr fun c hc => absurd hc (by simp [sections, chunks])) now user

/-! ## When the payload is JSON -/

/-- The file stops inside an entry, before its last byte but right behind a brace that closes. -/
def EndsBehindInnerBrace (file : Bytes) : Prop :=
  ∃ es e es' cut, crash.entries = es ++ e :: es' ∧ cut <+: e ∧ cut ≠ e ∧ cut.getLast? = some 125 ∧
    file = unlines (crash.signalName :: (crash.backtrace ++ es.map Breadcrumbs.rawLine)) ++
      Breadcrumbs.rawLine cut

theorem entry_looksComplete {e : Bytes} (h : Breadcrumbs.IsEntry e) : looksComplete e := by
  obtain ⟨ms, -, rfl⟩ := h.object
  have hlast : (Json.object ms).getLast? = some 125 := by
    rw [Json.object, ← List.cons_append, List.getLast?_concat]
  rw [looksComplete, hlast]
  simp [Json.object]

theorem cut_looksComplete {e cut : Bytes} (h : Breadcrumbs.IsEntry e) (hcut : cut <+: e)
    (hlast : cut.getLast? = some 125) : looksComplete cut := by
  obtain ⟨ms, -, rfl⟩ := h.object
  cases cut with
  | nil => exact absurd hlast (by simp)
  | cons c rest =>
    obtain ⟨rfl, -⟩ := List.cons_prefix_cons.mp hcut
    cases rest with
    | nil => exact absurd hlast (by decide)
    | cons d rest =>
      have hlength : 2 ≤ (123 :: d :: rest : Bytes).length := Nat.le_add_left 2 rest.length
      rw [looksComplete, decide_eq_true hlength, hlast]
      rfl

theorem crumbs_whole {es : List Bytes} (h : ∀ e ∈ es, Breadcrumbs.IsEntry e) :
    (crash.backtrace ++ es.map Breadcrumbs.rawLine).filterMap crumbOf = es := by
  have hback : crash.backtrace.filterMap crumbOf = [] := by
    rw [List.filterMap_eq_nil_iff]
    intro l hl
    exact crumbOf_unmarked (List.prefix_refl l) (crash.backtrace_unmarked l hl).1
  have hcrumbs : (es.map Breadcrumbs.rawLine).filterMap crumbOf = es := by
    induction es with
    | nil => rfl
    | cons e es ih =>
      rw [List.map_cons, List.filterMap_cons,
        crumbOf_rawLine (entry_looksComplete (h e List.mem_cons_self)),
        ih fun x hx => h x (List.mem_cons_of_mem _ hx)]
  rw [List.filterMap_append, hback, hcrumbs, List.nil_append]

theorem unmarked_of_trail {es : List Bytes} :
    ∀ l ∈ crash.backtrace ++ es.map Breadcrumbs.rawLine, ¬ ascii "#trace_id " <+: l := by
  intro l hl hmark
  rcases List.mem_append.mp hl with hl | hl
  · have hshort : ascii "#trace_id" <+: ascii "#trace_id " := ⟨ascii " ", rfl⟩
    exact (crash.backtrace_unmarked l hl).2 (hshort.trans hmark)
  · obtain ⟨e, -, rfl⟩ := List.mem_map.mp hl
    exact not_both_marks hmark (List.prefix_append _ _)

theorem not_wellFormed_of_endsBehindInnerBrace {file : Bytes} (h : crash.EndsBehindInnerBrace file)
    {config : Configuration} (hsent : ¬ config.strictPrivacy) (now : Nat)
    (user : List (Bytes × Option Bytes)) :
    ¬ Json.WellFormed (completeJson config file now user) := by
  obtain ⟨es, e, es', cut, hes, hcut, hne, hlast, rfl⟩ := h
  have hentries := crash.entries_isEntry
  rw [hes] at hentries
  have hwhole : ∀ x ∈ es, Breadcrumbs.IsEntry x := fun x hx =>
    hentries x (List.mem_append_left _ hx)
  have he := hentries e (List.mem_append_right _ List.mem_cons_self)
  obtain ⟨ms, hms, rfl⟩ := he.object
  have hlines : ∀ l ∈ crash.backtrace ++ es.map Breadcrumbs.rawLine, Readable l := by
    intro l hl
    rcases List.mem_append.mp hl with hl | hl
    · exact crash.backtrace_readable l hl
    · obtain ⟨x, hx, rfl⟩ := List.mem_map.mp hl
      exact rawLine_readable (hwhole x hx)
  have hq : Readable (Breadcrumbs.rawLine cut) :=
    (rawLine_readable he).cut ((List.prefix_append_right_inj _).mpr hcut)
  rw [crash.completeJson_unlines hlines hq]
  apply payload_not_wellFormed crash.name_ascii hsent _ _
    (fun c hc => entry_wellFormed (hwhole c hc)) hms hcut hne
  · rintro rfl
    exact absurd hlast (by simp)
  · rw [traceId_foldl]
    intro l hl
    rcases List.mem_append.mp hl with hl | hl
    · exact crash.unmarked_of_trail l hl
    · obtain rfl := List.mem_singleton.mp hl
      exact fun hmark => not_both_marks hmark (List.prefix_append _ _)
  · rw [crumbs_foldl, List.nil_append, List.filterMap_append, crash.crumbs_whole hwhole,
      List.filterMap_cons, crumbOf_rawLine (cut_looksComplete he hcut hlast)]
    rfl

end Crash

/-- What is made of a report cut at any byte is JSON, unless the cut falls into an entry
right behind a brace that closes and the breadcrumbs are sent. -/
theorem completeJson_wellFormed_iff (crash : Crash) (n : Nat) (config : Configuration) (now : Nat)
    (user : List (Bytes × Option Bytes)) :
    Json.WellFormed (completeJson config ((writeReport crash).take n) now user) ↔
      config.strictPrivacy = true ∨ ¬ crash.EndsBehindInnerBrace ((writeReport crash).take n) := by
  constructor
  · intro h
    by_cases hstrict : config.strictPrivacy
    · exact .inl hstrict
    · exact .inr fun hend => crash.not_wellFormed_of_endsBehindInnerBrace hend hstrict now user h
  · intro h
    have hcut := crash.cut_take n
    revert h
    generalize (writeReport crash).take n = file at hcut ⊢
    intro h
    cases hcut with
    | name hq => exact crash.completeJson_wellFormed_of_name hq now user
    | @backtrace ls ls' l q hls hq =>
      have hl : l ∈ crash.backtrace := hls ▸ List.mem_append_right _ List.mem_cons_self
      apply crash.completeJson_wellFormed_of_lines
      · intro m hm
        exact List.mem_append_left _ (List.mem_append_left _ (hls ▸ List.mem_append_left _ hm))
      · exact (crash.backtrace_readable l hl).cut hq
      · right
        rw [crumbOf_unmarked hq (crash.backtrace_unmarked l hl).1]
        exact fun c hc => absurd hc (by simp)
    | @trail es es' e q hes hq =>
      have he : e ∈ crash.entries := hes ▸ List.mem_append_right _ List.mem_cons_self
      apply crash.completeJson_wellFormed_of_lines
      · intro m hm
        apply List.mem_append_left
        rcases List.mem_append.mp hm with hm | hm
        · exact List.mem_append_left _ hm
        · obtain ⟨x, hx, rfl⟩ := List.mem_map.mp hm
          exact List.mem_append_right _ (List.mem_map_of_mem (hes ▸ List.mem_append_left _ hx))
      · exact (Crash.rawLine_readable (crash.entries_isEntry e he)).cut hq
      · apply h.imp_right
        intro hend c hc
        obtain ⟨rfl, hce, hcomplete⟩ := crumbOf_prefix_rawLine hq hc
        by_cases heq : c = e
        · subst heq
          exact Crash.entry_wellFormed (crash.entries_isEntry c he)
        · simp only [looksComplete, Bool.and_eq_true, decide_eq_true_eq] at hcomplete
          exact absurd ⟨es, e, es', c, hes, hce, heq, hcomplete.2, rfl⟩ hend
    | @trace q id hid hq =>
      apply crash.completeJson_wellFormed_of_lines
      · exact fun m hm => List.mem_append_left _ hm
      · exact (Crash.traceLine_readable (crash.traceId_hex id hid)).cut hq
      · right
        rw [crumbOf_unmarked hq (Crash.traceLine_unmarked id)]
        exact fun c hc => absurd hc (by simp)
    | whole =>
      rw [← List.append_nil (unlines _)]
      apply crash.completeJson_wellFormed_of_lines (fun m hm => hm) ⟨by simp, by simp, by decide⟩
      right
      rw [show crumbOf [] = none by decide]
      exact fun c hc => absurd hc (by simp)

/-! ## A breadcrumb cut just before its last byte -/

def started : Breadcrumbs.Call := { config := {}, message := some (ascii "started"), now := 0 }

def startedEntry : Bytes :=
  ascii "\x7b\"category\":\"custom\",\"message\":\"started\",\"level\":\"info\"" ++
    ascii ",\"timestamp\":\"1970-01-01T00:00:00Z\",\"data\":\x7b\x7d\x7d"

theorem started_encoded : started.encoded {} (ascii "started") = some startedEntry := by
  have hscrubbed : PiiScrubber.scrubString (ascii "started") = ascii "started" := by decide
  have htime : Calendar.timestamp 0 = ascii "1970-01-01T00:00:00Z" := by decide
  have hentry : Breadcrumbs.encodeEntry (ascii "started") 300 (ascii "custom") (ascii "info")
      (ascii "1970-01-01T00:00:00Z") [] = startedEntry := by decide
  show Breadcrumbs.fitEntry (fun _ => true) (PiiScrubber.scrubString (ascii "started"))
    (ascii "custom")
    (ascii "info") (Calendar.timestamp 0) [] 0 300 0 = some startedEntry
  rw [hscrubbed, htime, Breadcrumbs.fitEntry, if_pos rfl, List.take_nil, hentry]
  exact if_pos (by decide)

/-- The trail of a thread that has left one breadcrumb. -/
def startedTrail : Breadcrumbs.Trail := Breadcrumbs.add started {} none

theorem entries_startedTrail : Breadcrumbs.entries startedTrail = [startedEntry] :=
  Breadcrumbs.entries_add_first rfl (by decide) rfl started_encoded

def abortedCrash : Crash where
  signalName := ascii "Aborted"
  backtrace := []
  trail := startedTrail
  traceId := none
  name_ascii := by decide
  name_fits := by decide
  backtrace_readable := by simp
  backtrace_unmarked := by simp
  trail_reachable := ⟨[.add started {}], rfl⟩
  traceId_hex := by simp

/-- Its report up to the byte before the last one of the breadcrumb. -/
def abortedFile : Bytes := unlines [ascii "Aborted"] ++ Breadcrumbs.rawLine startedEntry.dropLast

theorem abortedFile_eq_take : (writeReport abortedCrash).take abortedFile.length = abortedFile := by
  have hlines : abortedCrash.crumbLines = [Breadcrumbs.rawLine startedEntry] :=
    congrArg (List.map Breadcrumbs.rawLine) entries_startedTrail
  have hentry : startedEntry.dropLast <+: startedEntry := List.dropLast_prefix _
  apply Eq.symm
  apply List.prefix_iff_eq_take.mp
  rw [abortedCrash.writeReport_eq, hlines]
  show unlines [ascii "Aborted"] ++ Breadcrumbs.rawLine startedEntry.dropLast <+:
    unlines [ascii "Aborted", Breadcrumbs.rawLine startedEntry]
  rw [unlines_cons (ascii "Aborted"), unlines_cons (ascii "Aborted"), unlines_nil, unlines_cons,
    unlines_nil, List.append_assoc]
  apply (List.prefix_append_right_inj _).mpr
  show 10 :: (ascii "#breadcrumb " ++ startedEntry.dropLast) <+:
    10 :: (ascii "#breadcrumb " ++ startedEntry ++ [10])
  rw [List.append_assoc]
  apply List.cons_prefix_cons.mpr ⟨rfl, _⟩
  apply (List.prefix_append_right_inj _).mpr
  exact List.prefix_append_of_prefix hentry

/-- A breadcrumb cut just before its last byte is taken for a whole one. -/
theorem cutBreadcrumb_spoils_json :
    ¬ ∀ (crash : Crash) (n : Nat) (config : Configuration) (now : Nat)
        (user : List (Bytes × Option Bytes)),
        Json.WellFormed (completeJson config ((writeReport crash).take n) now user) := by
  intro h
  have hend : abortedCrash.EndsBehindInnerBrace abortedFile :=
    ⟨[], startedEntry, [], startedEntry.dropLast, entries_startedTrail, List.dropLast_prefix _,
      fun heq => absurd (congrArg List.length heq) (by decide), rfl, rfl⟩
  apply abortedCrash.not_wellFormed_of_endsBehindInnerBrace hend
    (show ¬ ({} : Configuration).strictPrivacy by decide) 0 []
  rw [← abortedFile_eq_take]
  exact h abortedCrash abortedFile.length {} 0 []

end ForgeOps.SignalReport
