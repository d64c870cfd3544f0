import ForgeOpsTracker.Lib.Calendar
import ForgeOpsTracker.Lib.Printf
import ForgeOpsTracker.JsonText
import ForgeOpsTracker.Performance

/-! The body of a performance flush, and which buckets it is JSON for. -/

namespace ForgeOps.Performance
open JsonText

def numbersSize : Nat := 128

/-- What is formatted into `numbers` for a bucket, before that buffer cuts it. -/
def numbersText (b : Bucket Double) : Bytes :=
  ascii ",\"request_count\":" ++ decimal b.count ++ ascii ",\"duration_sum_ms\":" ++
    Printf.fixed 3 b.durationSumMs ++ ascii ",\"max_duration_ms\":" ++
    Printf.fixed 3 b.maxDurationMs ++ ascii "\x7d"

/-- One turn of the loop in `build_samples_json`. -/
def sampleJson (config : Configuration) (periodStart periodEnd : Nat) (b : Bucket Double) : Bytes :=
  ascii "\x7b\"transaction_name\":" ++ jsonString b.name ++
    ascii ",\"environment\":" ++ jsonString (config.environment.getD []) ++
    ascii ",\"release\":" ++ jsonStringOrNull config.release ++
    ascii ",\"period_started_at\":" ++ jsonString (Calendar.timestamp periodStart) ++
    ascii ",\"period_ended_at\":" ++ jsonString (Calendar.timestamp periodEnd) ++
    Printf.snprintf numbersSize (numbersText b)

/-- `build_samples_json` -/
def samplesJson (config : Configuration) (snapshot : List (Bucket Double))
    (periodStart periodEnd : Nat) : Bytes :=
  ascii "\x7b\"samples\":[" ++
    commaSeparated (snapshot.map (sampleJson config periodStart periodEnd)) ++ ascii "]\x7d"

/-- The sum and the maximum are finite, and the three numbers leave room for their names. -/
structure Printable (b : Bucket Double) : Prop where
  sum : b.durationSumMs.isfinite = true
  max : b.maxDurationMs.isfinite = true
  fits : (decimal b.count).length + (Printf.fixed 3 b.durationSumMs).length +
    (Printf.fixed 3 b.maxDurationMs).length ≤ 71

instance : DecidablePred Printable := fun b =>
  decidable_of_iff (b.durationSumMs.isfinite = true ∧ b.maxDurationMs.isfinite = true ∧
      (decimal b.count).length + (Printf.fixed 3 b.durationSumMs).length +
        (Printf.fixed 3 b.maxDurationMs).length ≤ 71)
    ⟨fun h => ⟨h.1, h.2.1, h.2.2⟩, fun h => ⟨h.sum, h.max, h.fits⟩⟩

theorem numbersText_fits {b : Bucket Double} (h : Printable b) :
    (numbersText b).length < numbersSize := by
  have hcount : (ascii ",\"request_count\":").length = 17 := rfl
  have hsum : (ascii ",\"duration_sum_ms\":").length = 19 := rfl
  have hmax : (ascii ",\"max_duration_ms\":").length = 19 := rfl
  have hbrace : (ascii "\x7d").length = 1 := rfl
  have hfits := h.fits
  simp only [numbersText, List.length_append, hcount, hsum, hmax, hbrace, numbersSize]
  omega

theorem sampleJson_wellFormed {b : Bucket Double} (h : Printable b) (config : Configuration)
    (periodStart periodEnd : Nat) :
    Json.WellFormed (sampleJson config periodStart periodEnd b) := by
  have hname : Json.Opened (ascii "\x7b\"transaction_name\":" ++ jsonString b.name) :=
    Json.Opened.first (k := ascii "transaction_name") (Json.chars_of_plain (by decide))
      (jsonString_wellFormed b.name)
  have henvironment := hname.append (ascii "environment")
    (ascii ",\"environment\":") rfl (by decide)
    (jsonString_wellFormed (config.environment.getD []))
  have hrelease := henvironment.append (ascii "release") (ascii ",\"release\":") rfl (by decide)
    (jsonStringOrNull_wellFormed config.release)
  have hstart := hrelease.append (ascii "period_started_at") (ascii ",\"period_started_at\":") rfl
    (by decide) (jsonString_wellFormed (Calendar.timestamp periodStart))
  have hend := hstart.append (ascii "period_ended_at") (ascii ",\"period_ended_at\":") rfl
    (by decide) (jsonString_wellFormed (Calendar.timestamp periodEnd))
  have hcount := hend.append (ascii "request_count") (ascii ",\"request_count\":") rfl (by decide)
    (Printf.decimal_wellFormed b.count)
  have hsum := hcount.append (ascii "duration_sum_ms")
    (ascii ",\"duration_sum_ms\":") rfl (by decide)
    (Printf.fixed_wellFormed 3 h.sum)
  have hmax := hsum.append (ascii "max_duration_ms") (ascii ",\"max_duration_ms\":") rfl (by decide)
    (Printf.fixed_wellFormed 3 h.max)
  have hclosed := hmax.close
  have hbrace : ascii "\x7d" = [125] := rfl
  rw [sampleJson, Printf.snprintf_of_fits (numbersText_fits h), numbersText, hbrace]
  simpa only [List.append_assoc] using hclosed

theorem samplesJson_wellFormed (config : Configuration) {snapshot : List (Bucket Double)}
    (h : ∀ b ∈ snapshot, Printable b) (periodStart periodEnd : Nat) :
    Json.WellFormed (samplesJson config snapshot periodStart periodEnd) := by
  apply listBody_wellFormed (ascii "samples") _ rfl (by decide)
  intro v hv
  obtain ⟨b, hb, rfl⟩ := List.mem_map.mp hv
  exact sampleJson_wellFormed (h b hb) config periodStart periodEnd

end ForgeOps.Performance
