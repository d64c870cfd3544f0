import ForgeOpsTracker.Tracker

/-! Which request bodies are JSON. A metric is checked when it is captured; a duration is not,
so a sample or a span may have a number that is none or that its buffer has cut. -/

namespace ForgeOps

open JsonText

/-! ## Spans -/

namespace Spans

/-- The duration is finite, and its number leaves room for the names around it. -/
structure Printable (durationMs : Double) : Prop where
  isfinite : durationMs.isfinite = true
  fits : (Printf.fixed 2 durationMs).length ≤ 33

instance : DecidablePred Printable := fun d =>
  decidable_of_iff (d.isfinite = true ∧ (Printf.fixed 2 d).length ≤ 33)
    ⟨fun h => ⟨h.1, h.2⟩, fun h => ⟨h.isfinite, h.fits⟩⟩

theorem numberText_fits {durationMs : Double} (h : Printable durationMs) :
    (numberText durationMs).length < numberSize := by
  have hname : (ascii ",\"duration_ms\":").length = 15 := rfl
  have hnext : (ascii ",\"environment\":").length = 15 := rfl
  have hfits := h.fits
  simp only [numberText, List.length_append, hname, hnext, numberSize]
  omega

theorem dataPairs_text {strict database : Bool} {system : Option Bytes} {data : Data}
    {alloc : Allocations} {text : Bytes} (h : text ∈ dataPairs strict database system data alloc) :
    ∃ m : Json.Member, m.Valid ∧ m.text = text := by
  obtain ⟨⟨⟨key, value⟩, i⟩, -, hvalue⟩ := List.mem_filterMap.mp h
  obtain ⟨written, -, rfl⟩ := Option.map_eq_some_iff.mp hvalue
  exact ⟨⟨(key.getD []).flatMap escapeByte, jsonString (written.getD [])⟩,
    ⟨chars_escaped _, jsonString_wellFormed _⟩, (pair_text _ _).symm⟩

theorem data_wellFormed (strict database : Bool) (system : Option Bytes) (data : Data)
    (alloc : Allocations) : Json.WellFormed
      (ascii "\x7b" ++ commaSeparated (dataPairs strict database system data alloc) ++
        ascii "\x7d") := by
  obtain ⟨ms, hms, heq⟩ := Json.exists_members fun _ => dataPairs_text
  rw [heq, commaSeparated_eq_joined]
  exact Json.object_wellFormed hms

theorem spanJson_wellFormed {span : Span} (h : Printable span.durationMs) (config : Configuration)
    (alloc : Allocations) : Json.WellFormed (spanJson config span alloc) := by
  have hid : Json.Opened (ascii "\x7b\"span_id\":" ++ jsonString span.id.text) :=
    Json.Opened.first (k := ascii "span_id") (Json.chars_of_plain (by decide))
      (jsonString_wellFormed span.id.text)
  have hparent := hid.append (ascii "parent_span_id") (ascii ",\"parent_span_id\":") rfl (by decide)
    (jsonStringOrNull_wellFormed (span.parent.map TraceParent.HexId.text))
  have hname := fun name => hparent.append (ascii "name") (ascii ",\"name\":") rfl (by decide)
    (jsonString_wellFormed name)
  have hkind := fun name => (hname name).append (ascii "kind") (ascii ",\"kind\":") rfl (by decide)
    (jsonString_wellFormed (normalizeKind span.kind))
  have hstarted := fun name => (hkind name).append (ascii "started_at")
    (ascii ",\"started_at\":") rfl
    (by decide) (jsonString_wellFormed (timestamp span.startedAtUnixMs))
  have hduration := fun name => (hstarted name).append (ascii "duration_ms")
    (ascii ",\"duration_ms\":")
    rfl (by decide) (Printf.fixed_wellFormed 2 h.isfinite)
  have henvironment := fun name => (hduration name).append (ascii "environment")
    (ascii ",\"environment\":") rfl (by decide) (jsonString_wellFormed (config.environment.getD []))
  have hrelease := fun name => (henvironment name).append (ascii "release")
    (ascii ",\"release\":") rfl
    (by decide) (jsonStringOrNull_wellFormed config.release)
  have hdata := fun name database system =>
    ((hrelease name).append (ascii "data") (ascii ",\"data\":") rfl (by decide)
      (data_wellFormed config.strictPrivacy database system span.data alloc)).close
  have hlabel : ascii ",\"data\":\x7b" = ascii ",\"data\":" ++ ascii "\x7b" := rfl
  have hend : ascii "\x7d\x7d" = ascii "\x7d" ++ [125] := rfl
  unfold spanJson
  rw [Printf.snprintf_of_fits (numberText_fits h), numberText, hlabel, hend]
  simpa only [List.append_assoc] using hdata _ _ _

theorem body_wellFormed {trace : Trace} {root : Span} (config : Configuration) (alloc : Allocations)
    (hroot : Printable root.durationMs) (hspans : ∀ f ∈ trace.spans, Json.WellFormed f.json) :
    Json.WellFormed (trace.body config root alloc) := by
  have hlist : ∀ v ∈ spanJson config root alloc :: trace.spans.map Finished.json,
      Json.WellFormed v := by
    rw [List.forall_mem_cons]
    refine ⟨spanJson_wellFormed hroot config alloc, ?_⟩
    intro v hv
    obtain ⟨f, hf, rfl⟩ := List.mem_map.mp hv
    exact hspans f hf
  have hid : Json.Opened (ascii "\x7b\"trace_id\":" ++ Json.quoted trace.traceId.text) :=
    Json.Opened.first (k := ascii "trace_id") (Json.chars_of_plain (by decide))
      (.string (Json.chars_of_plain trace.traceId.plain))
  have hbody := (hid.append (ascii "spans") (ascii ",\"spans\":") rfl (by decide)
    (Json.array_wellFormed hlist)).close
  have hstart : ascii "\x7b\"trace_id\":\"" = ascii "\x7b\"trace_id\":" ++ [34] := rfl
  have hmiddle : ascii "\",\"spans\":[" = 34 :: (ascii ",\"spans\":" ++ [91]) := rfl
  have hend : ascii "]\x7d" = [93, 125] := rfl
  rw [Trace.body, hstart, hmiddle, hend, commaSeparated_eq_joined]
  simpa [Json.quoted, Json.array] using hbody

/-- What a thread's trace holds, and what it has sent. -/
structure Encoded (s : State) : Prop where
  spans : ∀ trace ∈ s.trace, ∀ f ∈ trace.spans, Printable f.span.durationMs → Json.WellFormed f.json
  sent : ∀ body ∈ s.sent, Json.WellFormed body

/-- A trace that is sent has printable durations throughout. -/
def EndsPrintable (s : State) : Action → Prop
  | .traceEnd config _ _ durationMs _ _ =>
    ∀ trace ∈ s.trace, ∀ c ∈ config, trace.isSent c durationMs →
      Printable durationMs ∧ ∀ f ∈ trace.spans, Printable f.span.durationMs
  | _ => True

instance (s : State) : ∀ a, Decidable (EndsPrintable s a)
  | .traceEnd .. => inferInstanceAs (Decidable (∀ trace ∈ _, ∀ c ∈ _, _ → _))
  | .traceBegin .. => inferInstanceAs (Decidable True)
  | .start .. => inferInstanceAs (Decidable True)
  | .stop .. => inferInstanceAs (Decidable True)
  | .record .. => inferInstanceAs (Decidable True)

theorem initial_encoded : Encoded initial := ⟨by simp [initial], by simp [initial]⟩

theorem record_encoded (trace : Trace)
    (h : ∀ f ∈ trace.spans, Printable f.span.durationMs → Json.WellFormed f.json)
    (config : Configuration) (span : Span) (alloc : Allocations) :
    ∀ f ∈ (trace.record config span alloc).spans,
      Printable f.span.durationMs → Json.WellFormed f.json := by
  unfold Trace.record
  split
  · exact h
  · intro f hf
    rcases List.mem_append.mp hf with hf | hf
    · exact h f hf
    · obtain rfl := List.mem_singleton.mp hf
      exact fun hprintable => spanJson_wellFormed hprintable config alloc

theorem step_encoded {s t : State} {a : Action} (hs : Encoded s) (ha : EndsPrintable s a)
    (ht : step s a = some t) : Encoded t := by
  cases a with
  | traceBegin config traceparent randomTraceId rootSpanId allocated =>
    obtain rfl := Option.some.inj ht
    unfold traceBegin
    split
    · split
      · refine ⟨?_, hs.sent⟩
        intro trace htrace
        obtain rfl := Option.some.inj htrace
        simp
      · exact hs
    · exact hs
  | traceEnd config rootName startedAtUnixMs durationMs allocated alloc =>
    obtain rfl := Option.some.inj ht
    unfold traceEnd
    split
    · rename_i trace config htrace
      refine ⟨by simp, ?_⟩
      dsimp only
      split
      · rename_i hsent
        obtain ⟨hroot, hspans⟩ := ha trace htrace config rfl hsent.1
        intro body hbody
        rcases List.mem_append.mp hbody with hbody | hbody
        · exact hs.sent body hbody
        · obtain rfl := List.mem_singleton.mp hbody
          exact body_wellFormed config alloc hroot fun f hf =>
            hs.spans trace htrace f hf (hspans f hf)
      · exact hs.sent
    · exact ⟨by simp, hs.sent⟩
  | start id startedAtUnixMs =>
    obtain rfl := Option.some.inj ht
    unfold start
    split
    · exact ⟨hs.spans, hs.sent⟩
    · rename_i trace htrace
      refine ⟨?_, hs.sent⟩
      intro trace' htrace'
      obtain rfl := Option.some.inj htrace'
      exact hs.spans trace htrace
  | stop config i name kind durationMs data alloc =>
    obtain rfl := Option.some.inj ht
    unfold stop
    split
    · exact hs
    · dsimp only
      split
      · rename_i trace config htrace
        refine ⟨?_, hs.sent⟩
        intro trace' htrace'
        obtain rfl := Option.some.inj htrace'
        refine record_encoded _ ?_ config _ alloc
        exact hs.spans trace htrace
      · exact ⟨hs.spans, hs.sent⟩
  | record config id name kind startedAtUnixMs durationMs data alloc =>
    obtain rfl := Option.some.inj ht
    unfold record
    split
    · rename_i trace config htrace
      refine ⟨?_, hs.sent⟩
      intro trace' htrace'
      obtain rfl := Option.some.inj htrace'
      exact record_encoded trace (hs.spans trace htrace) config _ alloc
    · exact hs

end Spans

/-! ## Metrics -/

namespace Metrics

/-- Every entry the buffer holds or held is JSON. -/
def Encoded (s : State) : Prop := ∀ e ∈ s.buffer.entries, Json.WellFormed e.json

theorem initial_encoded : Encoded initial := by simp [Encoded, initial]

theorem record_encoded {s : State} (hs : Encoded s) (config : Configuration) (value : Double)
    {fields : Bytes} (now : Nat) (hfields : Json.WellFormed (entryText fields now)) :
    Encoded (record s (some config) value (some fields) now true).1 := by
  unfold record
  dsimp only
  split
  · exact hs
  split
  · exact hs
  · intro e he
    rcases List.mem_append.mp he with he | he
    · exact hs e (List.mem_of_mem_take he)
    rcases List.mem_cons.mp he with rfl | he
    · exact hfields
    · exact hs e (List.mem_of_mem_drop he)

theorem flushSnapshot_encoded {s : State} (hs : Encoded s) : Encoded (flushSnapshot s true) := by
  unfold flushSnapshot
  split
  · exact hs
  · exact hs

theorem flushRemoval_encoded {s : State} (hs : Encoded s) (f : Flush) (status : Int) :
    Encoded (flushRemoval s f status) := by
  unfold flushRemoval
  split
  · intro e he
    rcases List.mem_append.mp he with he | he
    · exact hs e (List.mem_of_mem_drop (List.mem_of_mem_take he))
    · exact hs e (List.mem_of_mem_drop he)
  · exact hs

theorem bodyText_wellFormed {batch : List Entry} (h : ∀ e ∈ batch, Json.WellFormed e.json) :
    Json.WellFormed (bodyText batch) := by
  apply listBody_wellFormed (ascii "metrics") _ rfl (by decide)
  intro v hv
  obtain ⟨e, he, rfl⟩ := List.mem_map.mp hv
  exact h e he

end Metrics

/-! ## Every body -/

namespace Tracker

theorem metricFields_opened (name : Bytes) {value : Double} (hvalue : value.isfinite = true) :
    Json.Opened (ascii "\x7b\"metric_name\":" ++ jsonString name ++ ascii ",\"value\":" ++
      Printf.snprintf metricNumberSize (Printf.general value)) := by
  have hname : Json.Opened (ascii "\x7b\"metric_name\":" ++ jsonString name) :=
    Json.Opened.first (k := ascii "metric_name") (Json.chars_of_plain (by decide))
      (jsonString_wellFormed name)
  exact hname.append (ascii "value") (ascii ",\"value\":") rfl (by decide)
    (Printf.general_wellFormed hvalue)

theorem metricEntry_wellFormed (config : Configuration) (name : Bytes) {value : Double}
    (hvalue : value.isfinite = true) (now : Nat) :
    Json.WellFormed (Metrics.entryText (metricFields config name value) now) := by
  have henvironment := (metricFields_opened name hvalue).append (ascii "environment")
    (ascii ",\"environment\":") rfl (by decide) (jsonString_wellFormed (config.environment.getD []))
  have hrelease := henvironment.append (ascii "release") (ascii ",\"release\":") rfl (by decide)
    (jsonStringOrNull_wellFormed config.release)
  have hstamp := (hrelease.append (ascii "recorded_at") (ascii ",\"recorded_at\":") rfl (by decide)
    (jsonString_wellFormed (Calendar.timestamp now))).close
  have hstart : ascii "\x7b\"metric_name\":" = ascii "\x7b" ++ ascii "\"metric_name\":" := rfl
  have hend : ascii "\x7d" = [125] := rfl
  rw [Metrics.entryText, metricFields, hend]
  simpa only [hstart, List.append_assoc] using hstamp

theorem infrastructureMetricEntry_wellFormed (config : Configuration) (name : Bytes)
    {value : Double} (hvalue : value.isfinite = true) (hostname : Option Bytes) (now : Nat) :
    Json.WellFormed
      (Metrics.entryText (infrastructureMetricFields config name value hostname) now) := by
  have hhostname := (metricFields_opened name hvalue).append (ascii "hostname")
    (ascii ",\"hostname\":") rfl (by decide)
    (jsonString_wellFormed ((hostname.or config.serverName).getD []))
  have hstamp := (hhostname.append (ascii "recorded_at") (ascii ",\"recorded_at\":") rfl (by decide)
    (jsonString_wellFormed (Calendar.timestamp now))).close
  have hstart : ascii "\x7b\"metric_name\":" = ascii "\x7b" ++ ascii "\"metric_name\":" := rfl
  have hend : ascii "\x7d" = [125] := rfl
  rw [Metrics.entryText, infrastructureMetricFields, hend]
  simpa only [hstart, List.append_assoc] using hstamp

theorem capturedFields_some {config : Configuration} {name : Option Bytes} {value : Double}
    {fields : Bytes → Bytes} {text : Bytes}
    (h : capturedFields config name value fields = some text) :
    value.isfinite = true ∧ ∃ name, text = fields name := by
  unfold capturedFields at h
  split at h
  · exact absurd h (by simp)
  · rename_i name
    split at h
    · exact absurd h (by simp)
    · rename_i hcaptured
      exact ⟨not_not.mp (not_or.mp hcaptured).2, name, (Option.some.inj h).symm⟩

theorem captureMetric_encoded {s : Metrics.State} (hs : Metrics.Encoded s) (config : Configuration)
    (name : Option Bytes) (value : Double) (now : Nat) :
    Metrics.Encoded (captureMetric s config name value now) := by
  unfold captureMetric
  split
  · exact hs
  · rename_i fields hfields
    obtain ⟨hvalue, name, rfl⟩ := capturedFields_some hfields
    exact Metrics.record_encoded hs config value now (metricEntry_wellFormed config name hvalue now)

theorem captureInfrastructureMetric_encoded {s : Metrics.State} (hs : Metrics.Encoded s)
    (config : Configuration) (name : Option Bytes) (value : Double)
    (hostname : Option Bytes) (now : Nat) :
    Metrics.Encoded (captureInfrastructureMetric s config name value hostname now) := by
  unfold captureInfrastructureMetric
  split
  · exact hs
  · rename_i fields hfields
    obtain ⟨hvalue, name, rfl⟩ := capturedFields_some hfields
    exact Metrics.record_encoded hs config value now
      (infrastructureMetricEntry_wellFormed config name hvalue hostname now)

/-- Everything that may still become part of a body, and every body so far. -/
structure Encoded (s : State) : Prop where
  buffers : ∀ kind, Metrics.Encoded (s.buffer kind)
  threads : ∀ thread, Spans.Encoded (s.threads thread)
  bodies : ∀ body ∈ s.bodies, Json.WellFormed body

/-- A performance flush finds only buckets whose numbers can be printed, and a trace that is
sent has only durations that can be. -/
def FlushesPrintable (s : State) : Call → Prop
  | .flushPerformance _ _ => ∀ b ∈ s.performance.buckets, Performance.Printable b
  | .spans thread action => Spans.EndsPrintable (s.threads thread) action
  | _ => True

instance (s : State) : ∀ call, Decidable (FlushesPrintable s call)
  | .flushPerformance .. => inferInstanceAs (Decidable (∀ b ∈ _, _))
  | .spans .. => inferInstanceAs (Decidable (Spans.EndsPrintable _ _))
  | .recordPerformance .. => inferInstanceAs (Decidable True)
  | .performanceDelivered .. => inferInstanceAs (Decidable True)
  | .captureMetric .. => inferInstanceAs (Decidable True)
  | .captureInfrastructureMetric .. => inferInstanceAs (Decidable True)
  | .flushMetrics .. => inferInstanceAs (Decidable True)
  | .metricsDelivered .. => inferInstanceAs (Decidable True)

theorem initial_encoded : Encoded initial where
  buffers kind := by cases kind <;> exact Metrics.initial_encoded
  threads _ := Spans.initial_encoded
  bodies := by simp [initial]

theorem setBuffer_encoded {s : State} (hs : Encoded s) (kind : MetricKind) {m : Metrics.State}
    (hm : Metrics.Encoded m) : Encoded (s.setBuffer kind m) := by
  have hcustom := hs.buffers .custom
  have hinfrastructure := hs.buffers .infrastructure
  cases kind with
  | custom => exact ⟨fun kind => by cases kind <;> assumption, hs.threads, hs.bodies⟩
  | infrastructure => exact ⟨fun kind => by cases kind <;> assumption, hs.threads, hs.bodies⟩

theorem addBody_encoded {s : State} (hs : Encoded s) {body : Bytes} (h : Json.WellFormed body) :
    Encoded { s with bodies := s.bodies ++ [body] } := by
  refine ⟨hs.buffers, hs.threads, ?_⟩
  intro b hb
  rcases List.mem_append.mp hb with hb | hb
  · exact hs.bodies b hb
  · obtain rfl := List.mem_singleton.mp hb
    exact h

theorem step_encoded (s : State) (call : Call) (t : State) (hs : Encoded s)
    (hcall : FlushesPrintable s call) (ht : step s call = some t) : Encoded t := by
  cases call with
  | recordPerformance config name durationMs now =>
    obtain rfl := Option.some.inj ht
    exact ⟨hs.buffers, hs.threads, hs.bodies⟩
  | flushPerformance config now =>
    obtain rfl := Option.some.inj ht
    unfold flushPerformance
    dsimp only
    split
    · exact ⟨hs.buffers, hs.threads, hs.bodies⟩
    · have hbody := Performance.samplesJson_wellFormed config hcall
        s.performance.periodStartedAt now
      have hadded := addBody_encoded hs hbody
      exact ⟨hadded.buffers, hadded.threads, hadded.bodies⟩
  | performanceDelivered i status =>
    obtain ⟨p, -, rfl⟩ := Option.map_eq_some_iff.mp ht
    exact ⟨hs.buffers, hs.threads, hs.bodies⟩
  | captureMetric config name value now =>
    obtain rfl := Option.some.inj ht
    exact setBuffer_encoded hs .custom
      (captureMetric_encoded (hs.buffers .custom) config name value now)
  | captureInfrastructureMetric config name value hostname now =>
    obtain rfl := Option.some.inj ht
    exact setBuffer_encoded hs .infrastructure
      (captureInfrastructureMetric_encoded (hs.buffers .infrastructure) config name
        value hostname now)
  | flushMetrics kind =>
    obtain rfl := Option.some.inj ht
    have hset := setBuffer_encoded hs kind (Metrics.flushSnapshot_encoded (hs.buffers kind))
    have hbody : Json.WellFormed (Metrics.bodyText (s.buffer kind).buffer.live) :=
      Metrics.bodyText_wellFormed fun e he => hs.buffers kind e (List.mem_of_mem_take he)
    unfold flushMetrics
    dsimp only
    split
    · exact ⟨hset.buffers, hset.threads, hs.bodies⟩
    · exact ⟨hset.buffers, hset.threads, (addBody_encoded hs hbody).bodies⟩
  | metricsDelivered kind i status =>
    obtain ⟨m, hm, rfl⟩ := Option.map_eq_some_iff.mp ht
    obtain ⟨f, -, rfl⟩ := Option.map_eq_some_iff.mp hm
    have hbuffer : Metrics.Encoded
        { s.buffer kind with flushes := (s.buffer kind).flushes.eraseIdx i } := hs.buffers kind
    exact setBuffer_encoded hs kind (Metrics.flushRemoval_encoded hbuffer f status)
  | spans thread action =>
    obtain ⟨u, hu, rfl⟩ := Option.map_eq_some_iff.mp ht
    refine ⟨hs.buffers, ?_, hs.bodies⟩
    intro other
    by_cases heq : other = thread
    · subst heq
      simpa using Spans.step_encoded (hs.threads other) hcall hu
    · simpa [heq] using hs.threads other

/-- As long as no flush meets a number it cannot print, every body is JSON. -/
theorem bodies_wellFormed (calls : List Call)
    (h : Runs.EveryStep step FlushesPrintable initial calls) :
    Runs.Always step (fun s => ∀ body, HandedOver s body → Json.WellFormed body) initial calls := by
  refine (Runs.always_of_steps step_encoded initial calls initial_encoded h).imp ?_
  rintro s hs body (hbody | ⟨thread, hbody⟩)
  · exact hs.bodies body hbody
  · exact (hs.threads thread).sent body hbody

/-- A configuration that sends. -/
def sending : Configuration := { dsn := some (ascii "https://k@h") }

theorem bodies_wellFormed_flush :
    let run := [.recordPerformance (some sending) (some (ascii "GET /")) (.finite 12) 0,
      .captureMetric sending (some (ascii "signups")) (.finite (1 / 10)) 1,
      .flushPerformance sending 60, .flushMetrics .custom]
    Runs.Always step (fun s => ∀ body, HandedOver s body → Json.WellFormed body) initial run :=
  bodies_wellFormed _ (by decide +kernel)

def recordedLong : State :=
  { initial with
    performance := Performance.record initial.performance (some sending) (some (ascii "GET /"))
      (.finite (2 ^ 400)) 0 {} }

/-- A duration that has more digits than the buffer has room for. -/
theorem long_duration_cuts_body : ¬ ∀ calls : List Call,
    Runs.Always step (fun s => ∀ body, HandedOver s body → Json.WellFormed body) initial calls := by
  intro h
  have hrun := h [.recordPerformance (some sending) (some (ascii "GET /")) (.finite (2 ^ 400)) 0,
    .flushPerformance sending 60]
  have hend : ∀ body, HandedOver (flushPerformance recordedLong sending 60) body →
      Json.WellFormed body := (hrun.2 recordedLong rfl).2 _ rfl
  have hopen : ¬ ∀ body ∈ (flushPerformance recordedLong sending 60).bodies,
      Json.scanned ⟨0, .code⟩ body = ⟨0, .code⟩ := by
    decide +kernel
  exact hopen fun body hbody => (hend body (.inl hbody)).scanned

end Tracker

end ForgeOps
