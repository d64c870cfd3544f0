import ForgeOpsTracker.Lib.Unwinding
import ForgeOpsTracker.Sdk
import ForgeOpsTracker.SpanPrivacy

/-! Strict privacy over whole runs. Two runs whose calls differ in what strict privacy keeps back,
and in breadcrumbs altogether, send the same: no body, trace or payload of one tells it from the
other, in whatever order the threads make their calls. -/

namespace ForgeOps.EventBuilder

/-- What strict privacy lets out of an error. -/
structure Released where
  exceptionClass : Option Bytes
  fingerprint : Bytes
  context : List (Option Bytes × Option Bytes)
  userId : Option Bytes
  sqlObjects : Option Bytes

def released (config : Configuration) (event : Event) : Released where
  exceptionClass := event.exceptionClass
  fingerprint := fingerprintOf config event.message
  context := event.context.filter (keepsPair config)
  userId := StrictPrivacy.userId event.user
  sqlObjects := SqlStatement.objectsJson (SqlStatement.mask event.sql)

/-- The payload, from what is let out alone. -/
def Released.payload (r : Released) (config : Configuration) (s : Surroundings) : Bytes :=
  ascii "\x7b\"exception_class\":" ++ JsonText.jsonStringOrNull r.exceptionClass ++
    ascii ",\"message\":" ++ (ascii "\"\",\"message_fingerprint\":" ++
      JsonText.jsonString r.fingerprint) ++
    ascii ",\"backtrace\":" ++ backtraceJson config s.symbols ++
    ascii ",\"occurred_at\":" ++ JsonText.jsonString (Calendar.timestamp s.now) ++
    ascii ",\"environment\":" ++ JsonText.jsonStringOrNull config.environment ++
    ascii ",\"release\":" ++ JsonText.jsonStringOrNull config.release ++
    ascii ",\"server_name\":" ++ JsonText.jsonStringOrNull config.serverName ++
    contextField config r.context ++
    ((r.userId.map fun id => ascii ",\"user\":\x7b\"id\":" ++ JsonText.jsonString id ++
      ascii "\x7d").getD []) ++
    (if config.captureSqlObjects then (r.sqlObjects.map (ascii ",\"sql_objects\":" ++ ·)).getD []
      else []) ++
    traceField s.traceId ++ ascii "\x7d"

theorem payload_released {config : Configuration} (hstrict : config.strictPrivacy = true)
    (event : Event) (s : Surroundings) :
    buildEventJsonWithSql config event s = (released config event).payload config s := by
  have hcontext : contextField config event.context =
      contextField config (released config event).context :=
    contextField_congr hstrict (by rw [released, List.filter_filter]; simp)
  have huser : userField config event.user =
      ((StrictPrivacy.userId event.user).map fun id =>
        ascii ",\"user\":\x7b\"id\":" ++ JsonText.jsonString id ++ ascii "\x7d").getD [] := by
    rw [userField, if_pos hstrict]
    cases StrictPrivacy.userId event.user <;> rfl
  unfold buildEventJsonWithSql Released.payload
  rw [messageField, if_pos hstrict, hcontext, huser, breadcrumbsField_nil hstrict, List.append_nil,
    sqlField_eq hstrict]
  rfl

end ForgeOps.EventBuilder

namespace ForgeOps.Spans
open StrictPrivacy JsonText TraceParent

/-- What strict privacy lets out of what a span is called and holds. -/
structure Released where
  name : Option Bytes
  kind : Bytes
  data : List (Bytes × Bytes)
  deriving DecidableEq

def released (name kind : Option Bytes) (data : Data) : Released :=
  ⟨name.map spanName, normalizeKind kind, releasedData data⟩

/-- A span, from what is let out alone. -/
def Released.json (r : Released) (config : Configuration) (id : HexId 16)
    (parent : Option (HexId 16)) (startedAtUnixMs : Int) (durationMs : Double) : Bytes :=
  ascii "\x7b\"span_id\":" ++ jsonString id.text ++
    ascii ",\"parent_span_id\":" ++ jsonStringOrNull (parent.map HexId.text) ++
    ascii ",\"name\":" ++ jsonString (r.name.getD []) ++
    ascii ",\"kind\":" ++ jsonString r.kind ++
    ascii ",\"started_at\":" ++ jsonString (timestamp startedAtUnixMs) ++
    Printf.snprintf numberSize (numberText durationMs) ++
    jsonString (config.environment.getD []) ++
    ascii ",\"release\":" ++ jsonStringOrNull config.release ++
    ascii ",\"data\":\x7b" ++
    commaSeparated (r.data.map fun pair => jsonString pair.1 ++ ascii ":" ++ jsonString pair.2) ++
    ascii "\x7d\x7d"

theorem spanJson_eq {config : Configuration} (hstrict : config.strictPrivacy = true) (span : Span) :
    spanJson config span {} =
      (released span.name span.kind span.data).json config span.id span.parent
        span.startedAtUnixMs span.durationMs := by
  have hname : ((span.name.map spanName).or span.name).getD [] =
      (span.name.map spanName).getD [] := by
    cases span.name <;> rfl
  simp only [spanJson, Released.json, released, hstrict, and_self, if_true, Bool.true_or,
    hname, dbSystem_eq, dataPairs_strict]

/-! ## Two threads that strict privacy does not tell apart -/

/-- The traces differ only in what their finished spans were recorded with. -/
structure Trace.Alike (a b : Trace) : Prop where
  traceId : a.traceId = b.traceId
  rootSpanId : a.rootSpanId = b.rootSpanId
  remoteParentSpanId : a.remoteParentSpanId = b.remoteParentSpanId
  send : a.send = b.send
  json : a.spans.map Finished.json = b.spans.map Finished.json
  openIds : a.openIds = b.openIds

structure State.Alike (s t : State) : Prop where
  trace : Option.Rel Trace.Alike s.trace t.trace
  handles : s.handles = t.handles
  sent : s.sent = t.sent

/-- The same call, but for what strict privacy keeps back of a span. -/
inductive Action.Alike : Action → Action → Prop
  | same (action : Action) : Action.Alike action action
  | traceEnd {config : Configuration} (hstrict : config.strictPrivacy = true)
      {rootName rootName' : Option Bytes}
      (hname : spanName (rootName.getD (ascii "trace")) = spanName (rootName'.getD (ascii "trace")))
      (startedAtUnixMs : Int) (durationMs : Double) (allocated : Bool) :
      Action.Alike (.traceEnd (some config) rootName startedAtUnixMs durationMs allocated {})
        (.traceEnd (some config) rootName' startedAtUnixMs durationMs allocated {})
  | stop {config : Configuration} (hstrict : config.strictPrivacy = true)
      {name name' kind kind' : Option Bytes} {data data' : Data}
      (h : released name kind data = released name' kind' data') (i : Nat) (durationMs : Double) :
      Action.Alike (.stop (some config) i name kind durationMs data {})
        (.stop (some config) i name' kind' durationMs data' {})
  | record {config : Configuration} (hstrict : config.strictPrivacy = true)
      {name name' kind kind' : Option Bytes} {data data' : Data}
      (h : released name kind data = released name' kind' data') (id : HexId 16)
      (startedAtUnixMs : Int) (durationMs : Double) :
      Action.Alike (.record (some config) id name kind startedAtUnixMs durationMs data {})
        (.record (some config) id name' kind' startedAtUnixMs durationMs data' {})

theorem Trace.Alike.refl (trace : Trace) : trace.Alike trace := ⟨rfl, rfl, rfl, rfl, rfl, rfl⟩

theorem Trace.Alike.currentParent {a b : Trace} (h : a.Alike b) :
    a.currentParent = b.currentParent := by
  rw [Trace.currentParent, Trace.currentParent, h.openIds, h.rootSpanId]

theorem Trace.Alike.record {a b : Trace} (h : a.Alike b)
    {config config' : Configuration} {x y : Span} {alloc alloc' : Allocations}
    (hjson : spanJson config x alloc = spanJson config' y alloc') :
    (a.record config x alloc).Alike (b.record config' y alloc') := by
  have hlength : a.spans.length = b.spans.length := by
    simpa only [List.length_map] using congrArg List.length h.json
  unfold Trace.record
  rw [hlength]
  split
  · exact h
  · exact ⟨h.traceId, h.rootSpanId, h.remoteParentSpanId, h.send,
      by rw [List.map_append, List.map_append, h.json, List.map_singleton, List.map_singleton,
        hjson], h.openIds⟩

theorem Trace.Alike.close {a b : Trace} (h : a.Alike b) (id : HexId 16) :
    Trace.Alike { a with openIds := closeId id a.openIds }
      { b with openIds := closeId id b.openIds } :=
  ⟨h.traceId, h.rootSpanId, h.remoteParentSpanId, h.send, h.json, by rw [h.openIds]⟩

theorem Trace.Alike.root {a b : Trace} (h : a.Alike b) (rootName : Option Bytes)
    (startedAtUnixMs : Int) (durationMs : Double) :
    a.root rootName startedAtUnixMs durationMs = b.root rootName startedAtUnixMs durationMs := by
  rw [Trace.root, Trace.root, h.rootSpanId, h.remoteParentSpanId]

theorem Trace.Alike.body {a b : Trace} (h : a.Alike b) {config : Configuration} {x y : Span}
    {alloc : Allocations} (hjson : spanJson config x alloc = spanJson config y alloc) :
    a.body config x alloc = b.body config y alloc := by
  rw [Trace.body, Trace.body, h.traceId, h.json, hjson]

theorem Trace.Alike.isSent {a b : Trace} (h : a.Alike b) (config : Configuration)
    (durationMs : Double) : a.isSent config durationMs = b.isSent config durationMs := by
  rw [Trace.isSent, Trace.isSent, h.send]

/-- A root is told from another by what is let out of its name alone. -/
theorem spanJson_root {config : Configuration} (hstrict : config.strictPrivacy = true)
    {rootName rootName' : Option Bytes}
    (hname : spanName (rootName.getD (ascii "trace")) = spanName (rootName'.getD (ascii "trace")))
    (trace : Trace) (startedAtUnixMs : Int) (durationMs : Double) :
    spanJson config (trace.root rootName startedAtUnixMs durationMs) {} =
      spanJson config (trace.root rootName' startedAtUnixMs durationMs) {} := by
  rw [spanJson_eq hstrict, spanJson_eq hstrict]
  simp only [Trace.root, released, Option.map_some, hname]

namespace State.Alike
variable {s t : State}

theorem refl (s : State) : s.Alike s := by
  refine ⟨?_, rfl, rfl⟩
  cases s.trace with
  | none => exact .none
  | some trace => exact .some (Trace.Alike.refl trace)

/-- Either neither thread has an open trace, or both have, and they are alike. -/
theorem open_cases (h : s.Alike t) : s.trace = none ∧ t.trace = none ∨
    ∃ a b : Trace, s.trace = some a ∧ t.trace = some b ∧ a.Alike b := by
  obtain ⟨htrace, -, -⟩ := h
  revert htrace
  generalize s.trace = x
  generalize t.trace = y
  rintro (hab | _)
  · exact .inr ⟨_, _, rfl, rfl, hab⟩
  · exact .inl ⟨rfl, rfl⟩

theorem traceBegin (h : s.Alike t) (config : Option Configuration) (traceparent : Option Bytes)
    (randomTraceId : HexId 32) (rootSpanId : HexId 16) (allocated : Bool) :
    (traceBegin s config traceparent randomTraceId rootSpanId allocated).Alike
      (Spans.traceBegin t config traceparent randomTraceId rootSpanId allocated) := by
  unfold Spans.traceBegin
  obtain ⟨hs, ht⟩ | ⟨a, b, hs, ht, -⟩ := h.open_cases
  · rw [hs, ht]
    cases config with
    | none => exact h
    | some config =>
      dsimp only
      split
      · exact ⟨.some (Trace.Alike.refl _), h.handles, h.sent⟩
      · exact h
  · rw [hs, ht]
    cases config with
    | none => exact h
    | some config => exact h

theorem traceEnd (h : s.Alike t) {config : Option Configuration} {rootName rootName' : Option Bytes}
    {startedAtUnixMs : Int} {durationMs : Double} {allocated : Bool} {alloc : Allocations}
    (hroot : ∀ c, config = some c → ∀ trace : Trace,
      spanJson c (trace.root rootName startedAtUnixMs durationMs) alloc =
        spanJson c (trace.root rootName' startedAtUnixMs durationMs) alloc) :
    (traceEnd s config rootName startedAtUnixMs durationMs allocated alloc).Alike
      (Spans.traceEnd t config rootName' startedAtUnixMs durationMs allocated alloc) := by
  unfold Spans.traceEnd
  obtain ⟨hs, ht⟩ | ⟨a, b, hs, ht, hab⟩ := h.open_cases
  · rw [hs, ht]
    exact ⟨.none, h.handles, h.sent⟩
  · rw [hs, ht]
    cases config with
    | none => exact ⟨.none, h.handles, h.sent⟩
    | some config =>
      have hbody : a.body config (a.root rootName startedAtUnixMs durationMs) alloc =
          b.body config (b.root rootName' startedAtUnixMs durationMs) alloc := by
        rw [← hab.root rootName']
        exact hab.body (hroot config rfl a)
      refine ⟨.none, h.handles, ?_⟩
      show (if _ then _ else _) = if _ then _ else _
      rw [hab.isSent, h.sent, hbody]

theorem start (h : s.Alike t) (id : HexId 16) (startedAtUnixMs : Int) :
    (start s id startedAtUnixMs).Alike (Spans.start t id startedAtUnixMs) := by
  unfold Spans.start
  obtain ⟨hs, ht⟩ | ⟨a, b, hs, ht, hab⟩ := h.open_cases
  · rw [hs, ht]
    exact ⟨.none, by rw [h.handles], h.sent⟩
  · rw [hs, ht]
    refine ⟨.some ?_, ?_, h.sent⟩
    · exact ⟨hab.traceId, hab.rootSpanId, hab.remoteParentSpanId, hab.send, hab.json, by
        rw [hab.openIds]⟩
    · show _ ++ [some _] = _ ++ [some _]
      rw [h.handles, hab.currentParent]

theorem stop (h : s.Alike t) {config : Option Configuration} {name name' kind kind' : Option Bytes}
    {data data' : Data} {durationMs : Double} {alloc : Allocations}
    (hjson : ∀ c, config = some c → ∀ id parent startedAtUnixMs,
      spanJson c ⟨id, parent, name, kind, startedAtUnixMs, durationMs, data⟩ alloc =
        spanJson c ⟨id, parent, name', kind', startedAtUnixMs, durationMs, data'⟩ alloc)
    (i : Nat) :
    (stop s config i name kind durationMs data alloc).Alike
      (Spans.stop t config i name' kind' durationMs data' alloc) := by
  unfold Spans.stop
  rw [h.handles]
  cases t.handles[i]?.join with
  | none => exact h
  | some state =>
    obtain ⟨hs, ht⟩ | ⟨a, b, hs, ht, hab⟩ := h.open_cases
    · simp only [hs, ht]
      exact ⟨.none, rfl, h.sent⟩
    · simp only [hs, ht]
      cases config with
      | none => exact ⟨.some hab, rfl, h.sent⟩
      | some config =>
        exact ⟨.some ((hab.close state.id).record (hjson config rfl state.id _ _)), rfl, h.sent⟩

theorem record (h : s.Alike t) {config : Option Configuration}
    {name name' kind kind' : Option Bytes} {data data' : Data} {startedAtUnixMs : Int}
    {durationMs : Double} {alloc : Allocations}
    (hjson : ∀ c, config = some c → ∀ id parent,
      spanJson c ⟨id, parent, name, kind, startedAtUnixMs, durationMs, data⟩ alloc =
        spanJson c ⟨id, parent, name', kind', startedAtUnixMs, durationMs, data'⟩ alloc)
    (id : HexId 16) :
    (record s config id name kind startedAtUnixMs durationMs data alloc).Alike
      (Spans.record t config id name' kind' startedAtUnixMs durationMs data' alloc) := by
  unfold Spans.record
  obtain ⟨hs, ht⟩ | ⟨a, b, hs, ht, hab⟩ := h.open_cases
  · rw [hs, ht]
    exact h
  · rw [hs, ht]
    cases config with
    | none => exact h
    | some config =>
      refine ⟨.some (hab.record ?_), h.handles, h.sent⟩
      rw [hab.currentParent]
      exact hjson config rfl id _

/-- Alike calls lead from alike threads to alike threads. -/
theorem step (h : s.Alike t) {a b : Action} (hab : a.Alike b) :
    Option.Rel State.Alike (step s a) (Spans.step t b) := by
  cases hab with
  | same =>
    cases a with
    | traceBegin => exact .some (h.traceBegin ..)
    | traceEnd => exact .some (h.traceEnd fun _ _ _ => rfl)
    | start => exact .some (h.start ..)
    | stop => exact .some (h.stop (fun _ _ _ _ _ => rfl) _)
    | record => exact .some (h.record (fun _ _ _ _ => rfl) _)
  | traceEnd hstrict hname =>
    refine .some (h.traceEnd ?_)
    rintro c ⟨⟩ trace
    exact spanJson_root hstrict hname trace _ _
  | stop hstrict hreleased i =>
    refine .some (h.stop ?_ i)
    rintro c ⟨⟩ id parent startedAtUnixMs
    rw [spanJson_eq hstrict, spanJson_eq hstrict, hreleased]
  | record hstrict hreleased id =>
    refine .some (h.record ?_ id)
    rintro c ⟨⟩ id parent
    rw [spanJson_eq hstrict, spanJson_eq hstrict, hreleased]

end State.Alike

end ForgeOps.Spans

namespace ForgeOps.Sdk

/-! ## Two runs of the calls -/

/-- The states differ only in breadcrumbs, in what strict privacy keeps back of the users, and in
what finished spans were recorded with. -/
structure State.Alike (s t : State) : Prop where
  performance : s.tracker.performance = t.tracker.performance
  metrics : s.tracker.metrics = t.tracker.metrics
  infrastructure : s.tracker.infrastructure = t.tracker.infrastructure
  bodies : s.tracker.bodies = t.tracker.bodies
  threads : ∀ thread, (s.tracker.threads thread).Alike (t.tracker.threads thread)
  users : ∀ thread, StrictPrivacy.userId (s.users thread) = StrictPrivacy.userId (t.users thread)
  changes : s.changes = t.changes
  written : s.written = t.written

/-- The error as the call reports it, without what the thread adds. -/
def Capture.event (capture : Capture) : EventBuilder.Event where
  exceptionClass := capture.exceptionClass
  message := capture.message
  context := capture.context
  user := capture.user
  sql := capture.sql

/-- The same call, but for what strict privacy keeps back of its arguments. -/
inductive Call.Alike : Call → Call → Prop
  | tracker (call : Tracker.Call) : Call.Alike (.tracker call) (.tracker call)
  | recordPerformance {config : Configuration} (hstrict : config.strictPrivacy = true)
      {name name' : Bytes} (hname : StrictPrivacy.transactionName name =
        StrictPrivacy.transactionName name') (durationMs : Double) (now : Nat) :
      Call.Alike (.tracker (.recordPerformance (some config) (some name) durationMs now))
        (.tracker (.recordPerformance (some config) (some name') durationMs now))
  | spans (thread : Nat) {a b : Spans.Action} (h : a.Alike b) :
      Call.Alike (.tracker (.spans thread a)) (.tracker (.spans thread b))
  | setUser (thread : Nat) {pairs pairs' : List (Bytes × Bytes)}
      (h : StrictPrivacy.userId (pairs.map fun pair => (some pair.1, some pair.2)) =
        StrictPrivacy.userId (pairs'.map fun pair => (some pair.1, some pair.2))) :
      Call.Alike (.setUser thread pairs) (.setUser thread pairs')
  | captureError {config : Configuration} (hstrict : config.strictPrivacy = true) (thread : Nat)
      {a b : Capture} (h : EventBuilder.released config a.event =
        EventBuilder.released config b.event)
      (hgiven : a.user = [] ↔ b.user = []) (symbols : Option (List Bytes)) (now : Nat) :
      Call.Alike (.captureError thread config a symbols now)
        (.captureError thread config b symbols now)
  | recordChange (config : Configuration) (change : Change) (now : Int) :
      Call.Alike (.recordChange config change now) (.recordChange config change now)

/-- A call that strict privacy keeps back as a whole. -/
inductive Call.Quiet : Call → Prop
  | breadcrumb (thread : Nat) (event : Breadcrumbs.Event) : Call.Quiet (.breadcrumb thread event)

theorem State.Alike.refl (s : State) : s.Alike s :=
  ⟨rfl, rfl, rfl, rfl, fun _ => Spans.State.Alike.refl _, fun _ => rfl, rfl, rfl⟩

/-- Alike states have sent the same. -/
theorem State.Alike.sent {s t : State} (h : s.Alike t) : s.sent = t.sent := by
  have htraces : (fun thread => (s.tracker.threads thread).sent) = fun thread =>
      (t.tracker.threads thread).sent :=
    funext fun thread => (h.threads thread).sent
  rw [State.sent, State.sent, h.bodies, htraces, h.changes, h.written]

namespace State.Alike
variable {s t : State} (h : s.Alike t)
include h

/-- The open traces of a thread have the same id. -/
theorem traceId (thread : Nat) : s.traceId thread = t.traceId thread := by
  rw [State.traceId, State.traceId]
  obtain ⟨hs, ht⟩ | ⟨a, b, hs, ht, hab⟩ := (h.threads thread).open_cases
  · rw [hs, ht]
  · rw [hs, ht, Option.map_some, Option.map_some, hab.traceId]

/-- A call that leaves the threads alone finds, and leaves, the same in both states. -/
theorem buffer (kind : Tracker.MetricKind) : s.tracker.buffer kind = t.tracker.buffer kind := by
  cases kind with
  | custom => exact h.metrics
  | infrastructure => exact h.infrastructure

theorem setBuffer (kind : Tracker.MetricKind) (m : Metrics.State) :
    State.Alike { s with tracker := s.tracker.setBuffer kind m }
      { t with tracker := t.tracker.setBuffer kind m } := by
  cases kind with
  | custom =>
    exact ⟨h.performance, rfl, h.infrastructure, h.bodies, h.threads, h.users, h.changes, h.written⟩
  | infrastructure =>
    exact ⟨h.performance, h.metrics, rfl, h.bodies, h.threads, h.users, h.changes, h.written⟩

theorem setPerformance (p : Performance.State Double) :
    State.Alike { s with tracker := { s.tracker with performance := p } }
      { t with tracker := { t.tracker with performance := p } } :=
  ⟨rfl, h.metrics, h.infrastructure, h.bodies, h.threads, h.users, h.changes, h.written⟩

theorem addBodies (bodies : List Bytes) :
    State.Alike { s with tracker := { s.tracker with bodies := bodies } }
      { t with tracker := { t.tracker with bodies := bodies } } :=
  ⟨h.performance, h.metrics, h.infrastructure, rfl, h.threads, h.users, h.changes, h.written⟩

theorem setThread (thread : Nat) {x y : Spans.State} (hxy : x.Alike y) :
    State.Alike
      { s with
        tracker := { s.tracker with threads := Function.update s.tracker.threads thread x } }
      { t with
        tracker := { t.tracker with threads := Function.update t.tracker.threads thread y } } := by
  refine ⟨h.performance, h.metrics, h.infrastructure, h.bodies, fun other => ?_, h.users,
    h.changes, h.written⟩
  by_cases hother : other = thread
  · subst hother
    simpa only [Function.update_self] using hxy
  · simpa only [Function.update_of_ne hother] using h.threads other

theorem spansStep (thread : Nat) {a b : Spans.Action} (hab : a.Alike b) :
    Option.Rel State.Alike (step s (.tracker (.spans thread a)))
      (step t (.tracker (.spans thread b))) := by
  have hrel := (h.threads thread).step hab
  simp only [Sdk.step, Tracker.step, Option.map_map]
  revert hrel
  generalize Spans.step _ a = next
  generalize Spans.step _ b = next'
  rintro (hxy | _)
  · exact .some (h.setThread thread hxy)
  · exact .none

/-- The tracker takes the same call in both, and what it makes of the one it makes of the other. -/
theorem trackerStep (call : Tracker.Call) :
    Option.Rel State.Alike (step s (.tracker call)) (step t (.tracker call)) := by
  simp only [Sdk.step]
  cases call with
  | recordPerformance config name durationMs now =>
    simp only [Tracker.step, h.performance]
    exact .some (h.setPerformance _)
  | flushPerformance config now =>
    simp only [Tracker.step, Tracker.flushPerformance, h.performance, h.bodies]
    exact .some ((h.setPerformance _).addBodies _)
  | performanceDelivered i status =>
    simp only [Tracker.step, h.performance, Option.map_map]
    cases Performance.step t.tracker.performance (.flushSubtraction i status) with
    | none => exact .none
    | some p => exact .some (h.setPerformance p)
  | captureMetric config name value now =>
    simp only [Tracker.step, h.metrics]
    exact .some (h.setBuffer .custom _)
  | captureInfrastructureMetric config name value hostname now =>
    simp only [Tracker.step, h.infrastructure]
    exact .some (h.setBuffer .infrastructure _)
  | flushMetrics kind =>
    simp only [Tracker.step, Tracker.flushMetrics, h.buffer kind, h.bodies]
    exact .some ((h.setBuffer kind _).addBodies _)
  | metricsDelivered kind i status =>
    simp only [Tracker.step, h.buffer kind, Option.map_map]
    cases Metrics.step (t.tracker.buffer kind) (.flushRemoval i status) with
    | none => exact .none
    | some m => exact .some (h.setBuffer kind m)
  | spans thread action => exact h.spansStep thread (.same action)

theorem setUser (thread : Nat) {pairs pairs' : List (Bytes × Bytes)}
    (hid : StrictPrivacy.userId (pairs.map fun pair => (some pair.1, some pair.2)) =
      StrictPrivacy.userId (pairs'.map fun pair => (some pair.1, some pair.2))) :
    (setUser s thread pairs).Alike (Sdk.setUser t thread pairs') := by
  refine ⟨h.performance, h.metrics, h.infrastructure, h.bodies, h.threads, fun other => ?_,
    h.changes, h.written⟩
  by_cases hother : other = thread
  · subst hother
    simpa only [Sdk.setUser, Function.update_self] using hid
  · simpa only [Sdk.setUser, Function.update_of_ne hother] using h.users other

/-- Of an error only what strict privacy lets out is written, whatever the thread's breadcrumbs. -/
theorem captureError {config : Configuration} (hstrict : config.strictPrivacy = true) (thread : Nat)
    {a b : Capture}
    (hab : EventBuilder.released config a.event = EventBuilder.released config b.event)
    (hgiven : a.user = [] ↔ b.user = []) (symbols : Option (List Bytes)) (now : Nat) :
    (captureError s thread config a symbols now).Alike
      (Sdk.captureError t thread config b symbols now) := by
  have huser : StrictPrivacy.userId (a.sentUser (s.users thread)) =
      StrictPrivacy.userId (b.sentUser (t.users thread)) := by
    unfold Capture.sentUser
    by_cases ha : a.user = []
    · rw [if_pos ha, if_pos (hgiven.mp ha)]
      exact h.users thread
    · rw [if_neg ha, if_neg fun hb => ha (hgiven.mpr hb)]
      exact congrArg EventBuilder.Released.userId hab
  have hreleased : EventBuilder.released config (s.event thread a) =
      EventBuilder.released config (t.event thread b) := by
    simp only [EventBuilder.released, EventBuilder.Released.mk.injEq] at hab ⊢
    exact ⟨hab.1, hab.2.1, hab.2.2.1, huser, hab.2.2.2.2⟩
  unfold Sdk.captureError
  by_cases henabled : config.isEnabled
  · rw [if_pos henabled, if_pos henabled, EventBuilder.payload_released hstrict,
      EventBuilder.payload_released hstrict, hreleased, h.traceId thread]
    exact ⟨h.performance, h.metrics, h.infrastructure, h.bodies, h.threads, h.users, h.changes,
      congrArg (· ++ [_]) h.written⟩
  · rw [if_neg henabled, if_neg henabled]
    exact h

theorem recordChange (config : Configuration) (change : Change) (now : Int) :
    (recordChange s config change now).Alike (Sdk.recordChange t config change now) := by
  unfold Sdk.recordChange
  split
  · exact ⟨h.performance, h.metrics, h.infrastructure, h.bodies, h.threads, h.users,
      congrArg (· ++ _) h.changes, h.written⟩
  · exact h

end State.Alike

/-- What strict privacy keeps back of the calls, it keeps back of every state they lead to. -/
theorem unwinds : Runs.Unwinds step State.Alike Call.Alike Call.Quiet where
  both h hab := by
    cases hab with
    | tracker call => exact h.trackerStep call
    | recordPerformance hstrict hname durationMs now =>
      simp only [step, Tracker.step, h.performance, Performance.record, hstrict, hname]
      exact .some (h.setPerformance _)
    | spans thread hab => exact h.spansStep thread hab
    | setUser thread hid => exact .some (h.setUser thread hid)
    | captureError hstrict thread hreleased hgiven symbols now =>
      exact .some (h.captureError hstrict thread hreleased hgiven symbols now)
    | recordChange config change now => exact .some (h.recordChange config change now)
  left h ha := by
    cases ha with
    | breadcrumb thread event =>
      exact ⟨_, rfl, h.performance, h.metrics, h.infrastructure, h.bodies, h.threads, h.users,
        h.changes, h.written⟩
  right h hb := by
    cases hb with
    | breadcrumb thread event =>
      exact ⟨_, rfl, h.performance, h.metrics, h.infrastructure, h.bodies, h.threads, h.users,
        h.changes, h.written⟩

/-- Whatever the threads do, two runs that differ in breadcrumbs and in what strict privacy keeps
back of the calls' arguments send the same, byte for byte. -/
theorem sent_strict {as bs : List Call} (h : Runs.Woven Call.Alike Call.Quiet as bs) :
    (Runs.exec step initial as).map State.sent = (Runs.exec step initial bs).map State.sent :=
  unwinds.observe (fun _ _ hst => hst.sent) h (State.Alike.refl initial)

def strictConfiguration : Configuration :=
  { dsn := some (ascii "https://k@h"), strictPrivacy := true }

/-- A trace is opened on the thread. -/
def strictBegin : Call :=
  .tracker (.spans 0 (.traceBegin (some strictConfiguration) none
    ⟨ascii "ba5eba1116cd43dd8448eb2113107ace", rfl, rfl, rfl⟩
    ⟨ascii "ca5cade0c0ffee12", rfl, rfl, rfl⟩ true))

/-- It is ended after two seconds, long enough to be sent. -/
def strictEnd : Call :=
  .tracker (.spans 0 (.traceEnd (some strictConfiguration) (some (ascii "GET /users")) 0
    (.finite 2000) true {}))

/-- Jane's query fails. -/
def janesRun : List Call :=
  [.setUser 0 [(ascii "email", ascii "jane@example.com"), (ascii "id", ascii "42")],
    .breadcrumb 0 .clear,
    strictBegin,
    .tracker (.spans 0 (.record (some strictConfiguration) ⟨ascii "6e0c63257de34c92", rfl, rfl, rfl⟩
      (some (ascii "GET /users/17")) (some (ascii "database")) 0 (.finite 0)
      [(some Spans.statementKey, some (ascii "SELECT 'jane'"))] {})),
    .captureError 0 strictConfiguration { message := some (ascii "Invoice 17 not found") } none 0,
    strictEnd]

/-- So does Bob's, and he leaves no breadcrumbs. -/
def bobsRun : List Call :=
  [.setUser 0 [(ascii "id", ascii "42"), (ascii "name", ascii "Bob")],
    strictBegin,
    .tracker (.spans 0 (.record (some strictConfiguration) ⟨ascii "6e0c63257de34c92", rfl, rfl, rfl⟩
      (some (ascii "GET /users/8")) (some (ascii "database")) 0 (.finite 0)
      [(some (ascii "user"), some (ascii "bob")),
        (some Spans.statementKey, some (ascii "SELECT 'bob'"))] {})),
    .captureError 0 strictConfiguration { message := some (ascii "Invoice 8 not found") } none 0,
    strictEnd]

theorem sent_strict_janesRun :
    (Runs.exec step initial janesRun).map State.sent =
      (Runs.exec step initial bobsRun).map State.sent ∧ ∃ s, Runs.exec step initial janesRun =
      some s ∧ (s.tracker.threads 0).sent.length = 1 ∧ s.written.length = 1 := by
  have hfingerprint : StrictPrivacy.normalizeMessage
      (EventBuilder.messageToWrite strictConfiguration (some (ascii "Invoice 17 not found"))) =
        StrictPrivacy.normalizeMessage (EventBuilder.messageToWrite strictConfiguration
          (some (ascii "Invoice 8 not found"))) := by
    decide +kernel
  have hreleased : EventBuilder.released strictConfiguration
      ({ message := some (ascii "Invoice 17 not found") } : Capture).event =
        EventBuilder.released strictConfiguration
        ({ message := some (ascii "Invoice 8 not found") } : Capture).event := by
    simp only [EventBuilder.released, Capture.event, EventBuilder.fingerprintOf,
      StrictPrivacy.messageFingerprint, hfingerprint]
  have hsame : (Runs.exec step initial janesRun).map State.sent =
      (Runs.exec step initial bobsRun).map State.sent := by
    refine sent_strict (.both (.setUser 0 (by decide +kernel)) (.left (.breadcrumb 0 .clear)
      (.both (.tracker _) (.both (.spans 0 ?_) (.both ?_ (.both (.tracker _) .nil))))))
    · exact .record rfl (by decide +kernel) _ _ _
    · exact .captureError rfl 0 hreleased Iff.rfl none 0
  have hrun : Runs.exec step initial janesRun = some _ := rfl
  exact ⟨hsame, _, hrun, rfl, rfl⟩

end ForgeOps.Sdk
