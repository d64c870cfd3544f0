import ForgeOpsTracker.Lib.Runs
import ForgeOpsTracker.Lib.CivilDate
import ForgeOpsTracker.Lib.Printf
import ForgeOpsTracker.JsonText
import ForgeOpsTracker.SqlStatement
import ForgeOpsTracker.StrictPrivacy
import ForgeOpsTracker.TraceParent

/-! One thread's trace: `spans.c` without its delivery queue.

The open trace is thread-local, so what a thread's calls do to it depends on that thread's
calls only. A finished span is kept as the JSON object it was encoded to; the random ids, the
clock and which allocations succeed come with the call. -/

namespace ForgeOps.Spans
open TraceParent JsonText

def maxSpans : Nat := 500
def maxDepth : Nat := 64

/-- `KINDS` -/
def kinds : List Bytes :=
  ["controller", "service", "database", "redis", "http", "job", "other"].map ascii

/-- `normalize_kind` -/
def normalizeKind : Option Bytes → Bytes
  | none => ascii "other"
  | some kind => if kinds.contains kind then kind else ascii "other"

/-! ## One span as a JSON object -/

/-- `append_timestamp` -/
def timestamp (unixMs : Int) : Bytes :=
  let millis := if unixMs.tmod 1000 < 0 then 0 else (unixMs.tmod 1000).toNat
  Calendar.signedDateTime (unixMs.tdiv 1000) ++ ascii "." ++ decimalPadded 3 millis ++ ascii "Z"

/-- The instant that goes out: before the epoch the milliseconds are left out. -/
def sentInstant (unixMs : Int) : Int := max unixMs (unixMs.tdiv 1000 * 1000)

/-- The time of a span is read back, to the millisecond from the epoch on. -/
theorem timestamp_instant (unixMs : Int) :
    Calendar.readTimestamp (timestamp unixMs) = some (sentInstant unixMs) := by
  have hsplit : unixMs.tdiv 1000 * 1000 + unixMs.tmod 1000 = unixMs :=
    Int.tdiv_mul_add_tmod unixMs 1000
  have hlt : unixMs.tmod 1000 < 1000 := Int.tmod_lt_of_pos unixMs (by decide)
  unfold timestamp sentInstant
  dsimp only
  split
  · rename_i hneg
    rw [Calendar.readTimestamp_signed _ (by decide), max_eq_right (by omega),
      Nat.cast_zero, add_zero]
  · rename_i hnonneg
    rw [Calendar.readTimestamp_signed _ (by omega), max_eq_left (by omega)]
    refine congrArg some ?_
    omega

/-- `lowercase_trimmed` -/
def lowercaseTrimmed : Option Bytes → Option Bytes
  | none => none
  | some value => if trimmed value = [] then none else some ((trimmed value).map Byte.toLower)

/-- Which allocations of `append_span` succeed: the rewritten name, and for the pair at each
index the copy made of it in the search for the system and in the loop that writes it. -/
structure Allocations where
  strictName : Bool := true
  system : Nat → Bool := fun _ => true
  value : Nat → Bool := fun _ => true

abbrev Data := List (Option Bytes × Option Bytes)

def statementKey : Bytes := ascii "db.statement"
def systemKey : Bytes := ascii "db.system"

/-- The first `db.system` that is not blank. -/
def dbSystem (data : Data) (alloc : Allocations) : Option Bytes :=
  data.zipIdx.findSome? fun ((key, value), i) =>
    if key = some systemKey ∧ alloc.system i then lowercaseTrimmed value else none

/-- The value a pair is written with, or `none` when it is left out. -/
def dataValue (strict database : Bool) (system key value : Option Bytes) (allocated : Bool) :
    Option (Option Bytes) :=
  if strict ∧ key ≠ some statementKey ∧ key ≠ some systemKey then none
  else if database ∧ key = some statementKey then
    if allocated then (SqlStatement.maskForSystem value system).map some else none
  else if database ∧ key = some systemKey then
    if allocated then (lowercaseTrimmed value).map some else none
  else some value

/-- The loop over the data pairs. -/
def dataPairs (strict database : Bool) (system : Option Bytes) (data : Data) (alloc : Allocations) :
    List Bytes :=
  data.zipIdx.filterMap fun ((key, value), i) =>
    (dataValue strict database system key value (alloc.value i)).map fun value =>
      jsonString (key.getD []) ++ ascii ":" ++ jsonString (value.getD [])

def numberSize : Nat := 64

/-- What is formatted into `number`, before that buffer cuts it. -/
def numberText (durationMs : Double) : Bytes :=
  ascii ",\"duration_ms\":" ++ Printf.fixed 2 durationMs ++ ascii ",\"environment\":"

/-- What a span is recorded with. -/
structure Span where
  id : HexId 16
  parent : Option (HexId 16)
  name : Option Bytes
  kind : Option Bytes
  startedAtUnixMs : Int
  durationMs : Double
  data : Data
  deriving DecidableEq

/-- `append_span` -/
def spanJson (config : Configuration) (span : Span) (alloc : Allocations) : Bytes :=
  let strictName :=
    if config.strictPrivacy ∧ alloc.strictName then span.name.map StrictPrivacy.spanName else none
  let database := config.strictPrivacy || normalizeKind span.kind == ascii "database"
  let system := if database then dbSystem span.data alloc else none
  ascii "\x7b\"span_id\":" ++ jsonString span.id.text ++
    ascii ",\"parent_span_id\":" ++ jsonStringOrNull (span.parent.map HexId.text) ++
    ascii ",\"name\":" ++ jsonString ((strictName.or span.name).getD []) ++
    ascii ",\"kind\":" ++ jsonString (normalizeKind span.kind) ++
    ascii ",\"started_at\":" ++ jsonString (timestamp span.startedAtUnixMs) ++
    Printf.snprintf numberSize (numberText span.durationMs) ++
    jsonString (config.environment.getD []) ++
    ascii ",\"release\":" ++ jsonStringOrNull config.release ++
    ascii ",\"data\":\x7b" ++
    commaSeparated (dataPairs config.strictPrivacy database system span.data alloc) ++
    ascii "\x7d\x7d"

/-! ## The trace -/

/-- A span in the trace's buffer: its text, and, as history that no step reads, what it was
recorded with. -/
structure Finished where
  span : Span
  json : Bytes
  deriving DecidableEq

/-- `trace_t` -/
structure Trace where
  traceId : HexId 32
  rootSpanId : HexId 16
  remoteParentSpanId : Option (HexId 16)
  send : Bool
  spans : List Finished
  openIds : List (HexId 16)
  deriving DecidableEq

/-- `forgeops_span_state_t` of an active span. -/
structure SpanState where
  id : HexId 16
  parent : HexId 16
  startedAtUnixMs : Int
  deriving DecidableEq

/-- `handles` are the states of the spans the thread has started, `none` when inactive; `sent`
are the bodies handed to `enqueue`. -/
structure State where
  trace : Option Trace
  handles : List (Option SpanState)
  sent : List Bytes
  deriving DecidableEq

def initial : State := ⟨none, [], []⟩

/-- `current_parent` -/
def Trace.currentParent (trace : Trace) : HexId 16 := trace.openIds.getLast?.getD trace.rootSpanId

/-- `record` -/
def Trace.record (trace : Trace) (config : Configuration) (span : Span)
    (alloc : Allocations) : Trace :=
  if trace.spans.length ≥ maxSpans - 1 then trace
  else { trace with spans := trace.spans ++ [⟨span, spanJson config span alloc⟩] }

/-- `forgeops_spans_trace_begin`. The ids are what `forgeops_trace_random_id` gives for the
trace and for its root. -/
def traceBegin (s : State) (config : Option Configuration) (traceparent : Option Bytes)
    (randomTraceId : HexId 32) (rootSpanId : HexId 16) (allocated : Bool) : State :=
  match config, s.trace with
  | some config, none =>
    if config.isEnabled ∧ allocated then
      let parsed := parse traceparent
      let trace : Trace :=
        { traceId := (parsed.map Prod.fst).getD randomTraceId
          rootSpanId := rootSpanId
          remoteParentSpanId := parsed.map Prod.snd
          send := config.trackTracing
          spans := []
          openIds := [] }
      { s with trace := some trace }
    else s
  | _, _ => s

/-- The span `forgeops_spans_trace_end` writes for the root. -/
def Trace.root (trace : Trace) (rootName : Option Bytes) (startedAtUnixMs : Int)
    (durationMs : Double) : Span where
  id := trace.rootSpanId
  parent := trace.remoteParentSpanId
  name := some (rootName.getD (ascii "trace"))
  kind := some (ascii "controller")
  startedAtUnixMs := startedAtUnixMs
  durationMs := durationMs
  data := []

/-- Whether the trace is sent when its root took this long. -/
def Trace.isSent (trace : Trace) (config : Configuration) (durationMs : Double) : Bool :=
  trace.send && Double.le (.finite config.traceCaptureThresholdMs) durationMs

def Trace.body (trace : Trace) (config : Configuration) (root : Span)
    (alloc : Allocations) : Bytes :=
  ascii "\x7b\"trace_id\":\"" ++ trace.traceId.text ++ ascii "\",\"spans\":[" ++
    commaSeparated (spanJson config root alloc :: trace.spans.map Finished.json) ++ ascii "]\x7d"

/-- `forgeops_spans_trace_end` -/
def traceEnd (s : State) (config : Option Configuration) (rootName : Option Bytes)
    (startedAtUnixMs : Int) (durationMs : Double) (allocated : Bool)
    (alloc : Allocations) : State :=
  match s.trace, config with
  | some trace, some config =>
    { s with
      trace := none
      sent :=
        if trace.isSent config durationMs ∧ allocated then
          s.sent ++ [trace.body config (trace.root rootName startedAtUnixMs durationMs) alloc]
        else s.sent }
  | _, _ => { s with trace := none }

/-- `forgeops_spans_start`; the caller puts in the time it started at. -/
def start (s : State) (id : HexId 16) (startedAtUnixMs : Int) : State :=
  match s.trace with
  | none => { s with handles := s.handles ++ [none] }
  | some trace =>
    let openIds := if trace.openIds.length < maxDepth then trace.openIds ++ [id] else trace.openIds
    { s with
      handles := s.handles ++ [some ⟨id, trace.currentParent, startedAtUnixMs⟩]
      trace := some { trace with openIds := openIds } }

/-- The loop that takes the innermost span of that id off the open ones. -/
def closeId (id : HexId 16) (openIds : List (HexId 16)) : List (HexId 16) :=
  (openIds.reverse.erase id).reverse

/-- `forgeops_spans_stop` of the span started `i`-th. -/
def stop (s : State) (config : Option Configuration) (i : Nat) (name kind : Option Bytes)
    (durationMs : Double) (data : Data) (alloc : Allocations) : State :=
  match s.handles[i]?.join with
  | none => s
  | some state =>
    let s := { s with handles := s.handles.set i none }
    match s.trace, config with
    | some trace, some config =>
      let trace := { trace with openIds := closeId state.id trace.openIds }
      let span := ⟨state.id, some state.parent, name, kind, state.startedAtUnixMs, durationMs, data⟩
      { s with trace := some (trace.record config span alloc) }
    | _, _ => s

/-- `forgeops_spans_record` -/
def record (s : State) (config : Option Configuration) (id : HexId 16) (name kind : Option Bytes)
    (startedAtUnixMs : Int) (durationMs : Double) (data : Data) (alloc : Allocations) : State :=
  match s.trace, config with
  | some trace, some config =>
    let span := ⟨id, some trace.currentParent, name, kind, startedAtUnixMs, durationMs, data⟩
    { s with trace := some (trace.record config span alloc) }
  | _, _ => s

inductive Action
  | traceBegin (config : Option Configuration) (traceparent : Option Bytes)
      (randomTraceId : HexId 32) (rootSpanId : HexId 16) (allocated : Bool)
  | traceEnd (config : Option Configuration) (rootName : Option Bytes) (startedAtUnixMs : Int)
      (durationMs : Double) (allocated : Bool) (alloc : Allocations)
  | start (id : HexId 16) (startedAtUnixMs : Int)
  | stop (config : Option Configuration) (i : Nat) (name kind : Option Bytes) (durationMs : Double)
      (data : Data) (alloc : Allocations)
  | record (config : Option Configuration) (id : HexId 16) (name kind : Option Bytes)
      (startedAtUnixMs : Int) (durationMs : Double) (data : Data) (alloc : Allocations)

def step (s : State) : Action → Option State
  | .traceBegin config traceparent randomTraceId rootSpanId allocated =>
    some (traceBegin s config traceparent randomTraceId rootSpanId allocated)
  | .traceEnd config rootName startedAtUnixMs durationMs allocated alloc =>
    some (traceEnd s config rootName startedAtUnixMs durationMs allocated alloc)
  | .start id startedAtUnixMs => some (start s id startedAtUnixMs)
  | .stop config i name kind durationMs data alloc =>
    some (stop s config i name kind durationMs data alloc)
  | .record config id name kind startedAtUnixMs durationMs data alloc =>
    some (record s config id name kind startedAtUnixMs durationMs data alloc)

end ForgeOps.Spans
