import ForgeOpsTracker.Lib.Unwinding
import ForgeOpsTracker.OpenTrace
import ForgeOpsTracker.RequestBodies

/-! What the body of a trace tells its reader: the trace, its root, and each span that the calls
recorded on it, with the instant it began and its duration to the hundredth. -/

namespace ForgeOps.Spans
open JsonText TraceParent

/-! ## What a reader finds of a span -/

/-- The name a span is sent under. -/
def sentName (config : Configuration) (span : Span) (alloc : Allocations) : Bytes :=
  let strictName :=
    if config.strictPrivacy ∧ alloc.strictName then span.name.map StrictPrivacy.spanName else none
  (strictName.or span.name).getD []

def isDatabase (config : Configuration) (span : Span) : Bool :=
  config.strictPrivacy || normalizeKind span.kind == ascii "database"

/-- The data pairs it is sent with. -/
def sentPairs (config : Configuration) (span : Span) (alloc : Allocations) : List (Bytes × Bytes) :=
  let system := if isDatabase config span then dbSystem span.data alloc else none
  span.data.zipIdx.filterMap fun ((key, value), i) =>
    (dataValue config.strictPrivacy (isDatabase config span) system key value
      (alloc.value i)).map fun value =>
        (key.getD [], value.getD [])

/-- The members of a span, its time and its number being the given texts. -/
def Span.members (config : Configuration) (span : Span) (alloc : Allocations)
    (startedAt number : Bytes) : List (Bytes × Json.Value) :=
  [(ascii "span_id", .string span.id.text),
    (ascii "parent_span_id", stringOrNull (span.parent.map HexId.text)),
    (ascii "name", .string (sentName config span alloc)),
    (ascii "kind", .string (normalizeKind span.kind)), (ascii "started_at", .string startedAt),
    (ascii "duration_ms", .number number),
    (ascii "environment", .string (config.environment.getD [])),
    (ascii "release", stringOrNull config.release),
    (ascii "data", .object ((sentPairs config span alloc).map
      fun pair => (pair.1, .string pair.2)))]

/-- The value is an object that says this span. -/
def Tells (config : Configuration) (span : Span) (alloc : Allocations) (v : Json.Value) : Prop :=
  ∃ startedAt number, v = .object (span.members config alloc startedAt number) ∧
    Calendar.readTimestamp startedAt = some (sentInstant span.startedAtUnixMs) ∧
    ∀ q, span.durationMs = .finite q → |Json.numberValue number - q| ≤ 1 / 200

/-! ## Its text -/

theorem numberText_eq {durationMs : Double} (h : Printable durationMs) :
    Printf.snprintf numberSize (numberText durationMs) =
      ascii ",\"duration_ms\":" ++ Printf.fixed 2 durationMs ++ ascii ",\"environment\":" :=
  Printf.snprintf_of_fits (numberText_fits h)

/-- The members of a span as they are written. -/
def Span.written (config : Configuration) (span : Span) (alloc : Allocations) : List Json.Member :=
  [⟨ascii "span_id", jsonString span.id.text⟩,
    ⟨ascii "parent_span_id", jsonStringOrNull (span.parent.map HexId.text)⟩,
    ⟨ascii "name", jsonString (sentName config span alloc)⟩,
    ⟨ascii "kind", jsonString (normalizeKind span.kind)⟩,
    ⟨ascii "started_at", jsonString (timestamp span.startedAtUnixMs)⟩,
    ⟨ascii "duration_ms", Printf.fixed 2 span.durationMs⟩,
    ⟨ascii "environment", jsonString (config.environment.getD [])⟩,
    ⟨ascii "release", jsonStringOrNull config.release⟩,
    ⟨ascii "data", Json.object ((sentPairs config span alloc).map fun pair =>
      ⟨pair.1.flatMap escapeByte, jsonString pair.2⟩)⟩]

theorem dataPairs_eq (config : Configuration) (span : Span) (alloc : Allocations) :
    dataPairs config.strictPrivacy (isDatabase config span)
        (if isDatabase config span then dbSystem span.data alloc else none) span.data alloc =
      (sentPairs config span alloc).map fun pair =>
        jsonString pair.1 ++ ascii ":" ++ jsonString pair.2 := by
  rw [dataPairs, sentPairs, List.map_filterMap]
  congr 1
  funext ⟨⟨key, value⟩, i⟩
  dsimp only
  rw [Option.map_map]
  rfl

theorem spanJson_written (config : Configuration) {span : Span} (h : Printable span.durationMs)
    (alloc : Allocations) :
    spanJson config span alloc = Json.object (span.written config alloc) := by
  have hdata : commaSeparated ((sentPairs config span alloc).map fun pair =>
      jsonString pair.1 ++ ascii ":" ++ jsonString pair.2) =
        Json.joined (((sentPairs config span alloc).map fun pair : Bytes × Bytes =>
          (⟨pair.1.flatMap escapeByte, jsonString pair.2⟩ : Json.Member)).map
            Json.Member.text) := by
    rw [commaSeparated_eq_joined, List.map_map]
    congr 2
    funext pair
    exact pair_text _ _
  unfold spanJson
  dsimp only
  have hpairs := dataPairs_eq config span alloc
  rw [isDatabase] at hpairs
  rw [hpairs, hdata, numberText_eq h]
  simp [Span.written, sentName, Json.object, Json.joined, Json.Member.text, Json.quoted, ascii]

theorem written_reads (config : Configuration) {span : Span} (h : span.durationMs.isfinite = true)
    (alloc : Allocations) :
    List.Forall₂ (fun n m => Json.ReadsMember n.name n.value m) (span.written config alloc)
      (span.members config alloc (timestamp span.startedAtUnixMs)
        (Printf.fixed 2 span.durationMs)) := by
  have hnumber : Json.Reads (Printf.fixed 2 span.durationMs)
      (.number (Printf.fixed 2 span.durationMs)) := by
    generalize span.durationMs = durationMs at h
    cases durationMs with
    | finite q => exact Json.reads_number (Printf.isNumber_fixed 2 q)
    | infinity negative => exact absurd h Bool.false_ne_true
    | nan => exact absurd h Bool.false_ne_true
  have hdata : ∀ pairs : List (Bytes × Bytes),
      List.Forall₂ (fun n m => Json.ReadsMember n.name n.value m)
      (pairs.map fun pair => (⟨pair.1.flatMap escapeByte, jsonString pair.2⟩ : Json.Member))
      (pairs.map fun pair => (pair.1, Json.Value.string pair.2)) := by
    intro pairs
    induction pairs with
    | nil => exact .nil
    | cons pair pairs ih => exact .cons (readsMember_escaped pair.1 (reads_jsonString pair.2)) ih
  refine .cons (readsMember_string rfl _) ?_
  refine .cons (readsMember_stringOrNull rfl _) ?_
  refine .cons (readsMember_string rfl _) ?_
  refine .cons (readsMember_string rfl _) ?_
  refine .cons (readsMember_string rfl _) ?_
  refine .cons (readsMember_plain rfl hnumber) ?_
  refine .cons (readsMember_string rfl _) ?_
  refine .cons (readsMember_stringOrNull rfl _) ?_
  exact .cons (readsMember_plain rfl (Json.reads_object (hdata _))) .nil

theorem spanJson_tells (config : Configuration) {span : Span} (h : Printable span.durationMs)
    (alloc : Allocations) :
    ∃ v, Json.Reads (spanJson config span alloc) v ∧ Tells config span alloc v := by
  rw [spanJson_written config h alloc]
  refine ⟨_, Json.reads_object (written_reads config h.isfinite alloc), _, _, rfl,
    timestamp_instant _, ?_⟩
  intro q hq
  rw [hq]
  exact (Printf.fixed_near 2 q).trans (by norm_num)

/-! ## What the calls ask for -/

/-- A span that a call asks to be recorded, but for its parent; and under which configuration and
with which allocations it is encoded. -/
structure Entry where
  config : Configuration
  id : HexId 16
  name : Option Bytes
  kind : Option Bytes
  startedAtUnixMs : Int
  durationMs : Double
  data : Data
  alloc : Allocations

def Entry.span (e : Entry) (parent : HexId 16) : Span :=
  ⟨e.id, some parent, e.name, e.kind, e.startedAtUnixMs, e.durationMs, e.data⟩

/-- The calls of a thread put down as they come: the trace that was begun, the spans started that
may still be stopped, and what was asked to be recorded since the begin. -/
structure Log where
  begun : Option Trace
  started : List (Option (HexId 16 × Int))
  entries : List Entry

namespace Log

def empty : Log := ⟨none, [], []⟩

/-- What a stop or a record puts down: nothing without a trace or a configuration. -/
def put (log : Log) (config : Option Configuration) (entry : Configuration → Entry) : List Entry :=
  if log.begun.isSome then log.entries ++ (config.map entry).toList else log.entries

def next (log : Log) : Action → Log
  | .traceBegin config traceparent randomTraceId rootSpanId allocated =>
    match config, log.begun with
    | some config, none =>
      if config.isEnabled ∧ allocated then
        { log with
          begun := some (opened config traceparent randomTraceId rootSpanId), entries := [] }
      else log
    | _, _ => log
  | .traceEnd .. => { log with begun := none, entries := [] }
  | .start id startedAtUnixMs =>
    { log with started := log.started ++
      [if log.begun.isSome then some (id, startedAtUnixMs) else none] }
  | .stop config i name kind durationMs data alloc =>
    match log.started[i]?.join with
    | none => log
    | some (id, startedAtUnixMs) =>
      { log with
        started := log.started.set i none
        entries := log.put config fun c =>
          ⟨c, id, name, kind, startedAtUnixMs, durationMs, data, alloc⟩ }
  | .record config id name kind startedAtUnixMs durationMs data alloc =>
    { log with
      entries := log.put config fun c =>
        ⟨c, id, name, kind, startedAtUnixMs, durationMs, data, alloc⟩ }

/-- What the trace has room for beside its root. -/
def kept (log : Log) : List Entry := log.entries.take (maxSpans - 1)

end Log

def logOf (calls : List Action) : Log := calls.foldl Log.next .empty

/-- A finished span is what the entry asked for. -/
def Entry.Recorded (e : Entry) (f : Finished) : Prop :=
  ∃ parent, f.span = e.span parent ∧ f.json = spanJson e.config f.span e.alloc

def SpanState.started (state : SpanState) : HexId 16 × Int := (state.id, state.startedAtUnixMs)

/-- The thread has what the log says. -/
structure Logged (log : Log) (s : State) : Prop where
  begun : Option.Rel Continues log.begun s.trace
  started : log.started = s.handles.map (Option.map SpanState.started)
  spans : ∀ trace ∈ s.trace, List.Forall₂ Entry.Recorded log.kept trace.spans

theorem logged_initial : Logged .empty initial :=
  ⟨.none, rfl, fun _ h => absurd h (Option.not_mem_none _)⟩

theorem Logged.of_none {log : Log} {s : State} (hbegun : log.begun = none) (htrace : s.trace = none)
    (hstarted : log.started = s.handles.map (Option.map SpanState.started)) : Logged log s := by
  refine ⟨?_, hstarted, fun trace hmem => ?_⟩
  · rw [hbegun, htrace]
    exact .none
  · rw [htrace] at hmem
    exact absurd hmem (Option.not_mem_none trace)

theorem Logged.of_some {log : Log} {s : State} {begun trace : Trace}
    (hbegun : log.begun = some begun) (htrace : s.trace = some trace)
    (hcontinues : Continues begun trace)
    (hstarted : log.started = s.handles.map (Option.map SpanState.started))
    (hspans : List.Forall₂ Entry.Recorded log.kept trace.spans) : Logged log s := by
  refine ⟨?_, hstarted, fun other hmem => ?_⟩
  · rw [hbegun, htrace]
    exact .some hcontinues
  · obtain rfl : trace = other := Option.some.inj (htrace.symm.trans hmem)
    exact hspans

theorem Logged.isSome {log : Log} {s : State} (h : Logged log s) :
    log.begun.isSome = s.trace.isSome := by
  have hbegun := h.begun
  revert hbegun
  generalize log.begun = begun
  generalize s.trace = trace
  rintro (_ | _) <;> rfl

theorem Logged.none_iff {log : Log} {s : State} (h : Logged log s) :
    log.begun = none ↔ s.trace = none := by
  rw [← Option.not_isSome_iff_eq_none, ← Option.not_isSome_iff_eq_none, h.isSome]

/-- A record in the open trace: behind the others where there is room, and left out where there is
none. -/
theorem kept_put {entries : List Entry} {trace : Trace}
    (h : List.Forall₂ Entry.Recorded (entries.take (maxSpans - 1)) trace.spans) {e : Entry}
    (parent : HexId 16) : List.Forall₂ Entry.Recorded ((entries ++ [e]).take (maxSpans - 1))
      (trace.record e.config (e.span parent) e.alloc).spans := by
  have hlength := h.length_eq
  rw [List.length_take] at hlength
  rw [Trace.record_spans]
  by_cases hroom : trace.hasRoom
  · have hfew : entries.length < maxSpans - 1 := by
      unfold Trace.hasRoom at hroom
      omega
    rw [if_pos hroom, List.take_of_length_le (by simp; omega)]
    rw [List.take_of_length_le (Nat.le_of_lt hfew)] at h
    exact List.rel_append h (.cons ⟨parent, rfl, rfl⟩ .nil)
  · have hmany : maxSpans - 1 ≤ entries.length := by
      unfold Trace.hasRoom at hroom
      omega
    rw [if_neg hroom, List.append_nil, List.take_append_of_le_length hmany]
    exact h

/-- What a call asks for comes to the trace that is open. -/
theorem Log.put_some {log : Log} {begun : Trace} (hbegun : log.begun = some begun) {trace : Trace}
    (h : List.Forall₂ Entry.Recorded log.kept trace.spans) {config : Configuration}
    {entry : Configuration → Entry} (hconfig : (entry config).config = config) (parent : HexId 16) :
    List.Forall₂ Entry.Recorded ((log.put (some config) entry).take (maxSpans - 1))
      (trace.record config ((entry config).span parent) (entry config).alloc).spans := by
  have hkept := kept_put h (e := entry config) parent
  rw [hconfig] at hkept
  rw [Log.put, hbegun]
  exact hkept

theorem Log.put_none (log : Log) (entry : Configuration → Entry) :
    log.put none entry = log.entries := by
  simp [Log.put]

theorem Logged.of_open {log : Log} {s : State} (h : Logged log s) {trace : Trace}
    (htrace : s.trace = some trace) : ∃ begun, log.begun = some begun ∧ Continues begun trace := by
  have hbegun := h.begun
  rw [htrace] at hbegun
  revert hbegun
  generalize log.begun = begun
  rintro (hcontinues | _)
  exact ⟨_, rfl, hcontinues⟩

theorem Logged.handle {log : Log} {s : State} (h : Logged log s) (i : Nat) :
    log.started[i]?.join = (s.handles[i]?.join).map SpanState.started := by
  rw [h.started, List.getElem?_map]
  cases s.handles[i]? with
  | none => rfl
  | some handle => cases handle <;> rfl

theorem Logged.step {log : Log} {s t : State} (h : Logged log s) {a : Action}
    (ht : step s a = some t) : Logged (log.next a) t := by
  cases a with
  | traceBegin config traceparent randomTraceId rootSpanId allocated =>
    obtain rfl := Option.some.inj ht
    cases config with
    | none => exact h
    | some config =>
      cases htrace : s.trace with
      | some trace =>
        obtain ⟨begun, hlog, -⟩ := h.of_open htrace
        simp only [traceBegin, Log.next, htrace, hlog]
        exact h
      | none =>
        have hnone := h.none_iff.mpr htrace
        simp only [traceBegin, Log.next, htrace, hnone]
        split
        · exact .of_some rfl rfl (.refl _) h.started .nil
        · exact h
  | traceEnd config rootName startedAtUnixMs durationMs allocated alloc =>
    obtain rfl := Option.some.inj ht
    obtain ⟨hnone, hhandles⟩ := traceEnd_trace s config rootName startedAtUnixMs durationMs
      allocated alloc
    exact .of_none rfl hnone (hhandles ▸ h.started)
  | start id startedAtUnixMs =>
    obtain rfl := Option.some.inj ht
    cases htrace : s.trace with
    | none =>
      have hnone := h.none_iff.mpr htrace
      refine .of_none hnone (by simp only [start, htrace]) ?_
      simp [Log.next, start, htrace, hnone, h.started]
    | some trace =>
      obtain ⟨begun, hlog, hcontinues⟩ := h.of_open htrace
      have hstart : Spans.step s (.start id startedAtUnixMs) =
          some (start s id startedAtUnixMs) := rfl
      have hgoes : ¬ EndsTrace (.start id startedAtUnixMs) := not_false
      obtain ⟨after, hafter, hstill⟩ := step_continues hgoes hstart htrace
      refine .of_some hlog hafter (hcontinues.trans hstill) ?_ ?_
      · simp [Log.next, start, htrace, hlog, h.started, SpanState.started]
      · simp only [start, htrace] at hafter
        obtain rfl := Option.some.inj hafter
        exact h.spans trace htrace
  | stop config i name kind durationMs data alloc =>
    obtain rfl := Option.some.inj ht
    have hhandle := h.handle i
    cases hactive : s.handles[i]?.join with
    | none =>
      rw [hactive, Option.map_none] at hhandle
      simp only [stop, Log.next, hactive, hhandle]
      exact h
    | some state =>
      rw [hactive, Option.map_some, SpanState.started] at hhandle
      have hset : log.started.set i none =
          (s.handles.set i none).map (Option.map SpanState.started) := by
        rw [h.started, List.map_set]
        rfl
      cases htrace : s.trace with
      | none =>
        simp only [stop, Log.next, hactive, hhandle, htrace]
        exact .of_none (h.none_iff.mpr htrace) rfl hset
      | some trace =>
        obtain ⟨begun, hlog, hcontinues⟩ := h.of_open htrace
        cases config with
        | none =>
          simp only [stop, Log.next, hactive, hhandle, htrace]
          refine .of_some hlog rfl hcontinues hset ?_
          rw [Log.kept, log.put_none]
          exact h.spans trace htrace
        | some config =>
          simp only [stop, Log.next, hactive, hhandle, htrace]
          have hclosed : Continues trace (trace.close state.id) :=
            ⟨rfl, rfl, rfl, rfl, List.prefix_refl _⟩
          have hspans : List.Forall₂ Entry.Recorded log.kept (trace.close state.id).spans :=
            h.spans trace htrace
          exact .of_some hlog rfl
            (hcontinues.trans (hclosed.trans (record_continues _ config _ alloc))) hset
            (Log.put_some hlog hspans rfl state.parent)
  | record config id name kind startedAtUnixMs durationMs data alloc =>
    obtain rfl := Option.some.inj ht
    cases htrace : s.trace with
    | none =>
      simp only [record, Log.next, htrace]
      exact .of_none (h.none_iff.mpr htrace) htrace h.started
    | some trace =>
      obtain ⟨begun, hlog, hcontinues⟩ := h.of_open htrace
      cases config with
      | none =>
        simp only [record, Log.next, htrace]
        refine .of_some hlog htrace hcontinues h.started ?_
        rw [Log.kept, log.put_none]
        exact h.spans trace htrace
      | some config =>
        simp only [record, Log.next, htrace]
        exact .of_some hlog rfl (hcontinues.trans (record_continues trace config _ alloc)) h.started
          (Log.put_some hlog (h.spans trace htrace) rfl trace.currentParent)

theorem logged_run {calls : List Action} {s : State} (h : Runs.exec step initial calls = some s) :
    Logged (logOf calls) s := by
  have hstep : ∀ log s a t, Logged log s → True → step s a = some t → Logged (log.next a) t :=
    fun _ _ _ _ hs _ ht => hs.step ht
  exact Runs.exec_follows hstep logged_initial
    (Runs.everyStep_of_forall (fun _ _ => trivial) initial calls) h

/-! ## The body -/

/-- A body that says the trace as it was begun: its id, the root, and the spans that were asked for
since, in order, as many as there is room for. -/
def BodyTells (log : Log) (begun : Trace) (config : Configuration) (root : Span)
    (alloc : Allocations) (body : Bytes) : Prop :=
  ∃ first rest, Json.parse body = some (.object [(ascii "trace_id", .string begun.traceId.text),
      (ascii "spans", .array (first :: rest))]) ∧
    Tells config root alloc first ∧
    List.Forall₂ (fun e v => ∃ parent, Tells e.config (e.span parent) e.alloc v) log.kept rest

theorem body_tells {log : Log} {trace : Trace}
    (hspans : List.Forall₂ Entry.Recorded log.kept trace.spans) {begun : Trace}
    (hcontinues : Continues begun trace) (config : Configuration) {root : Span}
    (alloc : Allocations) (hroot : Printable root.durationMs)
    (hprintable : ∀ e ∈ log.kept, Printable e.durationMs) :
    BodyTells log begun config root alloc (trace.body config root alloc) := by
  obtain ⟨first, hfirst, htells⟩ := spanJson_tells config hroot alloc
  obtain ⟨rest, hreads, hrest⟩ : ∃ rest,
      List.Forall₂ Json.Reads (trace.spans.map Finished.json) rest ∧
      List.Forall₂ (fun e v => ∃ parent, Tells e.config (e.span parent) e.alloc v)
      log.kept rest := by
    generalize trace.spans = spans at hspans
    generalize log.kept = entries at hspans hprintable ⊢
    induction hspans with
    | nil => exact ⟨[], .nil, .nil⟩
    | @cons e f entries spans hrecorded _ ih =>
      obtain ⟨hprintable, hprintables⟩ := List.forall_mem_cons.mp hprintable
      obtain ⟨rest, hreads, hrest⟩ := ih hprintables
      obtain ⟨parent, hspan, hjson⟩ := hrecorded
      rw [hspan] at hjson
      obtain ⟨v, hread, htell⟩ := @spanJson_tells e.config (e.span parent) hprintable e.alloc
      exact ⟨v :: rest, .cons (hjson ▸ hread) hreads, .cons ⟨parent, htell⟩ hrest⟩
  refine ⟨first, rest, ?_, htells, hrest⟩
  have hbody : trace.body config root alloc =
      Json.object [⟨ascii "trace_id", jsonString trace.traceId.text⟩,
        ⟨ascii "spans", Json.array (spanJson config root alloc ::
          trace.spans.map Finished.json)⟩] := by
    rw [Trace.body, commaSeparated_eq_joined, jsonString_plain trace.traceId.plain]
    simp [Json.object, Json.array, Json.joined, Json.Member.text, Json.quoted, ascii]
  rw [hbody, ← hcontinues.traceId]
  exact (Json.reads_object (.cons (readsMember_string rfl _)
    (.cons (readsMember_plain rfl (Json.reads_array (.cons hfirst hreads))) .nil))).parse

theorem Continues.isSent {before after : Trace} (h : Continues before after)
    (config : Configuration) (durationMs : Double) :
    after.isSent config durationMs = before.isSent config durationMs := by
  rw [Trace.isSent, Trace.isSent, h.send]

theorem Continues.root {before after : Trace} (h : Continues before after) (rootName : Option Bytes)
    (startedAtUnixMs : Int) (durationMs : Double) :
    after.root rootName startedAtUnixMs durationMs =
      before.root rootName startedAtUnixMs durationMs := by
  rw [Trace.root, Trace.root, h.rootSpanId, h.remoteParentSpanId]

/-- The trace of these calls is sent when it is ended so. -/
def Log.Sent (log : Log) (config : Option Configuration) (durationMs : Double)
    (allocated : Bool) : Prop :=
  ∃ begun ∈ log.begun, ∃ c ∈ config, begun.isSent c durationMs = true ∧ allocated = true

/-- From every state that calls lead to, the end of a trace hands over one body or, where the trace
is not to be sent, nothing; and where each duration can be printed, the body says the trace and what
the calls asked for. -/
theorem traceEnd_tells {calls : List Action} {s : State} (h : Runs.exec step initial calls = some s)
    (config : Option Configuration) (rootName : Option Bytes) (startedAtUnixMs : Int)
    (durationMs : Double) (allocated : Bool) (alloc : Allocations) :
    let after := traceEnd s config rootName startedAtUnixMs durationMs allocated alloc
    (¬ (logOf calls).Sent config durationMs allocated → after.sent = s.sent) ∧
      ∀ begun ∈ (logOf calls).begun, ∀ c ∈ config, begun.isSent c durationMs = true →
        allocated = true → ∃ body, after.sent = s.sent ++ [body] ∧
          (Printable durationMs → (∀ e ∈ (logOf calls).kept, Printable e.durationMs) →
            BodyTells (logOf calls) begun c
              (begun.root rootName startedAtUnixMs durationMs) alloc body) := by
  intro after
  have hlogged := logged_run h
  constructor
  · intro hquiet
    show (traceEnd s config rootName startedAtUnixMs durationMs allocated alloc).sent = s.sent
    unfold traceEnd
    split
    · rename_i trace c htrace
      obtain ⟨begun, hlog, hcontinues⟩ := hlogged.of_open htrace
      dsimp only
      refine if_neg fun hsent => hquiet ⟨begun, hlog, c, rfl, ?_, hsent.2⟩
      rw [← hcontinues.isSent]
      exact hsent.1
    · rfl
  · rintro begun hlog c rfl hsent hallocated
    obtain ⟨trace, htrace⟩ := Option.isSome_iff_exists.mp
      (hlogged.isSome.symm.trans (by rw [hlog]; rfl))
    obtain ⟨begun', hlog', hcontinues⟩ := hlogged.of_open htrace
    obtain rfl : begun = begun' := Option.some.inj (hlog.symm.trans hlog')
    refine ⟨trace.body c (trace.root rootName startedAtUnixMs durationMs) alloc, ?_,
      fun hroot hprintable => ?_⟩
    · show (traceEnd s (some c) rootName startedAtUnixMs durationMs allocated alloc).sent = _
      rw [← hcontinues.isSent] at hsent
      simp only [traceEnd, htrace, if_pos (And.intro hsent hallocated)]
    · rw [hcontinues.root]
      exact body_tells (hlogged.spans trace htrace) hcontinues c alloc hroot hprintable

/-- A query that was recorded at once, inside a span of a trace. -/
def oneQuery : List Action :=
  [.traceBegin (some capturing) none ⟨ascii "4bf92f3577b34da6a3ce929d0e0e4736", rfl, rfl, rfl⟩
      ⟨ascii "d75597dee50b0cac", rfl, rfl, rfl⟩ true,
    .start lateId 1709210096700,
    .record (some capturing) ⟨ascii "e457b5a2e4d86bd1", rfl, rfl, rfl⟩ (some (ascii "orders"))
      (some (ascii "database")) 1709210096789 (.finite (49 / 4))
      [(some statementKey, some (ascii "SELECT 7"))] {},
    .stop (some capturing) 0 (some (ascii "load")) none (.finite 15) [] {}]

theorem traceEnd_tells_oneQuery : ∃ s begun body, Runs.exec step initial oneQuery = some s ∧
    (logOf oneQuery).begun = some begun ∧ (logOf oneQuery).kept.length = 2 ∧
    (traceEnd s (some capturing) none 1709210096000 (.finite 20) true {}).sent = [body] ∧
    BodyTells (logOf oneQuery) begun capturing
      (begun.root none 1709210096000 (.finite 20)) {} body := by
  have hrun : Runs.exec step initial oneQuery = some _ := rfl
  obtain ⟨body, hsent, htells⟩ :=
    (traceEnd_tells hrun (some capturing) none 1709210096000 (.finite 20) true {}).2
    _ rfl capturing rfl (by decide) rfl
  exact ⟨_, _, body, hrun, rfl, rfl, hsent, htells (by decide +kernel) (by decide +kernel)⟩

end ForgeOps.Spans
