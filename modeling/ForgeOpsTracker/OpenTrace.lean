import ForgeOpsTracker.SpanTraces

/-! A trace from its begin to its end. Whatever spans are started, stopped and recorded meanwhile,
it stays the one that was begun, and a span started in it stays active until its own stop. -/

namespace ForgeOps.Spans
open TraceParent

/-- The trace that a begin opens. -/
def opened (config : Configuration) (traceparent : Option Bytes) (randomTraceId : HexId 32)
    (rootSpanId : HexId 16) : Trace where
  traceId := ((parse traceparent).map Prod.fst).getD randomTraceId
  rootSpanId := rootSpanId
  remoteParentSpanId := (parse traceparent).map Prod.snd
  send := config.trackTracing
  spans := []
  openIds := []

theorem traceBegin_opened {s : State} (hs : s.trace = none) {config : Configuration}
    (henabled : config.isEnabled = true) (traceparent : Option Bytes) (randomTraceId : HexId 32)
    (rootSpanId : HexId 16) :
    traceBegin s (some config) traceparent randomTraceId rootSpanId true =
      { s with trace := some (opened config traceparent randomTraceId rootSpanId) } := by
  simp only [traceBegin, hs]
  exact if_pos ⟨henabled, trivial⟩

/-! ## What the trace keeps -/

/-- The trace is the same one, with more spans. -/
structure Continues (before after : Trace) : Prop where
  traceId : after.traceId = before.traceId
  rootSpanId : after.rootSpanId = before.rootSpanId
  remoteParentSpanId : after.remoteParentSpanId = before.remoteParentSpanId
  send : after.send = before.send
  spans : before.spans <+: after.spans

theorem Continues.refl (trace : Trace) : Continues trace trace :=
  ⟨rfl, rfl, rfl, rfl, List.prefix_refl _⟩

theorem Continues.trans {first second third : Trace} (h : Continues first second)
    (h' : Continues second third) : Continues first third :=
  ⟨h'.traceId.trans h.traceId, h'.rootSpanId.trans h.rootSpanId,
    h'.remoteParentSpanId.trans h.remoteParentSpanId, h'.send.trans h.send, h.spans.trans h'.spans⟩

theorem record_continues (trace : Trace) (config : Configuration) (span : Span)
    (alloc : Allocations) : Continues trace (trace.record config span alloc) := by
  unfold Trace.record
  split
  · exact .refl trace
  · exact ⟨rfl, rfl, rfl, rfl, List.prefix_append _ _⟩

def EndsTrace : Action → Prop
  | .traceEnd .. => True
  | _ => False

/-- Until it is ended an open trace goes on. -/
theorem step_continues {s t : State} {a : Action} (ha : ¬ EndsTrace a) (ht : step s a = some t)
    {before : Trace} (hbefore : s.trace = some before) :
    ∃ after, t.trace = some after ∧ Continues before after := by
  cases a with
  | traceBegin config traceparent randomTraceId rootSpanId allocated =>
    obtain rfl := Option.some.inj ht
    rcases traceBegin_cases s config traceparent randomTraceId rootSpanId
      allocated with heq | ⟨hnone, -⟩
    · rw [heq]
      exact ⟨before, hbefore, .refl before⟩
    · exact absurd (hbefore.symm.trans hnone) (Option.some_ne_none _)
  | traceEnd => exact absurd trivial ha
  | start id startedAtUnixMs =>
    obtain rfl := Option.some.inj ht
    simp only [start, hbefore]
    exact ⟨_, rfl, rfl, rfl, rfl, rfl, List.prefix_refl _⟩
  | stop config i name kind durationMs data alloc =>
    obtain rfl := Option.some.inj ht
    rcases stop_cases s config i name kind durationMs data alloc with
      ⟨-, heq⟩ | ⟨state, -, ⟨-, heq⟩ | ⟨trace, config', span, htrace, -, -, -, heq⟩⟩
    · rw [heq]
      exact ⟨before, hbefore, .refl before⟩
    · rw [heq]
      exact ⟨before, hbefore, .refl before⟩
    · obtain rfl : before = trace := Option.some.inj (hbefore.symm.trans htrace)
      have hclosed : Continues before (before.close state.id) :=
        ⟨rfl, rfl, rfl, rfl, List.prefix_refl _⟩
      rw [heq]
      exact ⟨_, rfl, hclosed.trans (record_continues _ config' span alloc)⟩
  | record config id name kind startedAtUnixMs durationMs data alloc =>
    obtain rfl := Option.some.inj ht
    rcases record_cases s config id name kind startedAtUnixMs durationMs data alloc with
      heq | ⟨trace, config', span, htrace, -, -, heq⟩
    · rw [heq]
      exact ⟨before, hbefore, .refl before⟩
    · obtain rfl : before = trace := Option.some.inj (hbefore.symm.trans htrace)
      rw [heq]
      exact ⟨_, rfl, record_continues before config' span alloc⟩

/-! ## What an active span keeps -/

/-- The call stops the span started `i`-th. -/
def StopsSpan (i : Nat) : Action → Prop
  | .stop _ j .. => j = i
  | _ => False

/-- Until it is stopped an active span stays as it was started. -/
theorem step_active {s t : State} {a : Action} {i : Nat} {state : SpanState}
    (h : s.handles[i]? = some (some state)) (ha : ¬ StopsSpan i a) (ht : step s a = some t) :
    t.handles[i]? = some (some state) := by
  cases a with
  | traceBegin config traceparent randomTraceId rootSpanId allocated =>
    obtain rfl := Option.some.inj ht
    rcases traceBegin_cases s config traceparent randomTraceId rootSpanId allocated with
      heq | ⟨-, trace, -, -, -, heq⟩
    · rw [heq]
      exact h
    · rw [heq]
      exact h
  | traceEnd config rootName startedAtUnixMs durationMs allocated alloc =>
    obtain rfl := Option.some.inj ht
    rw [(traceEnd_trace s config rootName startedAtUnixMs durationMs allocated alloc).2]
    exact h
  | start id startedAtUnixMs =>
    obtain rfl := Option.some.inj ht
    have hhandles : ∃ new, (start s id startedAtUnixMs).handles = s.handles ++ [new] := by
      unfold start
      split <;> exact ⟨_, rfl⟩
    obtain ⟨new, hnew⟩ := hhandles
    rw [hnew, List.getElem?_append_left (List.getElem?_eq_some_iff.mp h).1]
    exact h
  | stop config j name kind durationMs data alloc =>
    obtain rfl := Option.some.inj ht
    have hset : (s.handles.set j none)[i]? = some (some state) := by
      rw [List.getElem?_set_ne ha]
      exact h
    rcases stop_cases s config j name kind durationMs data alloc with
      ⟨-, heq⟩ | ⟨other, -, ⟨-, heq⟩ | ⟨trace, config', span, -, -, -, -, heq⟩⟩
    · rw [heq]
      exact h
    · rw [heq]
      exact hset
    · rw [heq]
      exact hset
  | record config id name kind startedAtUnixMs durationMs data alloc =>
    obtain rfl := Option.some.inj ht
    rcases record_cases s config id name kind startedAtUnixMs durationMs data alloc with
      heq | ⟨trace, config', span, -, -, -, heq⟩
    · rw [heq]
      exact h
    · rw [heq]
      exact h

/-- The span is active and the trace is open, the same since it was begun. -/
structure Within (begun : Trace) (i : Nat) (state : SpanState) (s : State) : Prop where
  active : s.handles[i]? = some (some state)
  trace : ∃ now, s.trace = some now ∧ Continues begun now

theorem step_within {begun : Trace} {i : Nat} {state : SpanState} (s : State)
    (a : Action) (t : State) (h : Within begun i state s) (ha : ¬ EndsTrace a ∧ ¬ StopsSpan i a)
    (ht : step s a = some t) : Within begun i state t := by
  obtain ⟨now, hnow, hcontinues⟩ := h.trace
  obtain ⟨after, hafter, hstill⟩ := step_continues ha.1 ht hnow
  exact ⟨step_active h.active ha.2 ht, after, hafter, hcontinues.trans hstill⟩

/-- The span a stop records. -/
def SpanState.span (state : SpanState) (name kind : Option Bytes) (durationMs : Double)
    (data : Data) : Span :=
  ⟨state.id, some state.parent, name, kind, state.startedAtUnixMs, durationMs, data⟩

/-- The stop of an active span records it behind the others while the trace has room. -/
theorem stop_active {s : State} {i : Nat} {state : SpanState} {trace : Trace}
    (hactive : s.handles[i]? = some (some state)) (htrace : s.trace = some trace)
    (hroom : trace.hasRoom) (config : Configuration) (name kind : Option Bytes)
    (durationMs : Double) (data : Data) (alloc : Allocations) :
    ∃ after, (stop s (some config) i name kind durationMs data alloc).trace = some after ∧
      after.spans = trace.spans ++ [⟨state.span name kind durationMs data,
        spanJson config (state.span name kind durationMs data) alloc⟩] := by
  have hclosed : (trace.close state.id).hasRoom := hroom
  refine ⟨(trace.close state.id).record config (state.span name kind durationMs data) alloc, ?_, ?_⟩
  · simp only [stop, hactive, htrace, Option.join_some]
    rfl
  · rw [Trace.record_spans, if_pos hclosed]
    rfl

/-- Every trace of this configuration is sent. -/
def capturing : Configuration :=
  { dsn := some (ascii "https://k@h"), trackTracing := true, traceCaptureThresholdMs := 0 }

end ForgeOps.Spans
