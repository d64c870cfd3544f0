import ForgeOpsTracker.Spans

/-! Which trace a span was started in, and under which span of its trace it hangs. The state of
a span outlives its trace and does not name it, so a late stop can record the span into a later
trace; and a span that stops when the trace is full is missing above its children. -/

namespace ForgeOps.Spans
open TraceParent

/-- Where a span comes from: the number of the trace in which it was started or recorded, and
its place among all that were. -/
structure Origin where
  trace : Nat
  order : Nat
  deriving DecidableEq

/-- The state of the thread and what no step reads of it: how many traces were begun and how
many spans started or recorded, the origin of each handle, and the spans of the open trace with
their origins. -/
structure History where
  state : State
  traces : Nat
  drawn : Nat
  origins : List Origin
  buffer : List (Span × Origin)

def State.spans (s : State) : List Span :=
  match s.trace with
  | none => []
  | some trace => trace.spans.map Finished.span

namespace History

def initial : History := ⟨Spans.initial, 0, 0, [], []⟩

def origin (h : History) (i : Nat) : Origin := h.origins.getD i ⟨0, 0⟩

/-- The spans that a step added to the trace. -/
def added (h : History) (s : State) (origin : Origin) : List (Span × Origin) :=
  (s.spans.drop h.buffer.length).map fun span => (span, origin)

def step (h : History) (a : Action) : Option History :=
  (Spans.step h.state a).map fun s =>
    match a with
    | .traceBegin .. =>
      if h.state.trace = none ∧ s.trace ≠ none then { h with state := s, traces := h.traces + 1 }
      else { h with state := s }
    | .traceEnd .. => { h with state := s, buffer := [] }
    | .start .. =>
      { h with state := s, drawn := h.drawn + 1, origins := h.origins ++ [⟨h.traces, h.drawn⟩] }
    | .stop _ i .. => { h with state := s, buffer := h.buffer ++ h.added s (h.origin i) }
    | .record .. =>
      { h with
        state := s
        drawn := h.drawn + 1
        buffer := h.buffer ++ h.added s ⟨h.traces, h.drawn⟩ }

/-- History only watches the state. -/
theorem step_state (h : History) (a : Action) :
    (h.step a).map History.state = Spans.step h.state a := by
  cases a with
  | traceBegin config traceparent randomTraceId rootSpanId allocated =>
    simp only [step, Spans.step, Option.map_some]
    split <;> rfl
  | traceEnd => rfl
  | start => rfl
  | stop => rfl
  | record => rfl

end History

/-! ## What a step does -/

def Trace.hasRoom (trace : Trace) : Prop := trace.spans.length < maxSpans - 1

instance (trace : Trace) : Decidable trace.hasRoom := inferInstanceAs (Decidable (_ < _))

theorem Trace.record_spans (trace : Trace) (config : Configuration) (span : Span)
    (alloc : Allocations) : (trace.record config span alloc).spans =
      trace.spans ++ if trace.hasRoom then [⟨span, spanJson config span alloc⟩] else [] := by
  unfold record
  by_cases h : trace.hasRoom
  · rw [if_neg (Nat.not_le.mpr h), if_pos h]
  · rw [if_pos (Nat.not_lt.mp h), if_neg h, List.append_nil]

/-- A record touches the spans only. -/
theorem Trace.record_eq (trace : Trace) (config : Configuration) (span : Span)
    (alloc : Allocations) :
    trace.record config span alloc =
      { trace with spans := (trace.record config span alloc).spans } := by
  unfold record
  split <;> rfl

@[simp] theorem Trace.record_openIds (trace : Trace) (config : Configuration) (span : Span)
    (alloc : Allocations) : (trace.record config span alloc).openIds = trace.openIds := by
  rw [record_eq]

@[simp] theorem Trace.record_rootSpanId (trace : Trace) (config : Configuration) (span : Span)
    (alloc : Allocations) : (trace.record config span alloc).rootSpanId = trace.rootSpanId := by
  rw [record_eq]

def Trace.close (trace : Trace) (id : HexId 16) : Trace :=
  { trace with openIds := closeId id trace.openIds }

/-- A trace that is begun is empty, and one that is open is left alone. -/
theorem traceBegin_cases (s : State) (config : Option Configuration) (traceparent : Option Bytes)
    (randomTraceId : HexId 32) (rootSpanId : HexId 16) (allocated : Bool) :
    traceBegin s config traceparent randomTraceId rootSpanId allocated = s ∨
      s.trace = none ∧ ∃ trace : Trace, trace.spans = [] ∧ trace.openIds = [] ∧
        trace.rootSpanId = rootSpanId ∧
        traceBegin s config traceparent randomTraceId rootSpanId allocated =
          { s with trace := some trace } := by
  unfold traceBegin
  split
  · split
    · rename_i htrace _
      exact .inr ⟨htrace, _, rfl, rfl, rfl, rfl⟩
    · exact .inl rfl
  · exact .inl rfl

theorem traceEnd_trace (s : State) (config : Option Configuration) (rootName : Option Bytes)
    (startedAtUnixMs : Int) (durationMs : Double) (allocated : Bool) (alloc : Allocations) :
    (traceEnd s config rootName startedAtUnixMs durationMs allocated alloc).trace = none ∧
      (traceEnd s config rootName startedAtUnixMs durationMs allocated alloc).handles =
        s.handles := by
  unfold traceEnd
  split <;> exact ⟨rfl, rfl⟩

/-- A stop of an active span takes it off the open ones and records it, if there is a trace. -/
theorem stop_cases (s : State) (config : Option Configuration) (i : Nat) (name kind : Option Bytes)
    (durationMs : Double) (data : Data) (alloc : Allocations) :
    s.handles[i]?.join = none ∧ stop s config i name kind durationMs data alloc = s ∨
      ∃ state, s.handles[i]? = some (some state) ∧
        ((s.trace = none ∨ config = none) ∧
            stop s config i name kind durationMs data alloc =
              { s with handles := s.handles.set i none } ∨
          ∃ trace config' span, s.trace = some trace ∧ config = some config' ∧ span.id = state.id ∧
            span.parent = some state.parent ∧
            stop s config i name kind durationMs data alloc =
              { s with
                handles := s.handles.set i none
                trace := some ((trace.close state.id).record config' span alloc) }) := by
  unfold stop
  cases hi : s.handles[i]?.join with
  | none => exact .inl ⟨rfl, rfl⟩
  | some state =>
    refine .inr ⟨state, Option.join_eq_some_iff.mp hi, ?_⟩
    cases htrace : s.trace with
    | none => exact .inl ⟨.inl rfl, rfl⟩
    | some trace =>
      cases config with
      | none => exact .inl ⟨.inr rfl, rfl⟩
      | some config' => exact .inr ⟨trace, config', _, rfl, rfl, rfl, rfl, rfl⟩

/-- A span recorded at once hangs under the innermost open one, if there is a trace. -/
theorem record_cases (s : State) (config : Option Configuration) (id : HexId 16)
    (name kind : Option Bytes) (startedAtUnixMs : Int) (durationMs : Double) (data : Data)
    (alloc : Allocations) : record s config id name kind startedAtUnixMs durationMs data alloc = s ∨
      ∃ trace config' span,
        s.trace = some trace ∧ span.id = id ∧ span.parent = some trace.currentParent ∧
        record s config id name kind startedAtUnixMs durationMs data alloc =
          { s with trace := some (trace.record config' span alloc) } := by
  unfold record
  split
  · rename_i trace config' htrace
    exact .inr ⟨trace, config', _, htrace, rfl, rfl, rfl⟩
  · exact .inl rfl

namespace History

/-- The history speaks of the spans and the handles that there are. -/
structure Aligned (h : History) : Prop where
  spans : h.buffer.map Prod.fst = h.state.spans
  origins : h.origins.length = h.state.handles.length

theorem initial_aligned : Aligned initial := ⟨rfl, rfl⟩

theorem Aligned.added_eq {h : History} (hal : Aligned h) {s : State} {new : List Span}
    (hs : s.spans = h.state.spans ++ new) (origin : Origin) :
    h.added s origin = new.map fun span => (span, origin) := by
  rw [added, hs, ← hal.spans, List.drop_left' (List.length_map _)]

theorem Aligned.added_same {h : History} (hal : Aligned h) {s : State}
    (hs : s.spans = h.state.spans) (origin : Origin) : h.added s origin = [] :=
  @Aligned.added_eq h hal s [] (hs.trans (List.append_nil _).symm) origin

/-- What a stop does to the history. -/
theorem step_stop {h t : History} (hal : Aligned h) {config : Option Configuration} {i : Nat}
    {name kind : Option Bytes} {durationMs : Double} {data : Data} {alloc : Allocations}
    (ht : h.step (.stop config i name kind durationMs data alloc) = some t) :
    h.state.handles[i]?.join = none ∧ t = h ∨
      ∃ state, h.state.handles[i]? = some (some state) ∧
        ((h.state.trace = none ∨ config = none) ∧
            t = { h with state := { h.state with handles := h.state.handles.set i none } } ∨
          ∃ trace trace' span, h.state.trace = some trace ∧ config ≠ none ∧ span.id = state.id ∧
            span.parent = some state.parent ∧ trace'.rootSpanId = trace.rootSpanId ∧
            trace'.openIds = closeId state.id trace.openIds ∧
            trace'.spans.map Finished.span =
              trace.spans.map Finished.span ++ (if trace.hasRoom then [span] else []) ∧
            t = { h with
                  state := { h.state with
                    handles := h.state.handles.set i none, trace := some trace' }
                  buffer := h.buffer ++ if trace.hasRoom then [(span, h.origin i)] else [] }) := by
  simp only [step, Spans.step, Option.map_some, Option.some.injEq] at ht
  subst ht
  rcases stop_cases h.state config i name kind durationMs data alloc with
    ⟨hi, heq⟩ | ⟨state, hi, ⟨hnone, heq⟩ | ⟨trace, config', span, htrace, rfl, hid, hparent, heq⟩⟩
  · refine .inl ⟨hi, ?_⟩
    rw [heq, hal.added_same rfl, List.append_nil]
  · refine .inr ⟨state, hi, .inl ⟨hnone, ?_⟩⟩
    simp only [heq,
      hal.added_same (s := { h.state with handles := h.state.handles.set i none }) rfl,
      List.append_nil]
  · have hmap : ((trace.close state.id).record config' span alloc).spans.map Finished.span =
        trace.spans.map Finished.span ++ (if trace.hasRoom then [span] else []) := by
      have hspans : ((trace.close state.id).record config' span alloc).spans =
          trace.spans ++ if trace.hasRoom then [⟨span, spanJson config' span alloc⟩] else [] :=
        Trace.record_spans (trace.close state.id) config' span alloc
      rw [hspans, List.map_append]
      split <;> rfl
    refine .inr ⟨state, hi, .inr ⟨trace,
      (trace.close state.id).record config' span alloc, span, htrace, Option.some_ne_none _, hid,
      hparent, Trace.record_rootSpanId .., Trace.record_openIds .., hmap, ?_⟩⟩
    rw [heq, hal.added_eq (by simpa only [State.spans, htrace] using hmap)]
    split <;> rfl

/-- What a record does to the history. -/
theorem step_record {h t : History} (hal : Aligned h) {config : Option Configuration}
    {id : HexId 16} {name kind : Option Bytes} {startedAtUnixMs : Int}
    {durationMs : Double} {data : Data} {alloc : Allocations}
    (ht : h.step (.record config id name kind startedAtUnixMs durationMs data alloc) = some t) :
    t = { h with drawn := h.drawn + 1 } ∨
      ∃ trace trace' span, h.state.trace = some trace ∧ span.id = id ∧
        span.parent = some trace.currentParent ∧ trace'.rootSpanId = trace.rootSpanId ∧
        trace'.openIds = trace.openIds ∧
        trace'.spans.map Finished.span =
          trace.spans.map Finished.span ++ (if trace.hasRoom then [span] else []) ∧
        t = { h with
              state := { h.state with trace := some trace' }
              drawn := h.drawn + 1
              buffer := h.buffer ++ if trace.hasRoom then [(span, ⟨h.traces, h.drawn⟩)]
              else [] } := by
  simp only [step, Spans.step, Option.map_some, Option.some.injEq] at ht
  subst ht
  rcases record_cases h.state config id name kind startedAtUnixMs durationMs data alloc with
    heq | ⟨trace, config', span, htrace, hid, hparent, heq⟩
  · refine .inl ?_
    rw [heq, hal.added_same rfl, List.append_nil]
  · have hmap : (trace.record config' span alloc).spans.map Finished.span =
        trace.spans.map Finished.span ++ (if trace.hasRoom then [span] else []) := by
      rw [Trace.record_spans, List.map_append]
      split <;> rfl
    refine .inr ⟨trace, _, span, htrace, hid, hparent, Trace.record_rootSpanId ..,
      Trace.record_openIds .., hmap, ?_⟩
    rw [heq, hal.added_eq (by simpa only [State.spans, htrace] using hmap)]
    split <;> rfl

theorem step_aligned (h : History) (a : Action) (t : History) (hal : Aligned h)
    (ht : h.step a = some t) : Aligned t := by
  cases a with
  | traceBegin config traceparent randomTraceId rootSpanId allocated =>
    simp only [step, Spans.step, Option.map_some, Option.some.injEq] at ht
    rcases traceBegin_cases h.state config traceparent randomTraceId rootSpanId allocated with
      heq | ⟨hnone, trace, hspans, -, -, heq⟩
    · rw [heq, if_neg (fun hn => hn.2 hn.1)] at ht
      subst ht
      exact hal
    · rw [heq, if_pos ⟨hnone, Option.some_ne_none _⟩] at ht
      subst ht
      refine ⟨?_, hal.origins⟩
      have hempty : h.buffer.map Prod.fst = [] := by simpa only [State.spans, hnone] using hal.spans
      simpa only [State.spans, hspans, List.map_nil] using hempty
  | traceEnd config rootName startedAtUnixMs durationMs allocated alloc =>
    simp only [step, Spans.step, Option.map_some, Option.some.injEq] at ht
    subst ht
    obtain ⟨htrace, hhandles⟩ :=
      traceEnd_trace h.state config rootName startedAtUnixMs durationMs allocated alloc
    refine ⟨?_, ?_⟩
    · simp only [State.spans, htrace, List.map_nil]
    · simpa only [hhandles] using hal.origins
  | start id startedAtUnixMs =>
    simp only [step, Spans.step, Option.map_some, Option.some.injEq] at ht
    subst ht
    obtain ⟨hspans, horigins⟩ := hal
    cases htrace : h.state.trace with
    | none => exact ⟨by simpa only [Spans.start, State.spans, htrace] using hspans,
        by simp [Spans.start, htrace, horigins]⟩
    | some trace => exact ⟨by simpa only [Spans.start, State.spans, htrace] using hspans,
        by simp [Spans.start, htrace, horigins]⟩
  | stop config i name kind durationMs data alloc =>
    rcases step_stop hal ht with ⟨-, rfl⟩ | ⟨state, -, ⟨-, rfl⟩ | ⟨trace, trace', span,
      htrace, -, -, -, -, -, hspans, rfl⟩⟩
    · exact hal
    · exact ⟨hal.spans, by simpa only [List.length_set] using hal.origins⟩
    · refine ⟨?_, by simpa only [List.length_set] using hal.origins⟩
      have hold : h.buffer.map Prod.fst = trace.spans.map Finished.span := by
        simpa only [State.spans, htrace] using hal.spans
      simp only [State.spans, hspans, List.map_append, hold]
      split <;> rfl
  | record config id name kind startedAtUnixMs durationMs data alloc =>
    rcases step_record hal ht with rfl | ⟨trace, trace', span, htrace, -, -, -, -, hspans, rfl⟩
    · exact ⟨hal.spans, hal.origins⟩
    · refine ⟨?_, hal.origins⟩
      have hold : h.buffer.map Prod.fst = trace.spans.map Finished.span := by
        simpa only [State.spans, htrace] using hal.spans
      simp only [State.spans, hspans, List.map_append, hold]
      split <;> rfl

/-! ## Spans of the open trace only -/

/-- Every span in the trace was started or recorded while the trace was open. -/
def OwnSpans (h : History) : Prop := ∀ p ∈ h.buffer, p.2.trace = h.traces

instance : DecidablePred OwnSpans := fun h => inferInstanceAs (Decidable (∀ p ∈ h.buffer, _))

/-- A stop that records its span finds the trace open in which the span was started. -/
def StopsOwn (h : History) : Action → Prop
  | .stop (some _) i .. => ∀ trace ∈ h.state.trace, trace.hasRoom →
      h.state.handles[i]?.join ≠ none → (h.origin i).trace = h.traces
  | _ => True

theorem initial_ownSpans : OwnSpans initial := by
  intro p hp
  exact absurd hp List.not_mem_nil

/-- The spans left in a trace's buffer when none is open: there are none. -/
theorem Aligned.buffer_nil {h : History} (hal : Aligned h) (hnone : h.state.trace = none) :
    h.buffer = [] := by
  have hspans := hal.spans
  simp only [State.spans, hnone, List.map_eq_nil_iff] at hspans
  exact hspans

theorem step_ownSpans (h : History) (a : Action) (t : History) (hinv : Aligned h ∧ OwnSpans h)
    (hown : h.StopsOwn a) (ht : h.step a = some t) : Aligned t ∧ OwnSpans t := by
  obtain ⟨hal, hspans⟩ := hinv
  refine ⟨step_aligned h a t hal ht, ?_⟩
  cases a with
  | traceBegin config traceparent randomTraceId rootSpanId allocated =>
    simp only [step, Spans.step, Option.map_some, Option.some.injEq] at ht
    rcases traceBegin_cases h.state config traceparent randomTraceId rootSpanId allocated with
      heq | ⟨hnone, trace, -, -, -, heq⟩
    · rw [heq, if_neg (fun hn => hn.2 hn.1)] at ht
      subst ht
      exact hspans
    · rw [heq, if_pos ⟨hnone, Option.some_ne_none _⟩] at ht
      subst ht
      intro p hp
      simp only [hal.buffer_nil hnone, List.not_mem_nil] at hp
  | traceEnd =>
    obtain rfl := Option.some.inj ht
    intro p hp
    exact absurd hp List.not_mem_nil
  | start =>
    obtain rfl := Option.some.inj ht
    exact hspans
  | stop config i name kind durationMs data alloc =>
    rcases step_stop hal ht with ⟨-, rfl⟩ | ⟨state, hi, ⟨-, rfl⟩ | ⟨trace, trace', span, htrace,
      hconfig, -, -, -, -, -, rfl⟩⟩
    · exact hspans
    · exact hspans
    · obtain ⟨config, rfl⟩ := Option.ne_none_iff_exists'.mp hconfig
      intro p hp
      rcases List.mem_append.mp hp with hp | hp
      · exact hspans p hp
      · by_cases hroom : trace.hasRoom
        · rw [if_pos hroom, List.mem_singleton] at hp
          subst hp
          exact hown trace htrace hroom (by simp [hi])
        · rw [if_neg hroom] at hp
          exact absurd hp List.not_mem_nil
  | record config id name kind startedAtUnixMs durationMs data alloc =>
    rcases step_record hal ht with rfl | ⟨trace, trace', span, htrace, -, -, -, -, -, rfl⟩
    · exact hspans
    · intro p hp
      rcases List.mem_append.mp hp with hp | hp
      · exact hspans p hp
      · split at hp
        · rw [List.mem_singleton] at hp
          subst hp
          rfl
        · exact absurd hp List.not_mem_nil

/-- After a step that kept to the open trace, the step was a stop of a span started in it. -/
theorem stopsOwn_of_ownSpans (h : History) (a : Action) (t : History) (hal : Aligned h)
    (ht : h.step a = some t) (hspans : OwnSpans t) : h.StopsOwn a := by
  cases a with
  | stop config i name kind durationMs data alloc =>
    cases config with
    | none => trivial
    | some config =>
      intro trace htrace hroom hactive
      rcases step_stop hal ht with ⟨hi, -⟩ |
        ⟨state, -, ⟨hnone, -⟩ | ⟨trace', after, span, htrace', -, -, -, -, -, -, rfl⟩⟩
      · exact absurd hi hactive
      · rcases hnone with hnone | hnone
        · simp [hnone] at htrace
        · exact absurd hnone (Option.some_ne_none _)
      · obtain rfl : trace = trace' := Option.some.inj (htrace.symm.trans htrace')
        exact hspans (span, h.origin i) (by simp [hroom])
  | traceBegin => trivial
  | traceEnd => trivial
  | start => trivial
  | record => trivial

/-- Through a run a trace holds spans of its own only if and only if every stop that records its
span finds the trace open in which the span was started. -/
theorem own_spans (run : List Action) :
    Runs.Always step (fun h => h.buffer.map Prod.fst = h.state.spans ∧ OwnSpans h) initial run ↔
      Runs.EveryStep step StopsOwn initial run := by
  constructor
  · intro h
    have hal := Runs.always_of_invariant step_aligned initial run initial_aligned
    exact hal.everyStep (fun h a t hal ht hp => stopsOwn_of_ownSpans h a t hal ht hp.2) h
  · intro h
    have hinv := Runs.always_of_steps step_ownSpans initial run
      ⟨initial_aligned, initial_ownSpans⟩ h
    exact hinv.imp fun h hinv => ⟨hinv.1.spans, hinv.2⟩

end History

def lateId : HexId 16 := ⟨ascii "b7ad6b7169203331", rfl, rfl, rfl⟩

def tracing : Configuration := { dsn := some (ascii "https://k@h") }

def begun : Action :=
  .traceBegin (some tracing) none ⟨ascii "0af7651916cd43dd8448eb211c80319c", rfl, rfl, rfl⟩
    ⟨ascii "00f067aa0ba902b7", rfl, rfl, rfl⟩ true

/-- The first trace ends with a span still open, which stops in the second. -/
def lateStop : List Action :=
  [begun, .start lateId 0, .traceEnd (some tracing) none 0 (.finite 0) true {}, begun,
    .stop (some tracing) 0 none none (.finite 0) [] {}]

theorem late_stop_crosses_traces :
    ¬ Runs.Always History.step History.OwnSpans History.initial lateStop := by
  decide

/-! ## One tree under the root -/

/-- A parent from which the ids of the trace's spans lead up to the root's. -/
inductive UnderRoot (trace : Trace) : Option (HexId 16) → Prop
  | root : UnderRoot trace (some trace.rootSpanId)
  | span {f : Finished} (hf : f ∈ trace.spans) (h : UnderRoot trace f.span.parent) :
      UnderRoot trace (some f.span.id)

/-- The ids of the spans that a trace sends, the root's first. -/
def Trace.ids (trace : Trace) : List (HexId 16) :=
  trace.rootSpanId :: trace.spans.map fun f => f.span.id

/-- The spans of a trace are one tree: every span leads up to the root, and when the ids differ its
parent is the root or another span. -/
structure Trace.IsTree (trace : Trace) : Prop where
  under : ∀ f ∈ trace.spans, UnderRoot trace f.span.parent
  another : trace.ids.Nodup → ∀ f ∈ trace.spans, f.span.parent = some trace.rootSpanId ∨
    ∃ g ∈ trace.spans, g ≠ f ∧ f.span.parent = some g.span.id

/-- When the ids differ no span that leads up to the root is its own parent. -/
theorem UnderRoot.parent_ne {trace : Trace} (hids : trace.ids.Nodup) {f : Finished}
    (hf : f ∈ trace.spans) {p : Option (HexId 16)} (h : UnderRoot trace p)
    (hp : p = some f.span.id) : f.span.parent ≠ some f.span.id := by
  obtain ⟨hroot, hnodup⟩ := List.nodup_cons.mp hids
  induction h with
  | root => exact absurd (Option.some.inj hp ▸ List.mem_map_of_mem hf) hroot
  | @span g hg _ ih =>
    intro hself
    have hid : g.span.id = f.span.id := Option.some.inj hp
    obtain rfl : g = f := List.inj_on_of_nodup_map hnodup hg hf hid
    exact ih hself hself

theorem Trace.isTree_of_under {trace : Trace}
    (h : ∀ f ∈ trace.spans, UnderRoot trace f.span.parent) : trace.IsTree := by
  refine ⟨h, fun hids f hf => ?_⟩
  cases hparent : f.span.parent with
  | none =>
    have hunder := h f hf
    rw [hparent] at hunder
    cases hunder
  | some parent =>
    have hunder := h f hf
    have hself := hunder.parent_ne hids hf
    rw [hparent] at hunder hself
    cases hunder with
    | root => exact .inl rfl
    | @span g hg _ =>
      refine .inr ⟨g, hg, ?_, rfl⟩
      rintro rfl
      exact hself rfl rfl

namespace History

/-- The id of the root, of a span in the buffer or of an open span of the trace, among those that
came before the `n`-th. -/
def Anchored (h : History) (root id : HexId 16) (n : Nat) : Prop :=
  id = root ∨ (∃ p ∈ h.buffer, p.1.id = id ∧ p.2.order < n) ∨
    ∃ i state, h.state.handles[i]? = some (some state) ∧ state.id = id ∧
      (h.origin i).trace = h.traces ∧ (h.origin i).order < n

/-- What a step may do for the spans to stay one tree. A stop with a trace open is given a
configuration when the span was started in the trace, and if the trace is full no span in it hangs
under the one that stops; a span from an earlier trace is not recorded. -/
def KeepsTree (h : History) : Action → Prop
  | .stop config i .. => ∀ trace ∈ h.state.trace, ∀ state ∈ h.state.handles[i]?.join,
      if (h.origin i).trace = h.traces then
        config ≠ none ∧ (¬ trace.hasRoom → ∀ f ∈ trace.spans, f.span.parent ≠ some state.id)
      else config = none ∨ ¬ trace.hasRoom
  | _ => True

instance decidableKeepsTree (h : History) : ∀ a, Decidable (h.KeepsTree a)
  | .stop config i .. => inferInstanceAs (Decidable (∀ trace ∈ h.state.trace,
      ∀ state ∈ h.state.handles[i]?.join, if (h.origin i).trace = h.traces then
        config ≠ none ∧ (¬ trace.hasRoom → ∀ f ∈ trace.spans, f.span.parent ≠ some state.id)
      else config = none ∨ ¬ trace.hasRoom))
  | .traceBegin .. => inferInstanceAs (Decidable True)
  | .traceEnd .. => inferInstanceAs (Decidable True)
  | .start .. => inferInstanceAs (Decidable True)
  | .record .. => inferInstanceAs (Decidable True)

/-- Every span started in the open trace was stopped. -/
def AllStopped (h : History) : Prop :=
  ∀ i, h.state.handles[i]?.join ≠ none → (h.origin i).trace ≠ h.traces

/-- Spans hang under spans that came before them. While there is room, so will those that are
open, and those that are still to come. -/
structure Grounded (h : History) : Prop where
  aligned : Aligned h
  past : ∀ i, (h.origin i).trace ≤ h.traces
  buffer : ∀ trace ∈ h.state.trace, ∀ p ∈ h.buffer, ∃ parent, p.1.parent = some parent ∧
    h.Anchored trace.rootSpanId parent p.2.order
  handles : ∀ trace ∈ h.state.trace, trace.hasRoom → ∀ i state, h.state.handles[i]? =
    some (some state) → (h.origin i).trace = h.traces →
    h.Anchored trace.rootSpanId state.parent (h.origin i).order
  openIds : ∀ trace ∈ h.state.trace, trace.hasRoom → ∀ id ∈ trace.openIds,
    h.Anchored trace.rootSpanId id h.drawn

theorem initial_grounded : Grounded initial where
  aligned := initial_aligned
  past i := by simp [origin, initial]
  buffer trace htrace := absurd htrace (by simp [initial, Spans.initial])
  handles trace htrace := absurd htrace (by simp [initial, Spans.initial])
  openIds trace htrace := absurd htrace (by simp [initial, Spans.initial])

/-- An anchor stays one while the spans stay where they are or go from open to finished. -/
theorem Anchored.mono {h t : History} {root id : HexId 16} {n m : Nat}
    (hanchor : h.Anchored root id n) (hbuffer : ∀ p ∈ h.buffer, p ∈ t.buffer)
    (hhandles : ∀ i state, h.state.handles[i]? = some (some state) → (h.origin i).trace = h.traces →
      (∃ p ∈ t.buffer, p.1.id = state.id ∧ p.2.order = (h.origin i).order) ∨
        t.state.handles[i]? = some (some state) ∧ t.origin i = h.origin i ∧ t.traces = h.traces)
    (hn : n ≤ m) : t.Anchored root id m := by
  rcases hanchor with rfl | ⟨p, hp, hid, horder⟩ | ⟨i, state, hi, hid, htrace, horder⟩
  · exact .inl rfl
  · exact .inr (.inl ⟨p, hbuffer p hp, hid, by omega⟩)
  · rcases hhandles i state hi htrace with ⟨p, hp, hpid, hporder⟩ | ⟨hi', horigin, htraces⟩
    · exact .inr (.inl ⟨p, hp, hpid.trans hid, by omega⟩)
    · exact .inr (.inr ⟨i, state, hi', hid, by
        rw [horigin, htraces, htrace], by rw [horigin]; omega⟩)

theorem Grounded.currentParent {h : History} (hg : Grounded h) {trace : Trace}
    (htrace : h.state.trace = some trace) (hroom : trace.hasRoom) :
    h.Anchored trace.rootSpanId trace.currentParent h.drawn := by
  rw [Trace.currentParent]
  cases hlast : trace.openIds.getLast? with
  | none => exact .inl rfl
  | some id => exact hg.openIds trace htrace hroom id (List.mem_of_getLast? hlast)

/-- With no trace open only the numbers of the traces matter. -/
theorem Grounded.of_none {h : History} (hal : Aligned h)
    (hpast : ∀ i, (h.origin i).trace ≤ h.traces) (hnone : h.state.trace = none) : Grounded h where
  aligned := hal
  past := hpast
  buffer trace htrace := absurd (hnone ▸ htrace) (by simp)
  handles trace htrace := absurd (hnone ▸ htrace) (by simp)
  openIds trace htrace := absurd (hnone ▸ htrace) (by simp)

theorem grounded_traceBegin {h t : History} (hg : Grounded h) {config : Option Configuration}
    {traceparent : Option Bytes} {randomTraceId : HexId 32} {rootSpanId : HexId 16}
    {allocated : Bool}
    (ht : h.step (.traceBegin config traceparent randomTraceId rootSpanId allocated) = some t) :
    Grounded t := by
  have hal := step_aligned h _ t hg.aligned ht
  simp only [step, Spans.step, Option.map_some, Option.some.injEq] at ht
  rcases traceBegin_cases h.state config traceparent randomTraceId rootSpanId allocated with
    heq | ⟨hnone, trace, hspans, hopen, -, heq⟩
  · rw [heq, if_neg (fun hn => hn.2 hn.1)] at ht
    subst ht
    exact hg
  rw [heq, if_pos ⟨hnone, Option.some_ne_none _⟩] at ht
  subst ht
  refine ⟨hal, fun i => Nat.le_succ_of_le (hg.past i), ?_, ?_, ?_⟩
  · intro trace' _ p hp
    simp only [hg.aligned.buffer_nil hnone, List.not_mem_nil] at hp
  · -- whatever is still open was started in an earlier trace
    intro trace' _ _ i state _ hown
    have hpast := hg.past i
    simp only [origin] at hown hpast
    omega
  · intro trace' htrace' _ id hid
    obtain rfl : trace = trace' := Option.some.inj htrace'
    simp only [hopen, List.not_mem_nil] at hid

theorem origin_append {h t : History} {o : Origin}
    (horigins : t.origins = h.origins ++ [o]) (i : Nat) :
    t.origin i = if i < h.origins.length then h.origin i else if i = h.origins.length then o
    else ⟨0, 0⟩ := by
  simp only [origin, horigins, List.getD_eq_getElem?_getD]
  by_cases hi : i < h.origins.length
  · rw [if_pos hi, List.getElem?_append_left hi]
  rw [if_neg hi]
  by_cases heq : i = h.origins.length
  · rw [if_pos heq, heq, List.getElem?_concat_length, Option.getD_some]
  · rw [if_neg heq, List.getElem?_eq_none (by simp; omega), Option.getD_none]

theorem grounded_start {h t : History} (hg : Grounded h) {id : HexId 16} {startedAtUnixMs : Int}
    (ht : h.step (.start id startedAtUnixMs) = some t) : Grounded t := by
  have hal := step_aligned h _ t hg.aligned ht
  obtain ⟨hstate, hbuffer, htraces, hdrawn, horigins⟩ : t.state =
      Spans.start h.state id startedAtUnixMs ∧ t.buffer = h.buffer ∧ t.traces = h.traces ∧
      t.drawn = h.drawn + 1 ∧ t.origins = h.origins ++ [⟨h.traces, h.drawn⟩] := by
    obtain rfl := Option.some.inj ht
    exact ⟨rfl, rfl, rfl, rfl, rfl⟩
  have hlength := hg.aligned.origins
  have hpast : ∀ i, (t.origin i).trace ≤ t.traces := by
    intro i
    rw [origin_append horigins, htraces]
    split
    · exact hg.past i
    · split
      · exact Nat.le_refl _
      · exact Nat.zero_le _
  have hold : ∀ i < h.state.handles.length, t.origin i = h.origin i := fun i hi => by
    rw [origin_append horigins, if_pos (by omega)]
  have hnew : t.origin h.state.handles.length = ⟨h.traces, h.drawn⟩ := by
    rw [origin_append horigins, if_neg (by omega), if_pos hlength.symm]
  cases htrace : h.state.trace with
  | none => exact Grounded.of_none hal hpast (by simp only [hstate, Spans.start, htrace])
  | some trace =>
    simp only [Spans.start, htrace] at hstate
    have hkept : ∀ {root anchor : HexId 16} {n m : Nat}, h.Anchored root anchor n → n ≤ m →
        t.Anchored root anchor m := by
      intro root anchor n m hanchor hn
      refine hanchor.mono (fun p hp => hbuffer ▸ hp) (fun i state hi _ => .inr ?_) hn
      have hlt := (List.getElem?_eq_some_iff.mp hi).1
      exact ⟨by simp only [hstate, List.getElem?_append_left hlt, hi], hold i hlt, htraces⟩
    have hlast : t.state.handles[h.state.handles.length]? =
        some (some ⟨id, trace.currentParent, startedAtUnixMs⟩) := by
      simp only [hstate, List.getElem?_concat_length]
    refine ⟨hal, hpast, ?_, ?_, ?_⟩
    · intro trace' htrace' p hp
      simp only [hstate, Option.mem_def, Option.some.injEq] at htrace'
      subst htrace'
      obtain ⟨parent, hparent, hanchor⟩ := hg.buffer trace htrace p (hbuffer ▸ hp)
      exact ⟨parent, hparent, hkept hanchor (Nat.le_refl _)⟩
    · intro trace' htrace' hroom i state hi hown
      simp only [hstate, Option.mem_def, Option.some.injEq] at htrace'
      subst htrace'
      by_cases hlt : i < h.state.handles.length
      · simp only [hstate, List.getElem?_append_left hlt] at hi
        rw [hold i hlt, htraces] at hown
        rw [hold i hlt]
        exact hkept (hg.handles trace htrace hroom i state hi hown) (Nat.le_refl _)
      · obtain rfl : i = h.state.handles.length := by
          have hbound := (List.getElem?_eq_some_iff.mp hi).1
          simp only [hstate, List.length_append, List.length_singleton] at hbound
          omega
        obtain rfl := Option.some.inj (Option.some.inj (hlast.symm.trans hi))
        rw [hnew]
        exact hkept (hg.currentParent htrace hroom) (Nat.le_refl _)
    · intro trace' htrace' hroom anchor hanchor
      simp only [hstate, Option.mem_def, Option.some.injEq] at htrace'
      subst htrace'
      have hopen : anchor ∈ trace.openIds ∨ anchor = id := by
        dsimp only at hanchor
        split at hanchor
        · simpa using hanchor
        · exact .inl hanchor
      rcases hopen with hopen | rfl
      · exact hkept (hg.openIds trace htrace hroom anchor hopen) (by omega)
      · exact .inr (.inr ⟨_, _, hlast, rfl, by
          rw [hnew, htraces], by rw [hnew, hdrawn]; exact Nat.lt_succ_self _⟩)

/-- A step that keeps the anchors, starts no span and adds anchored spans to the buffer. -/
theorem Grounded.of_kept {h t : History} (hg : Grounded h) (hal : Aligned t)
    (hpast : ∀ i, (t.origin i).trace ≤ t.traces) {trace trace' : Trace}
    (htrace : h.state.trace = some trace) (htrace' : t.state.trace = some trace')
    (hroot : trace'.rootSpanId = trace.rootSpanId)
    (hkept : ∀ {root anchor : HexId 16} {n m : Nat}, h.Anchored root anchor n → n ≤ m →
      t.Anchored root anchor m)
    (hbuffer : ∀ p ∈ t.buffer, p ∈ h.buffer ∨ ∃ parent, p.1.parent = some parent ∧
      t.Anchored trace.rootSpanId parent p.2.order)
    (hroomed : trace'.hasRoom → trace.hasRoom)
    (hhandles : ∀ (i : Nat) (state : SpanState), t.state.handles[i]? = some (some state) →
      h.state.handles[i]? = some (some state))
    (horigin : ∀ i, t.origin i = h.origin i) (htraces : t.traces = h.traces)
    (hopen : ∀ id ∈ trace'.openIds, id ∈ trace.openIds) (hdrawn : h.drawn ≤ t.drawn) :
    Grounded t := by
  refine ⟨hal, hpast, ?_, ?_, ?_⟩
  · intro after hafter p hp
    obtain rfl : trace' = after := Option.some.inj (htrace'.symm.trans hafter)
    rw [hroot]
    rcases hbuffer p hp with hold | hnew
    · obtain ⟨parent, hparent, hanchor⟩ := hg.buffer trace htrace p hold
      exact ⟨parent, hparent, hkept hanchor (Nat.le_refl _)⟩
    · exact hnew
  · intro after hafter hroom i state hi hown
    obtain rfl : trace' = after := Option.some.inj (htrace'.symm.trans hafter)
    rw [horigin, htraces] at hown
    rw [hroot, horigin]
    exact hkept (hg.handles trace htrace (hroomed hroom) i state (hhandles i state hi) hown)
      (Nat.le_refl _)
  · intro after hafter hroom anchor hanchor
    obtain rfl : trace' = after := Option.some.inj (htrace'.symm.trans hafter)
    rw [hroot]
    exact hkept (hg.openIds trace htrace (hroomed hroom) anchor (hopen anchor hanchor)) hdrawn

theorem grounded_record {h t : History} (hg : Grounded h) {config : Option Configuration}
    {id : HexId 16} {name kind : Option Bytes} {startedAtUnixMs : Int}
    {durationMs : Double} {data : Data} {alloc : Allocations}
    (ht : h.step (.record config id name kind startedAtUnixMs durationMs data alloc) = some t) :
    Grounded t := by
  have hal := step_aligned h _ t hg.aligned ht
  rcases step_record hg.aligned ht with
    rfl | ⟨trace, trace', span, htrace, -, hparent, hroot, hopen, hspans, rfl⟩
  · refine ⟨hal, hg.past, hg.buffer, hg.handles, fun trace htrace hroom id hid => ?_⟩
    exact (hg.openIds trace htrace hroom id hid).mono (fun p hp => hp)
      (fun i state hi _ => .inr ⟨hi, rfl, rfl⟩) (Nat.le_succ _)
  have hkept : ∀ {root anchor : HexId 16} {n m : Nat}, h.Anchored root anchor n → n ≤ m →
      ({ h with
          state := { h.state with trace := some trace' }
          drawn := h.drawn + 1
          buffer := h.buffer ++ if trace.hasRoom then [(span, ⟨h.traces, h.drawn⟩)] else [] } :
        History).Anchored root anchor m := by
    intro root anchor n m hanchor hn
    exact hanchor.mono (fun p hp => List.mem_append_left _ hp)
      (fun i state hi _ => .inr ⟨hi, rfl, rfl⟩) hn
  have hroomed : trace'.hasRoom → trace.hasRoom := fun hroom => by
    have hlength := congrArg List.length hspans
    simp only [List.length_map, List.length_append] at hlength
    exact Nat.lt_of_le_of_lt (by omega) hroom
  refine hg.of_kept hal hg.past htrace rfl hroot hkept (fun p hp => ?_) hroomed (fun _ _ hi => hi)
    (fun _ => rfl) rfl (fun _ hid => hopen ▸ hid) (Nat.le_succ _)
  refine (List.mem_append.mp hp).imp_right fun hnew => ?_
  by_cases hroom : trace.hasRoom
  · rw [if_pos hroom, List.mem_singleton] at hnew
    subst hnew
    exact ⟨_, hparent, hkept (hg.currentParent htrace hroom) (Nat.le_refl _)⟩
  · rw [if_neg hroom] at hnew
    exact absurd hnew List.not_mem_nil

theorem mem_of_mem_closeId {id anchor : HexId 16} {openIds : List (HexId 16)}
    (h : anchor ∈ closeId id openIds) : anchor ∈ openIds := by
  rw [closeId, List.mem_reverse] at h
  exact List.mem_reverse.mp (List.mem_of_mem_erase h)

/-- A span of an earlier trace that stops without being recorded takes no anchor away. -/
theorem Anchored.of_stale {h t : History} {root id : HexId 16} {n i : Nat}
    (hanchor : h.Anchored root id n) (hbuffer : t.buffer = h.buffer)
    (hhandles : t.state.handles = h.state.handles.set i none) (horigins : t.origins = h.origins)
    (htraces : t.traces = h.traces) (hstale : (h.origin i).trace ≠ h.traces) :
    t.Anchored root id n := by
  refine hanchor.mono (fun p hp => hbuffer ▸ hp) (fun j state hj hown => .inr ⟨?_, ?_, htraces⟩)
    (Nat.le_refl _)
  · have hne : i ≠ j := by
      rintro rfl
      exact hstale hown
    rw [hhandles, List.getElem?_set_ne hne, hj]
  · simp only [origin, horigins]

theorem grounded_stop {h t : History} (hg : Grounded h) {config : Option Configuration} {i : Nat}
    {name kind : Option Bytes} {durationMs : Double} {data : Data} {alloc : Allocations}
    (hkeeps : h.KeepsTree (.stop config i name kind durationMs data alloc))
    (ht : h.step (.stop config i name kind durationMs data alloc) = some t) : Grounded t := by
  have hal := step_aligned h _ t hg.aligned ht
  have hother : ∀ {j : Nat} {state : SpanState},
      (h.state.handles.set i none)[j]? = some (some state) →
      h.state.handles[j]? = some (some state) := by
    intro j state hj
    rw [List.getElem?_set] at hj
    split at hj
    · split at hj <;> exact absurd hj (by simp)
    · exact hj
  rcases step_stop hg.aligned ht with
    ⟨-, rfl⟩ | ⟨state, hi, ⟨hnone, rfl⟩ | ⟨trace, trace', span, htrace, hconfig, hid, hparent,
      hroot, hopen, hspans, rfl⟩⟩
  · exact hg
  · cases htrace : h.state.trace with
    | none => exact Grounded.of_none hal hg.past htrace
    | some trace =>
      have hconfig := hnone.resolve_left (htrace ▸ Option.some_ne_none _)
      have hstale : (h.origin i).trace ≠ h.traces := fun hown => by
        have hkeep := hkeeps trace htrace state (by simp [hi])
        rw [if_pos hown] at hkeep
        exact hkeep.1 hconfig
      refine ⟨hal, hg.past, ?_, ?_, ?_⟩
      · intro trace' htrace' p hp
        obtain ⟨parent, hparent, hanchor⟩ := hg.buffer trace' htrace' p hp
        exact ⟨parent, hparent, hanchor.of_stale rfl rfl rfl rfl hstale⟩
      · intro trace' htrace' hroom j state' hj hown
        exact (hg.handles trace' htrace' hroom j state' (hother hj) hown).of_stale rfl
          rfl rfl rfl hstale
      · intro trace' htrace' hroom anchor hanchor
        exact (hg.openIds trace' htrace' hroom anchor hanchor).of_stale rfl rfl rfl rfl hstale
  have hkeep := hkeeps trace htrace state (by simp [hi])
  by_cases hroom : trace.hasRoom
  · -- the span goes from the open ones to the finished ones
    have hown : (h.origin i).trace = h.traces := by
      by_contra hstale
      rw [if_neg hstale] at hkeep
      exact hkeep.elim hconfig (fun h => h hroom)
    simp only [if_pos hroom] at hal hspans ⊢
    have hkept : ∀ {root anchor : HexId 16} {n m : Nat}, h.Anchored root anchor n → n ≤ m →
        ({ h with
          state := { h.state with handles := h.state.handles.set i none, trace := some trace' }
          buffer := h.buffer ++ [(span, h.origin i)] } : History).Anchored root anchor m := by
      intro root anchor n m hanchor hn
      refine hanchor.mono (fun p hp => List.mem_append_left _ hp) (fun j state' hj _ => ?_) hn
      by_cases hij : i = j
      · subst hij
        obtain rfl : state = state' := Option.some.inj (Option.some.inj (hi.symm.trans hj))
        exact .inl ⟨(span, h.origin i), List.mem_append_right _ List.mem_cons_self, hid, rfl⟩
      · refine .inr ⟨?_, rfl, rfl⟩
        rw [List.getElem?_set_ne hij, hj]
    refine hg.of_kept hal hg.past htrace rfl hroot hkept (fun p hp => ?_) (fun _ => hroom)
      (fun _ _ hj => hother hj) (fun _ => rfl) rfl (fun _ hid => mem_of_mem_closeId (hopen ▸ hid))
        (Nat.le_refl _)
    refine (List.mem_append.mp hp).imp_right fun hnew => ?_
    rw [List.mem_singleton] at hnew
    subst hnew
    exact ⟨_, hparent, hkept (hg.handles trace htrace hroom i state hi hown) (Nat.le_refl _)⟩
  · -- nothing is recorded any more
    simp only [if_neg hroom, List.append_nil] at hal hspans ⊢
    have hfull : ¬ trace'.hasRoom := by
      have hlength := congrArg List.length hspans
      simp only [List.length_map] at hlength
      rw [Trace.hasRoom, hlength]
      exact hroom
    refine ⟨hal, hg.past, ?_, ?_, ?_⟩
    · intro after hafter p hp
      obtain rfl : trace' = after := Option.some.inj hafter
      obtain ⟨parent, hpparent, hanchor⟩ := hg.buffer trace htrace p hp
      refine ⟨parent, hpparent, ?_⟩
      rw [hroot]
      by_cases hown : (h.origin i).trace = h.traces
      · rw [if_pos hown] at hkeep
        have hmem : p.1 ∈ trace.spans.map Finished.span := by
          have hspan := hg.aligned.spans
          simp only [State.spans, htrace] at hspan
          rw [← hspan]
          exact List.mem_map_of_mem hp
        obtain ⟨f, hf, hfp⟩ := List.mem_map.mp hmem
        have hchildless : parent ≠ state.id := by
          rintro rfl
          exact hkeep.2 hroom f hf (hfp ▸ hpparent)
        rcases hanchor with hanchor | hanchor | ⟨j, state', hj, hjid, hjown, hjorder⟩
        · exact .inl hanchor
        · exact .inr (.inl hanchor)
        · refine .inr (.inr ⟨j, state', ?_, hjid, hjown, hjorder⟩)
          have hne : i ≠ j := by
            rintro rfl
            obtain rfl : state = state' := Option.some.inj (Option.some.inj (hi.symm.trans hj))
            exact hchildless hjid.symm
          rw [List.getElem?_set_ne hne, hj]
      · exact hanchor.of_stale rfl rfl rfl rfl hown
    · intro after hafter hroom'
      obtain rfl : trace' = after := Option.some.inj hafter
      exact absurd hroom' hfull
    · intro after hafter hroom'
      obtain rfl : trace' = after := Option.some.inj hafter
      exact absurd hroom' hfull

theorem step_grounded (h : History) (a : Action) (t : History) (hg : Grounded h)
    (hkeeps : h.KeepsTree a) (ht : h.step a = some t) : Grounded t := by
  cases a with
  | traceBegin => exact grounded_traceBegin hg ht
  | traceEnd config rootName startedAtUnixMs durationMs allocated alloc =>
    have hal := step_aligned h _ t hg.aligned ht
    obtain rfl := Option.some.inj ht
    exact Grounded.of_none hal hg.past (traceEnd_trace ..).1
  | start => exact grounded_start hg ht
  | stop => exact grounded_stop hg hkeeps ht
  | record => exact grounded_record hg ht

/-- Once every span is stopped, all lead up to the root. The induction is on the order in which they
came. -/
theorem Grounded.under {h : History} (hg : Grounded h) (hstopped : h.AllStopped) {trace : Trace}
    (htrace : h.state.trace = some trace) (n : Nat) :
    ∀ p ∈ h.buffer, p.2.order < n → UnderRoot trace p.1.parent := by
  have hspans := hg.aligned.spans
  simp only [State.spans, htrace] at hspans
  induction n with
  | zero => exact fun p _ hn => absurd hn (Nat.not_lt_zero _)
  | succ n ih =>
    intro p hp hn
    obtain ⟨parent, hparent, hanchor⟩ := hg.buffer trace htrace p hp
    rw [hparent]
    rcases hanchor with rfl | ⟨q, hq, rfl, horder⟩ | ⟨i, state, hi, -, hown, -⟩
    · exact .root
    · have hmem : q.1 ∈ trace.spans.map Finished.span := hspans ▸ List.mem_map_of_mem hq
      obtain ⟨f, hf, hfq⟩ := List.mem_map.mp hmem
      have hunder : UnderRoot trace f.span.parent := hfq ▸ ih q hq (by omega)
      exact hfq ▸ UnderRoot.span hf hunder
    · exact absurd hown (hstopped i (by simp [hi]))

/-- In a run in which no span that others hang under stops when the trace is full, and none is
recorded into a trace that it was not started in, the spans of a trace are one tree whenever all
that were started in it are stopped. -/
theorem spans_isTree (run : List Action) (h : Runs.EveryStep step KeepsTree initial run) :
    Runs.Always step (fun h => h.AllStopped → ∀ trace ∈ h.state.trace, trace.IsTree)
      initial run := by
  refine (Runs.always_of_steps step_grounded initial run initial_grounded h).imp ?_
  intro h hg hstopped trace htrace
  refine Trace.isTree_of_under fun f hf => ?_
  have hspans := hg.aligned.spans
  simp only [State.spans, Option.mem_def.mp htrace] at hspans
  have hmem : f.span ∈ h.buffer.map Prod.fst := hspans ▸ List.mem_map_of_mem hf
  obtain ⟨p, hp, hpf⟩ := List.mem_map.mp hmem
  rw [← hpf]
  exact hg.under hstopped htrace (p.2.order + 1) p hp (Nat.lt_succ_self _)

end History

/-- A request that calls a service, which makes one call of its own. -/
def nested : List Action :=
  [begun, .start lateId 0, .record (some tracing)
    ⟨ascii "53995c3f42cd8ad8", rfl, rfl, rfl⟩ none none 0 (.finite 0) [] {},
    .stop (some tracing) 0 none none (.finite 0) [] {}]

theorem spans_isTree_nested :
    Runs.Always History.step (fun h => h.AllStopped → ∀ trace ∈ h.state.trace, trace.IsTree)
      History.initial
      nested :=
  History.spans_isTree nested (by decide)

/-! ## More spans than a trace holds -/

def spanId (i : Nat) : HexId 16 where
  text := List.replicate 13 49 ++
    [UInt8.ofNat (48 + i / 100 % 10), UInt8.ofNat (48 + i / 10 % 10), UInt8.ofNat (48 + i % 10)]
  length_eq := rfl
  lowerHex := by
    have hdigit : ∀ d, Byte.isDigit (UInt8.ofNat (48 + d % 10)) = true := fun d =>
      isDigit_digitChar (Nat.mod_lt d (by omega))
    simp only [isLowerHex, List.all_append, List.all_cons, hdigit, Bool.true_or,
      List.all_nil, Bool.and_true]
    rfl
  nonzero := by simp [allZeros]

theorem spanId_injOn {i j : Nat} (hi : i < 1000) (hj : j < 1000)
    (h : spanId i = spanId j) : i = j := by
  have htext := congrArg HexId.text h
  simp only [spanId, List.append_cancel_left_eq, List.cons.injEq, and_true] at htext
  obtain ⟨h100, h10, h1⟩ := htext
  have h100 := digitChar_injOn (by omega) (by omega) h100
  have h10 := digitChar_injOn (by omega) (by omega) h10
  have h1 := digitChar_injOn (by omega) (by omega) h1
  omega

def recordId (i : Nat) : Action := .record (some tracing) (spanId i) none none 0 (.finite 0) [] {}

/-- While there is room, spans recorded one after the other all hang under the innermost open
one. -/
theorem exec_recordId (ids : List Nat) {h : History} {trace : Trace}
    (htrace : h.state.trace = some trace) (hroom : trace.spans.length + ids.length ≤ maxSpans - 1) :
    ∃ t trace', Runs.exec History.step h (ids.map recordId) = some t ∧ t.state.trace = some trace' ∧
      t.state.handles = h.state.handles ∧ t.origins = h.origins ∧ t.traces = h.traces ∧
      trace'.rootSpanId = trace.rootSpanId ∧ trace'.openIds = trace.openIds ∧
      trace'.spans.map (fun f => (f.span.id, f.span.parent)) =
        trace.spans.map (fun f => (f.span.id, f.span.parent)) ++
          ids.map fun i => (spanId i, some trace.currentParent) := by
  induction ids generalizing h trace with
  | nil => exact ⟨h, trace, rfl, htrace, rfl, rfl, rfl, rfl, rfl, (List.append_nil _).symm⟩
  | cons i ids ih =>
    rw [List.length_cons] at hroom
    have hlt : trace.hasRoom := by
      rw [Trace.hasRoom]
      omega
    obtain ⟨span, hid, hparent, alloc, heq⟩ : ∃ span : Span, span.id = spanId i ∧
        span.parent = some trace.currentParent ∧ ∃ alloc,
          record h.state (some tracing) (spanId i) none none 0 (.finite 0) [] {} =
            { h.state with trace := some (trace.record tracing span alloc) } :=
      ⟨⟨spanId i, some trace.currentParent, none, none, 0, .finite 0, []⟩, rfl, rfl, {}, by
        simp only [record, htrace]⟩
    have hspans := Trace.record_spans trace tracing span alloc
    rw [if_pos hlt] at hspans
    obtain ⟨t, trace', hexec, ht, hhandles, horigins, htraces, hroot, hopen, hmap⟩ :=
      @ih ((h.step (recordId i)).get rfl) (trace.record tracing span alloc)
        (congrArg State.trace heq)
        (by rw [hspans, List.length_append, List.length_singleton]; omega)
    refine ⟨t, trace', hexec, ht, ?_, horigins, htraces, ?_, ?_, ?_⟩
    · have hsame := congrArg State.handles heq
      exact hhandles.trans hsame
    · rw [hroot, Trace.record_rootSpanId]
    · rw [hopen, Trace.record_openIds]
    · have hcurrent : (trace.record tracing span alloc).currentParent = trace.currentParent := by
        simp only [Trace.currentParent, Trace.record_openIds, Trace.record_rootSpanId]
      rw [hmap, hspans, hcurrent, List.map_append, List.append_assoc]
      simp only [List.map_cons, List.map_nil, List.singleton_append, hid, hparent]

/-- A span under which the trace fills up. -/
def overfull : List Action :=
  [begun, .start lateId 0] ++ (List.range 499).map recordId ++
    [.stop (some tracing) 0 none none (.finite 0) [] {}]

/-- The span that stops last is not in the trace, and all others hang under it. -/
theorem overfull_parent_missing :
    ∃ t trace, Runs.exec History.step History.initial overfull = some t ∧ t.AllStopped ∧
    t.state.trace = some trace ∧ trace.ids.Nodup ∧
      ∃ f ∈ trace.spans, f.span.parent ≠ some trace.rootSpanId ∧
        ∀ g ∈ trace.spans, f.span.parent ≠ some g.span.id := by
  obtain ⟨h, trace, hstart, htrace, hspans, hopen, hroot, hhandles, horigins, htraces⟩ : ∃ h trace,
      Runs.exec History.step History.initial [begun, .start lateId 0] = some h ∧
      h.state.trace = some trace ∧ trace.spans = [] ∧ trace.openIds = [lateId] ∧
        trace.rootSpanId = ⟨ascii "00f067aa0ba902b7", rfl, rfl, rfl⟩ ∧
        h.state.handles = [some ⟨lateId, trace.rootSpanId, 0⟩] ∧ h.origins = [⟨1, 0⟩] ∧
        h.traces = 1 :=
    ⟨_, _, rfl, rfl, rfl, rfl, rfl, rfl, rfl, rfl⟩
  have hparent : trace.currentParent = lateId := by rw [Trace.currentParent, hopen]; rfl
  obtain ⟨t, trace', hexec, htrace', hhandles', horigins', htraces', hroot', -, hmap⟩ :=
    exec_recordId (List.range 499) htrace (by rw [hspans, List.length_range]; decide)
  rw [hspans, hparent, List.map_nil, List.nil_append] at hmap
  have hrun : Runs.exec History.step History.initial
      ([begun, .start lateId 0] ++ (List.range 499).map recordId) = some t := by
    rw [Runs.exec_append, hstart, Option.bind_some, hexec]
  have hal : t.Aligned :=
    (Runs.always_of_invariant History.step_aligned _ _ History.initial_aligned).last hrun
  obtain ⟨u, hu⟩ : ∃ u, t.step (.stop (some tracing) 0 none none (.finite 0) [] {}) =
      some u := ⟨_, rfl⟩
  have hfull : ¬ trace'.hasRoom := by
    have hlength := congrArg List.length hmap
    rw [List.length_map, List.length_map, List.length_range] at hlength
    rw [Trace.hasRoom, hlength]
    decide
  rcases History.step_stop hal hu with ⟨hi, -⟩ | ⟨state, hi, ⟨hnone, -⟩ | ⟨before, after, span,
    hbefore, -, -, -, hroot'', -, hspans', hafter⟩⟩
  · rw [hhandles', hhandles] at hi
    exact absurd hi (by simp)
  · rw [htrace'] at hnone
    exact absurd hnone (by simp)
  obtain rfl : trace' = before := Option.some.inj (htrace'.symm.trans hbefore)
  rw [if_neg hfull, List.append_nil] at hspans'
  have hpairs : after.spans.map (fun f => (f.span.id, f.span.parent)) =
      (List.range 499).map fun i => (spanId i, some lateId) := by
    rw [← hmap]
    have hboth := congrArg (List.map fun span : Span => (span.id, span.parent)) hspans'
    rw [List.map_map, List.map_map] at hboth
    exact hboth
  have hids : after.spans.map (fun f => f.span.id) = (List.range 499).map spanId := by
    have hfirst := congrArg (List.map Prod.fst) hpairs
    rw [List.map_map, List.map_map] at hfirst
    exact hfirst
  have hmem : ∀ f ∈ after.spans, ∃ i, spanId i = f.span.id ∧ f.span.parent = some lateId := by
    intro f hf
    have hin : (f.span.id, f.span.parent) ∈ (List.range 499).map fun i => (spanId i, some lateId) :=
      hpairs ▸ List.mem_map_of_mem hf
    obtain ⟨i, -, hi⟩ := List.mem_map.mp hin
    exact ⟨i, (Prod.mk.inj hi).1, (Prod.mk.inj hi).2.symm⟩
  have hone : ∀ (i : Nat) (id : HexId 16), id.text.head? ≠ some 49 → spanId i ≠ id := by
    rintro i id hid rfl
    exact hid rfl
  refine ⟨u, after, ?_, ?_, by rw [hafter], ?_, ?_⟩
  · rw [overfull, Runs.exec_append, hrun, Option.bind_some, Runs.exec_cons, hu]
    rfl
  · intro i hactive
    simp only [hafter, hhandles', hhandles, List.set_cons_zero] at hactive
    cases i <;> simp at hactive
  · rw [Trace.ids, hids, List.nodup_cons]
    refine ⟨fun hin => ?_, ?_⟩
    · obtain ⟨i, -, hi⟩ := List.mem_map.mp hin
      rw [hroot'', hroot', hroot] at hi
      exact hone i _ (by decide) hi
    · refine List.Nodup.map_on (fun i hi j hj h => ?_) List.nodup_range
      rw [List.mem_range] at hi hj
      exact spanId_injOn (by omega) (by omega) h
  · obtain ⟨f, hf⟩ : ∃ f, f ∈ after.spans := by
      refine List.exists_mem_of_length_pos ?_
      have hlength := congrArg List.length hids
      rw [List.length_map, List.length_map, List.length_range] at hlength
      omega
    obtain ⟨-, -, hlate⟩ := hmem f hf
    refine ⟨f, hf, ?_, fun g hg => ?_⟩
    · rw [hlate, hroot'', hroot', hroot]
      decide
    · obtain ⟨i, hi, -⟩ := hmem g hg
      rw [hlate, ← hi]
      exact fun h => hone i lateId (by decide) (Option.some.inj h).symm

end ForgeOps.Spans
