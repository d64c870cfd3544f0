import ForgeOpsTracker.SpanTraces
import Mathlib.Data.List.Nodup

/-! The stack of open spans inside one trace, against the list of all spans started in it. That
list knows which of them were stopped and nothing of a stack; while at most `maxDepth` of them
are open at once the stack is the open ones in the order they were started, whatever the order
of the stops. -/

namespace ForgeOps.Spans
open TraceParent

/-- A span started in the trace, and whether it was stopped since. -/
structure Started where
  handle : Nat
  id : HexId 16
  stopped : Bool
  deriving DecidableEq

def Started.stop (i : Nat) (span : Started) : Started :=
  if span.handle = i then { span with stopped := true } else span

/-- The ids of the spans still open, in the order they were started. -/
def openIds (started : List Started) : List (HexId 16) :=
  (started.filter fun span => !span.stopped).map Started.id

/-- The most recently started span still open, or the root when none is. -/
def parentOf (root : HexId 16) (started : List Started) : HexId 16 :=
  (openIds started).getLast?.getD root

/-- The calls made inside a trace. A trace is only open under a configuration, so they have one. -/
inductive SpanCall
  | start (id : HexId 16) (startedAtUnixMs : Int)
  | stop (config : Configuration) (i : Nat) (name kind : Option Bytes)
      (durationMs : Double) (data : Data) (alloc : Allocations)
  | record (config : Configuration) (id : HexId 16) (name kind : Option Bytes)
      (startedAtUnixMs : Int) (durationMs : Double) (data : Data) (alloc : Allocations)

def SpanCall.action : SpanCall → Action
  | .start id startedAtUnixMs => .start id startedAtUnixMs
  | .stop config i name kind durationMs data alloc =>
    .stop (some config) i name kind durationMs data alloc
  | .record config id name kind startedAtUnixMs durationMs data alloc =>
    .record (some config) id name kind startedAtUnixMs durationMs data alloc

/-- The thread, and the spans started in its trace. -/
structure Watched where
  state : State
  started : List Started
  deriving DecidableEq

namespace Watched

def step (w : Watched) (call : SpanCall) : Option Watched :=
  (Spans.step w.state call.action).map fun s =>
    { state := s
      started :=
        match call with
        | .start id _ => w.started ++ [⟨w.state.handles.length, id, false⟩]
        | .stop _ i .. => w.started.map (Started.stop i)
        | .record .. => w.started }

/-- A start finds room on the stack, and its id is not that of a span of the trace nor of one that
was left active before it. -/
def Allowed (w : Watched) : SpanCall → Prop
  | .start id _ =>
    (openIds w.started).length < maxDepth ∧ id ∉ w.started.map Started.id ∧
      ∀ handle ∈ w.state.handles, ∀ state ∈ handle, state.id ≠ id
  | _ => True

instance (w : Watched) : (call : SpanCall) → Decidable (w.Allowed call)
  | .start id _ =>
    inferInstanceAs (Decidable ((openIds w.started).length < maxDepth ∧
      id ∉ w.started.map Started.id ∧ ∀ handle ∈ w.state.handles, ∀ state ∈ handle, state.id ≠ id))
  | .stop .. => inferInstanceAs (Decidable True)
  | .record .. => inferInstanceAs (Decidable True)

/-- The stack is the spans still open. -/
def StackIsOpen (root : HexId 16) (w : Watched) : Prop :=
  ∃ trace, w.state.trace = some trace ∧ trace.rootSpanId = root ∧ trace.openIds = openIds w.started

/-- The parent that a call gives: to the started span, and to the recorded one if the trace takes
it. -/
def GivesParent (parent : HexId 16) (s t : State) : SpanCall → Prop
  | .start id startedAtUnixMs => t.handles = s.handles ++ [some ⟨id, parent, startedAtUnixMs⟩]
  | .stop .. => True
  | .record _ id name kind startedAtUnixMs durationMs data _ =>
    t.spans = s.spans ++
      if s.spans.length < maxSpans - 1 then
        [⟨id, some parent, name, kind, startedAtUnixMs, durationMs, data⟩]
      else []

end Watched

/-! ## The open spans -/

theorem openIds_append (started : List Started) (handle : Nat) (id : HexId 16) :
    openIds (started ++ [⟨handle, id, false⟩]) = openIds started ++ [id] := by
  simp [openIds]

@[simp] theorem Started.stop_id (i : Nat) (span : Started) : (span.stop i).id = span.id := by
  unfold stop
  split <;> rfl

@[simp] theorem Started.stop_handle (i : Nat) (span : Started) :
    (span.stop i).handle = span.handle := by
  unfold stop
  split <;> rfl

theorem map_stop_id (started : List Started) (i : Nat) :
    (started.map (Started.stop i)).map Started.id = started.map Started.id := by
  rw [List.map_map]
  exact List.map_congr_left fun span _ => span.stop_id i

theorem filter_map_stop (started : List Started) (i : Nat) :
    (started.map (Started.stop i)).filter (fun span => !span.stopped) =
      (started.filter fun span => !span.stopped).filter fun span => span.handle ≠ i := by
  induction started with
  | nil => rfl
  | cons span rest ih =>
    by_cases hi : span.handle = i
    · have hstopped : (span.stop i).stopped = true := by simp only [Started.stop, hi, if_true]
      cases h : span.stopped <;>
        simp only [List.map_cons, List.filter_cons, h, hstopped, hi, ih, Bool.not_true,
          Bool.not_false, Bool.false_eq_true, if_false, if_true, ne_eq,
          not_true_eq_false, decide_false]
    · have hsame : span.stop i = span := if_neg hi
      cases h : span.stopped <;>
        simp only [List.map_cons, List.filter_cons, h, hsame, hi, ih, Bool.not_true, Bool.not_false,
          Bool.false_eq_true, if_false, if_true, ne_eq, not_false_eq_true, decide_true]

/-- A stop takes one id off the open ones, wherever it stands among them. -/
theorem openIds_stop {started : List Started} {i : Nat} {id : HexId 16}
    (h : ∀ span ∈ started, span.stopped = false → (span.handle = i ↔ span.id = id)) :
    openIds (started.map (Started.stop i)) = (openIds started).filter fun other => other ≠ id := by
  rw [openIds, openIds, filter_map_stop, List.filter_map]
  refine congrArg _ (List.filter_congr fun span hspan => ?_)
  obtain ⟨hmem, hopen⟩ := List.mem_filter.mp hspan
  exact decide_eq_decide.mpr (not_congr (h span hmem (by simpa using hopen)))

/-- A stop of a span that is not open changes nothing. -/
theorem openIds_stop_other {started : List Started} {i : Nat}
    (h : ∀ span ∈ started, span.stopped = false → span.handle ≠ i) :
    openIds (started.map (Started.stop i)) = openIds started := by
  rw [openIds, openIds, filter_map_stop]
  refine congrArg _ (List.filter_eq_self.mpr fun span hspan => ?_)
  obtain ⟨hmem, hopen⟩ := List.mem_filter.mp hspan
  exact decide_eq_true (h span hmem (by simpa using hopen))

/-- On a stack of distinct ids, taking the innermost one off takes that id off. -/
theorem closeId_eq_filter {ids : List (HexId 16)} (hids : ids.Nodup) (id : HexId 16) :
    closeId id ids = ids.filter fun other => other ≠ id := by
  have hreverse : ids.reverse.Nodup := List.nodup_reverse.mpr hids
  rw [closeId, hreverse.erase_eq_filter, List.filter_reverse, List.reverse_reverse]
  exact List.filter_congr fun other _ => Bool.eq_iff_iff.mpr (by simp)

/-! ## What a call does -/

namespace Watched

/-- The stack holds the open spans, and a span that is active under the id of one of the trace is
that span. -/
structure Tracked (root : HexId 16) (w : Watched) : Prop where
  stack : w.StackIsOpen root
  ids : (w.started.map Started.id).Nodup
  active : ∀ span ∈ w.started, span.stopped = false →
    ∃ state, w.state.handles[span.handle]? = some (some state) ∧ state.id = span.id
  own : ∀ i state, w.state.handles[i]? = some (some state) →
    ∀ span ∈ w.started, span.id = state.id → span.handle = i

variable {root : HexId 16} {w v : Watched}

theorem Tracked.nodup (h : Tracked root w) : (openIds w.started).Nodup :=
  h.ids.sublist (List.filter_sublist.map _)

theorem StackIsOpen.currentParent {trace : Trace} (h : w.StackIsOpen root)
    (htrace : w.state.trace = some trace) : trace.currentParent = parentOf root w.started := by
  obtain ⟨trace', htrace', hroot, hopen⟩ := h
  obtain rfl : trace = trace' := Option.some.inj (htrace.symm.trans htrace')
  rw [Trace.currentParent, hopen, hroot, parentOf]

theorem step_start (h : w.StackIsOpen root) (id : HexId 16) (startedAtUnixMs : Int)
    (hroom : (openIds w.started).length < maxDepth)
    (hv : w.step (.start id startedAtUnixMs) = some v) :
    v.StackIsOpen root ∧
      v.state.handles = w.state.handles ++ [some ⟨id, parentOf root w.started, startedAtUnixMs⟩] ∧
      v.started = w.started ++ [⟨w.state.handles.length, id, false⟩] := by
  have hparent := fun trace => @StackIsOpen.currentParent root w trace h
  obtain ⟨trace, htrace, hroot, hopen⟩ := h
  have hlength : trace.openIds.length < maxDepth := hopen ▸ hroom
  obtain rfl := Option.some.inj hv
  refine ⟨⟨{ trace with openIds := trace.openIds ++ [id] }, ?_, hroot, ?_⟩, ?_, rfl⟩
  · simp only [Spans.start, htrace, if_pos hlength]
  · rw [openIds_append, ← hopen]
  · simp only [Spans.start, htrace, hparent trace htrace]

theorem set_inactive {handles : List (Option SpanState)} {i : Nat} (h : handles[i]?.join = none) :
    handles.set i none = handles := by
  refine List.ext_getElem? fun j => ?_
  rw [List.getElem?_set]
  by_cases hj : i = j
  · subst hj
    cases hi : handles[i]? with
    | none => rw [if_pos rfl, if_neg (Nat.not_lt.mpr (List.getElem?_eq_none_iff.mp hi))]
    | some handle =>
      rw [hi] at h
      rw [if_pos rfl, if_pos (List.getElem?_eq_some_iff.mp hi).1, show handle = none from h]
  · rw [if_neg hj]

/-- A repeated stop, and a stop of a span of an earlier trace, find nothing on the stack. -/
theorem step_stop (h : Tracked root w) {config : Configuration} {i : Nat} {name kind : Option Bytes}
    {durationMs : Double} {data : Data} {alloc : Allocations}
    (hv : w.step (.stop config i name kind durationMs data alloc) = some v) :
    v.StackIsOpen root ∧ v.state.handles = w.state.handles.set i none ∧
      v.started = w.started.map (Started.stop i) := by
  obtain ⟨trace, htrace, hroot, hopen⟩ := h.stack
  obtain rfl := Option.some.inj hv
  rcases stop_cases w.state (some config) i name kind durationMs data alloc with
    ⟨hinactive, hsame⟩ | ⟨state, hstate,
      ⟨hnone | hnone, -⟩ | ⟨trace', config', span, htrace', -, -, -, heq⟩⟩
  · have hother : ∀ span ∈ w.started, span.stopped = false → span.handle ≠ i := by
      rintro span hspan hopen rfl
      obtain ⟨state, hstate, -⟩ := h.active span hspan hopen
      rw [hstate] at hinactive
      exact Option.some_ne_none _ hinactive
    simp only [hsame]
    exact ⟨⟨trace, htrace, hroot, hopen.trans (openIds_stop_other hother).symm⟩,
      (set_inactive hinactive).symm, trivial⟩
  · exact absurd (htrace.symm.trans hnone) (Option.some_ne_none _)
  · exact absurd hnone (Option.some_ne_none _)
  · obtain rfl : trace = trace' := Option.some.inj (htrace.symm.trans htrace')
    have hown : ∀ span ∈ w.started, span.stopped = false →
        (span.handle = i ↔ span.id = state.id) := by
      intro span hspan hopen
      refine ⟨?_, h.own i state hstate span hspan⟩
      rintro rfl
      obtain ⟨state', hstate', hid⟩ := h.active span hspan hopen
      obtain rfl : state = state' := Option.some.inj (Option.some.inj (hstate.symm.trans hstate'))
      exact hid.symm
    simp only [heq]
    refine ⟨⟨_, rfl, (Trace.record_rootSpanId ..).trans hroot, ?_⟩, trivial, trivial⟩
    rw [Trace.record_openIds, openIds_stop hown, ← hopen]
    exact closeId_eq_filter (hopen ▸ h.nodup) state.id

theorem step_record (h : w.StackIsOpen root) {config : Configuration} {id : HexId 16}
    {name kind : Option Bytes} {startedAtUnixMs : Int} {durationMs : Double} {data : Data}
    {alloc : Allocations}
    (hv : w.step (.record config id name kind startedAtUnixMs durationMs data alloc) = some v) :
    v.StackIsOpen root ∧ v.state.handles = w.state.handles ∧ v.started = w.started ∧
      v.state.spans = w.state.spans ++
        if w.state.spans.length < maxSpans - 1 then
          [⟨id, some (parentOf root w.started), name, kind, startedAtUnixMs, durationMs, data⟩]
        else [] := by
  have hparent := fun trace => @StackIsOpen.currentParent root w trace h
  obtain ⟨trace, htrace, hroot, hopen⟩ := h
  obtain rfl := Option.some.inj hv
  simp only [Spans.record, htrace, hparent trace htrace]
  refine ⟨⟨_, rfl, (Trace.record_rootSpanId ..).trans hroot, (Trace.record_openIds ..).trans hopen⟩,
    trivial, trivial, ?_⟩
  simp only [State.spans, htrace, Trace.record_spans, List.map_append, List.length_map]
  by_cases hroom : trace.hasRoom
  · rw [if_pos hroom, if_pos (show trace.spans.length < maxSpans - 1 from hroom)]
    rfl
  · rw [if_neg hroom, if_neg (show ¬trace.spans.length < maxSpans - 1 from hroom)]
    rfl

theorem tracked_start (h : Tracked root w) {id : HexId 16} {startedAtUnixMs : Int}
    (ha : w.Allowed (.start id startedAtUnixMs))
    (hv : w.step (.start id startedAtUnixMs) = some v) : Tracked root v := by
  obtain ⟨hroom, hnew, hstale⟩ := ha
  obtain ⟨hstack, hhandles, hstarted⟩ := step_start h.stack id startedAtUnixMs hroom hv
  refine ⟨hstack, ?_, ?_, ?_⟩
  · rw [hstarted, List.map_append]
    exact h.ids.append (List.nodup_singleton id) (by simpa using hnew)
  · intro span hspan hopen
    rw [hstarted] at hspan
    rw [hhandles]
    rcases List.mem_append.mp hspan with hold | hlast
    · obtain ⟨state, hstate, hid⟩ := h.active span hold hopen
      have hlt : span.handle < w.state.handles.length := (List.getElem?_eq_some_iff.mp hstate).1
      exact ⟨state, by rw [List.getElem?_append_left hlt, hstate], hid⟩
    · obtain rfl := List.mem_singleton.mp hlast
      exact ⟨_, List.getElem?_concat_length, rfl⟩
  · intro i state hstate span hspan hid
    rw [hstarted] at hspan
    rw [hhandles] at hstate
    by_cases hi : i < w.state.handles.length
    · rw [List.getElem?_append_left hi] at hstate
      rcases List.mem_append.mp hspan with hold | hlast
      · exact h.own i state hstate span hold hid
      · obtain rfl := List.mem_singleton.mp hlast
        exact absurd hid.symm (hstale _ (List.mem_of_getElem? hstate) state rfl)
    · have hlt := (List.getElem?_eq_some_iff.mp hstate).1
      obtain rfl : i = w.state.handles.length := by
        rw [List.length_append, List.length_singleton] at hlt
        omega
      rw [List.getElem?_concat_length] at hstate
      obtain rfl := Option.some.inj (Option.some.inj hstate)
      rcases List.mem_append.mp hspan with hold | hlast
      · exact absurd (List.mem_map.mpr ⟨span, hold, hid⟩) hnew
      · obtain rfl := List.mem_singleton.mp hlast
        rfl

theorem tracked_stop (h : Tracked root w) {config : Configuration} {i : Nat}
    {name kind : Option Bytes} {durationMs : Double} {data : Data} {alloc : Allocations}
    (hv : w.step (.stop config i name kind durationMs data alloc) = some v) : Tracked root v := by
  obtain ⟨hstack, hhandles, hstarted⟩ := step_stop h hv
  refine ⟨hstack, ?_, ?_, ?_⟩
  · rw [hstarted, map_stop_id]
    exact h.ids
  · intro span hspan hopen
    obtain ⟨before, hbefore, rfl⟩ := List.mem_map.mp (hstarted ▸ hspan)
    have hi : before.handle ≠ i := by
      intro heq
      simp only [Started.stop, heq, if_true, Bool.true_eq_false] at hopen
    rw [Started.stop, if_neg hi] at hopen ⊢
    obtain ⟨state, hstate, hid⟩ := h.active before hbefore hopen
    exact ⟨state, by rw [hhandles, List.getElem?_set_ne (Ne.symm hi), hstate], hid⟩
  · intro j state hstate span hspan hid
    obtain ⟨before, hbefore, rfl⟩ := List.mem_map.mp (hstarted ▸ hspan)
    rw [Started.stop_id] at hid
    rw [Started.stop_handle]
    have hj : i ≠ j := by
      rintro rfl
      rw [hhandles, List.getElem?_set_self'] at hstate
      cases hi : w.state.handles[i]? <;> simp [hi] at hstate
    rw [hhandles, List.getElem?_set_ne hj] at hstate
    exact h.own j state hstate before hbefore hid

theorem tracked_record (h : Tracked root w) {config : Configuration} {id : HexId 16}
    {name kind : Option Bytes} {startedAtUnixMs : Int} {durationMs : Double} {data : Data}
    {alloc : Allocations}
    (hv : w.step (.record config id name kind startedAtUnixMs durationMs data alloc) = some v) :
    Tracked root v := by
  obtain ⟨hstack, hhandles, hstarted, -⟩ := step_record h.stack hv
  refine ⟨hstack, ?_, ?_, ?_⟩
  · rw [hstarted]
    exact h.ids
  · rw [hstarted, hhandles]
    exact h.active
  · rw [hstarted, hhandles]
    exact h.own

theorem tracked_step (h : Tracked root w) {call : SpanCall} (ha : w.Allowed call)
    (hv : w.step call = some v) : Tracked root v := by
  cases call with
  | start => exact tracked_start h ha hv
  | stop => exact tracked_stop h hv
  | record => exact tracked_record h hv

theorem givesParent (h : w.StackIsOpen root) {call : SpanCall} (ha : w.Allowed call)
    (hv : w.step call = some v) : GivesParent (parentOf root w.started) w.state v.state call := by
  cases call with
  | start id startedAtUnixMs => exact (step_start h id startedAtUnixMs ha.1 hv).2.1
  | stop => trivial
  | record => exact (step_record h hv).2.2.2

/-! ## A trace from its begin on -/

/-- A trace that was just begun, in a thread that may have left spans active before. -/
def begun (s : State) (config : Configuration) (traceparent : Option Bytes)
    (randomTraceId : HexId 32) (rootSpanId : HexId 16) : Watched :=
  ⟨traceBegin s (some config) traceparent randomTraceId rootSpanId true, []⟩

theorem begun_tracked {s : State} {config : Configuration} (hnone : s.trace = none)
    (henabled : config.isEnabled = true) (traceparent : Option Bytes) (randomTraceId : HexId 32) :
    Tracked root (begun s config traceparent randomTraceId root) := by
  have htrace : (begun s config traceparent randomTraceId root).state.trace =
      some
        { traceId := ((parse traceparent).map Prod.fst).getD randomTraceId
          rootSpanId := root
          remoteParentSpanId := (parse traceparent).map Prod.snd
          send := config.trackTracing
          spans := []
          openIds := [] } := by
    simp only [begun, traceBegin, hnone, henabled, and_self, if_true]
  exact ⟨⟨_, htrace, rfl, rfl⟩, List.nodup_nil, nofun, nofun⟩

theorem openStack_of_depth {s : State} {config : Configuration} (hnone : s.trace = none)
    (henabled : config.isEnabled = true) (traceparent : Option Bytes) (randomTraceId : HexId 32)
    (calls : List SpanCall)
    (hallowed : Runs.EveryStep step Allowed (begun s config traceparent randomTraceId root) calls) :
    Runs.Always step (StackIsOpen root) (begun s config traceparent randomTraceId root) calls ∧
      Runs.EveryStep step
        (fun w call => ∀ v ∈ w.step call,
          GivesParent (parentOf root w.started) w.state v.state call)
        (begun s config traceparent randomTraceId root) calls := by
  have htracked := Runs.always_of_steps (I := Tracked root)
    (fun _ _ _ h ha hv => tracked_step h ha hv)
    _ calls (begun_tracked hnone henabled traceparent randomTraceId) hallowed
  refine ⟨htracked.imp fun _ h => h.stack, ?_⟩
  exact Runs.EveryStep.imp_of_always (fun _ _ _ h _ ha _ hv => givesParent h.stack ha hv)
    htracked hallowed

/-- The outer span stops first, and once more after a third one was started. -/
theorem openStack_of_depth_outOfOrder :
    Runs.Always step (StackIsOpen lateId)
      (begun Spans.initial tracing none
        ⟨ascii "0af7651916cd43dd8448eb211c80319c", rfl, rfl, rfl⟩ lateId)
      [.start ⟨ascii "53995c3f42cd8ad8", rfl, rfl, rfl⟩ 0,
        .start ⟨ascii "00f067aa0ba902b7", rfl, rfl, rfl⟩ 1,
        .stop tracing 0 none none (.finite 0) [] {},
        .start ⟨ascii "a3ce929d0e0e4736", rfl, rfl, rfl⟩ 2,
        .stop tracing 0 none none (.finite 0) [] {}] :=
  (openStack_of_depth rfl (by decide) none _ _ (by decide)).1

end Watched

end ForgeOps.Spans
