import ForgeOpsTracker.Lib.Owner
import ForgeOpsTracker.OpenTrace
import ForgeOpsTracker.SpanStack

/-! The handles of traces (`forgeops_tracker.c`). Every start gives one, also a start inside a trace
that is open already, and only the handle whose start opened the trace may end it. Threads start and
stop traces and spans in any order; as long as a handle is stopped on the thread that started it,
what lies between one start and its stop is one trace, whatever is started and stopped in between
and by whom. -/

namespace ForgeOps.Tracing
open TraceParent Spans

/-- `forgeops_trace_t`, and the thread whose start it is. -/
structure TraceHandle where
  thread : Nat
  startedAtUnixMs : Int
  startedAtNs : Int
  owns : Bool
  deriving DecidableEq

structure State where
  threads : Nat → Spans.State
  handles : List TraceHandle

def initial : State := ⟨fun _ => Spans.initial, []⟩

/-- `(double)(now - started) / 1e6` -/
def elapsedMs (startedAtNs nowNs : Int) : Double :=
  match Double.round (nowNs - startedAtNs : Int) with
  | .finite ns => Double.round (ns / 1000000)
  | d => d

/-- `forgeops_tracker_trace_start_with_traceparent`; the clocks show `nowMs` and `nowNs`. -/
def traceStart (s : State) (thread : Nat) (config : Option Configuration)
    (traceparent : Option Bytes) (nowMs nowNs : Int) (randomTraceId : HexId 32)
    (rootSpanId : HexId 16) (allocated : Bool) : State :=
  let before := s.threads thread
  let after := traceBegin before config traceparent randomTraceId rootSpanId allocated
  { threads := Function.update s.threads thread after
    handles := s.handles ++ [⟨thread, nowMs, nowNs, before.trace.isNone && after.trace.isSome⟩] }

/-- `forgeops_tracker_trace_stop` of the handle that the `i`-th start gave. -/
def traceStop (s : State) (thread i : Nat) (config : Option Configuration)
    (rootName : Option Bytes) (nowNs : Int) (allocated : Bool) (alloc : Allocations) : State :=
  match s.handles[i]? with
  | none => s
  | some handle =>
    if handle.owns then
      { threads := Function.update s.threads thread
          (traceEnd (s.threads thread) config rootName handle.startedAtUnixMs
            (elapsedMs handle.startedAtNs nowNs) allocated alloc)
        handles := s.handles.set i { handle with owns := false } }
    else s

inductive Call
  | traceStart (thread : Nat) (config : Option Configuration) (traceparent : Option Bytes)
      (nowMs nowNs : Int) (randomTraceId : HexId 32) (rootSpanId : HexId 16) (allocated : Bool)
  | traceStop (thread i : Nat) (config : Option Configuration) (rootName : Option Bytes)
      (nowNs : Int) (allocated : Bool) (alloc : Allocations)
  | span (thread : Nat) (call : SpanCall)

def step (s : State) : Call → Option State
  | .traceStart thread config traceparent nowMs nowNs randomTraceId rootSpanId allocated =>
    some (traceStart s thread config traceparent nowMs nowNs randomTraceId rootSpanId allocated)
  | .traceStop thread i config rootName nowNs allocated alloc =>
    some (traceStop s thread i config rootName nowNs allocated alloc)
  | .span thread call =>
    (Spans.step (s.threads thread) call.action).map fun after =>
      { s with threads := Function.update s.threads thread after }

/-- A handle that may end a trace is stopped on its own thread. -/
def Home (s : State) : Call → Prop
  | .traceStop thread i .. => ∀ handle ∈ s.handles[i]?, handle.owns = true → handle.thread = thread
  | _ => True

/-- The call does not stop this handle. -/
def Call.Spares (k : Nat) : Call → Prop
  | .traceStop _ i .. => i ≠ k
  | _ => True

/-! ## The handles as a ledger of the threads -/

def TraceHandle.entry (handle : TraceHandle) : Owner.Handle Nat := ⟨handle.thread, handle.owns⟩

/-- A thread is held while it has a trace open. -/
def ledger (s : State) : Owner.Ledger Nat where
  held thread := (s.threads thread).trace.isSome
  handles := s.handles.map TraceHandle.entry

theorem ledger_home {s : State} {thread i : Nat}
    (h : ∀ handle ∈ s.handles[i]?, handle.owns = true → handle.thread = thread) :
    (ledger s).Home thread i := by
  intro entry hentry howns
  rw [ledger, List.getElem?_map] at hentry
  obtain ⟨handle, hhandle, rfl⟩ := Option.mem_map.mp hentry
  exact h handle hhandle howns

/-- The threads that have a trace, when one thread has changed. -/
theorem held_update (s : State) (thread : Nat) (after : Spans.State) :
    (fun other => (Function.update s.threads thread after other).trace.isSome) =
      Function.update (fun other => (s.threads other).trace.isSome) thread after.trace.isSome := by
  funext other
  by_cases hother : other = thread
  · rw [hother, Function.update_self, Function.update_self]
  · rw [Function.update_of_ne hother, Function.update_of_ne hother]

theorem ledger_traceStart (s : State) (thread : Nat) (config : Option Configuration)
    (traceparent : Option Bytes) (nowMs nowNs : Int) (randomTraceId : HexId 32)
    (rootSpanId : HexId 16) (allocated : Bool) :
    ∃ granted,
      ledger (traceStart s thread config traceparent nowMs nowNs randomTraceId rootSpanId
        allocated) = (ledger s).take thread granted := by
  refine ⟨(traceBegin (s.threads thread) config traceparent randomTraceId rootSpanId
    allocated).trace.isSome, ?_⟩
  have hopen :
      (traceBegin (s.threads thread) config traceparent randomTraceId rootSpanId
        allocated).trace.isSome = ((s.threads thread).trace.isSome ||
        (!(s.threads thread).trace.isSome &&
          (traceBegin (s.threads thread) config traceparent randomTraceId rootSpanId
            allocated).trace.isSome)) := by
    rcases traceBegin_cases (s.threads thread) config traceparent randomTraceId
      rootSpanId allocated with heq | ⟨hnone, trace, -, -, -, heq⟩
    · rw [heq]
      cases (s.threads thread).trace <;> rfl
    · rw [heq, hnone]
      rfl
  rw [ledger, traceStart, Owner.Ledger.take, List.map_append, held_update]
  simp only [ledger]
  rw [← hopen]
  cases (s.threads thread).trace <;> rfl

theorem ledger_traceStop (s : State) (thread i : Nat) (config : Option Configuration)
    (rootName : Option Bytes) (nowNs : Int) (allocated : Bool) (alloc : Allocations) :
    ledger (traceStop s thread i config rootName nowNs allocated alloc) =
      (ledger s).give thread i := by
  rw [traceStop, Owner.Ledger.give]
  simp only [ledger, List.getElem?_map]
  cases hi : s.handles[i]? with
  | none => rfl
  | some handle =>
    simp only [Option.map_some, TraceHandle.entry]
    cases handle.owns with
    | false => rfl
    | true =>
      simp only [if_true, held_update, (traceEnd_trace (s.threads thread) config rootName
        handle.startedAtUnixMs (elapsedMs handle.startedAtNs nowNs) allocated
        alloc).1, List.map_set]
      rfl

/-! ## What a trace keeps -/

/-- Nothing is ended and nothing is sent. -/
structure SpansOnly (s t : Spans.State) : Prop where
  sent : t.sent = s.sent
  isSome : t.trace.isSome = s.trace.isSome
  trace : ∀ before, s.trace = some before → ∃ after, t.trace = some after ∧ Continues before after

theorem SpansOnly.of_same {s t : Spans.State} (hsent : t.sent = s.sent)
    (htrace : t.trace = s.trace) : SpansOnly s t :=
  ⟨hsent, by rw [htrace], fun before h => ⟨before, htrace.trans h, .refl before⟩⟩

theorem SpansOnly.of_trace {s t : Spans.State} {before after : Trace} (hsent : t.sent = s.sent)
    (hbefore : s.trace = some before) (hafter : t.trace = some after) (h : Continues before after) :
    SpansOnly s t := by
  refine ⟨hsent, by rw [hbefore, hafter]; rfl, fun other hother => ⟨after, hafter, ?_⟩⟩
  obtain rfl : before = other := Option.some.inj (hbefore.symm.trans hother)
  exact h

theorem span_spansOnly {s t : Spans.State} {call : SpanCall}
    (ht : Spans.step s call.action = some t) : SpansOnly s t := by
  cases call with
  | start id startedAtUnixMs =>
    obtain rfl : start s id startedAtUnixMs = t := Option.some.inj ht
    cases htrace : s.trace with
    | none => exact .of_same (by simp only [start, htrace]) (by simp only [start, htrace])
    | some trace =>
      have hafter : (start s id startedAtUnixMs).trace = some { trace with
          openIds := if trace.openIds.length < maxDepth then trace.openIds ++ [id]
          else trace.openIds } := by
        simp only [start, htrace]
      exact .of_trace (by simp only [start, htrace]) htrace hafter
        ⟨rfl, rfl, rfl, rfl, List.prefix_refl _⟩
  | stop config i name kind durationMs data alloc =>
    obtain rfl : stop s (some config) i name kind durationMs data alloc = t := Option.some.inj ht
    rcases stop_cases s (some config) i name kind durationMs data alloc with
      ⟨-, heq⟩ | ⟨state, -, ⟨-, heq⟩ | ⟨trace, config', span, htrace, -, -, -, heq⟩⟩
    · rw [heq]
      exact .of_same rfl rfl
    · rw [heq]
      exact .of_same rfl rfl
    · rw [heq]
      have hclosed : Continues trace (trace.close state.id) :=
        ⟨rfl, rfl, rfl, rfl, List.prefix_refl _⟩
      exact .of_trace rfl htrace rfl (hclosed.trans (record_continues _ config' span alloc))
  | record config id name kind startedAtUnixMs durationMs data alloc =>
    obtain rfl : record s (some config) id name kind startedAtUnixMs durationMs data alloc = t :=
      Option.some.inj ht
    rcases record_cases s (some config) id name kind startedAtUnixMs durationMs data alloc with
      heq | ⟨trace, config', span, htrace, -, -, heq⟩
    · rw [heq]
      exact .of_same rfl rfl
    · rw [heq]
      exact .of_trace rfl htrace rfl (record_continues trace config' span alloc)

theorem ledger_span {s t : State} {thread : Nat} {call : SpanCall}
    (ht : step s (.span thread call) = some t) : ledger t = ledger s := by
  obtain ⟨after, hafter, rfl⟩ := Option.map_eq_some_iff.mp ht
  have hsame : after.trace.isSome = (s.threads thread).trace.isSome :=
    (span_spansOnly hafter).isSome
  rw [ledger, ledger, held_update, hsame]
  congr 1
  exact Function.update_eq_self thread _

theorem step_oneOwner (s : State) (call : Call) (t : State) (h : (ledger s).OneOwner)
    (hhome : Home s call) (ht : step s call = some t) : (ledger t).OneOwner := by
  cases call with
  | traceStart thread config traceparent nowMs nowNs randomTraceId rootSpanId allocated =>
    obtain rfl := Option.some.inj ht
    obtain ⟨granted, hledger⟩ :=
      ledger_traceStart s thread config traceparent nowMs nowNs randomTraceId rootSpanId allocated
    rw [hledger]
    exact Owner.Ledger.take_oneOwner h thread granted
  | traceStop thread i config rootName nowNs allocated alloc =>
    obtain rfl := Option.some.inj ht
    rw [ledger_traceStop]
    exact Owner.Ledger.give_oneOwner h (ledger_home hhome)
  | span thread call =>
    rw [ledger_span ht]
    exact h

theorem initial_oneOwner : (ledger initial).OneOwner := fun _ => rfl

/-! ## From a start to its stop -/

/-- The trace that the handle opened is open, the same since, and nothing was sent on its thread. -/
structure Open (thread k : Nat) (handle : TraceHandle) (trace : Trace) (sent : List Bytes)
    (s : State) : Prop where
  oneOwner : (ledger s).OneOwner
  handle : s.handles[k]? = some handle
  trace : ∃ after, (s.threads thread).trace = some after ∧ Continues trace after
  sent : (s.threads thread).sent = sent

theorem Open.of_thread {thread k : Nat} {handle : TraceHandle} {trace : Trace}
    {sent : List Bytes} {s t : State} (h : Open thread k handle trace sent s)
    (hone : (ledger t).OneOwner) (hhandle : t.handles[k]? = s.handles[k]?)
    (hthread : SpansOnly (s.threads thread) (t.threads thread)) :
    Open thread k handle trace sent t := by
  obtain ⟨after, hafter, hcontinues⟩ := h.trace
  obtain ⟨later, hlater, hstill⟩ := hthread.trace after hafter
  exact ⟨hone, hhandle.trans h.handle, ⟨later, hlater, hcontinues.trans hstill⟩,
    hthread.sent.trans h.sent⟩

theorem ledger_owner {s : State} {i : Nat} {handle : TraceHandle} (hi : s.handles[i]? = some handle)
    (howns : handle.owns = true) : (ledger s).handles[i]? = some (Owner.owner handle.thread) := by
  rw [ledger, List.getElem?_map, hi, Option.map_some, TraceHandle.entry, howns]
  rfl

/-- Whatever any thread does, an open trace goes on until its own handle is stopped. -/
theorem step_open {k : Nat} {handle : TraceHandle} (howns : handle.owns = true) {trace : Trace}
    {sent : List Bytes} (s : State) (call : Call) (t : State)
    (h : Open handle.thread k handle trace sent s) (hcall : Home s call ∧ call.Spares k)
    (ht : step s call = some t) : Open handle.thread k handle trace sent t := by
  have hone := step_oneOwner s call t h.oneOwner hcall.1 ht
  have hlt : k < s.handles.length := (List.getElem?_eq_some_iff.mp h.handle).1
  cases call with
  | traceStart thread config traceparent nowMs nowNs randomTraceId rootSpanId allocated =>
    obtain rfl := Option.some.inj ht
    refine h.of_thread hone (List.getElem?_append_left hlt) ?_
    show SpansOnly _ (Function.update s.threads thread _ handle.thread)
    by_cases hthread : handle.thread = thread
    · obtain ⟨after, hafter, -⟩ := h.trace
      rw [hthread, Function.update_self]
      rcases traceBegin_cases (s.threads thread) config traceparent randomTraceId
        rootSpanId allocated with heq | ⟨hnone, -⟩
      · rw [heq]
        exact .of_same rfl rfl
      · rw [hthread, hnone] at hafter
        exact absurd hafter (by simp)
    · rw [Function.update_of_ne hthread]
      exact .of_same rfl rfl
  | traceStop thread i config rootName nowNs allocated alloc =>
    obtain rfl := Option.some.inj ht
    obtain ⟨hhome, hspares⟩ := hcall
    unfold traceStop at hone ⊢
    cases hi : s.handles[i]? with
    | none => exact h
    | some other =>
      simp only [hi] at hone ⊢
      split
      swap
      · exact h
      rename_i hother
      rw [if_pos hother] at hone
      refine h.of_thread hone (List.getElem?_set_ne hspares) ?_
      -- a handle that owns the thread's trace is this one
      have hthread : handle.thread ≠ thread := by
        rintro hthread
        have hsame : other.thread = handle.thread := (hhome other hi hother).trans hthread.symm
        exact hspares (h.oneOwner.eq_of_owns (hsame ▸ ledger_owner hi hother)
          (ledger_owner h.handle howns))
      show SpansOnly _ (Function.update s.threads thread _ handle.thread)
      rw [Function.update_of_ne hthread]
      exact .of_same rfl rfl
  | span thread call =>
    obtain ⟨after, hafter, rfl⟩ := Option.map_eq_some_iff.mp ht
    refine h.of_thread hone rfl ?_
    show SpansOnly _ (Function.update s.threads thread _ handle.thread)
    by_cases hthread : handle.thread = thread
    · rw [hthread, Function.update_self]
      exact span_spansOnly hafter
    · rw [Function.update_of_ne hthread]
      exact .of_same rfl rfl

/-! ## A handle that was stopped -/

def Spent (k : Nat) (s : State) : Prop :=
  ∃ handle, s.handles[k]? = some handle ∧ handle.owns = false

theorem Spent.traceStop {k : Nat} {s : State} (h : Spent k s) (thread : Nat)
    (config : Option Configuration) (rootName : Option Bytes) (nowNs : Int) (allocated : Bool)
    (alloc : Allocations) : traceStop s thread k config rootName nowNs allocated alloc = s := by
  obtain ⟨handle, hhandle, hspent⟩ := h
  rw [Tracing.traceStop, hhandle]
  exact if_neg (by rw [hspent]; exact Bool.false_ne_true)

/-- It stays so, whatever is called. -/
theorem step_spent (k : Nat) (s : State) (call : Call) (t : State) (h : Spent k s)
    (ht : step s call = some t) : Spent k t := by
  obtain ⟨handle, hhandle, hspent⟩ := h
  cases call with
  | traceStart =>
    obtain rfl := Option.some.inj ht
    exact ⟨handle, (List.getElem?_append_left (List.getElem?_eq_some_iff.mp hhandle).1).trans
      hhandle, hspent⟩
  | traceStop thread i =>
    obtain rfl := Option.some.inj ht
    by_cases hk : i = k
    · subst hk
      rw [Spent.traceStop ⟨handle, hhandle, hspent⟩]
      exact ⟨handle, hhandle, hspent⟩
    · refine ⟨handle, ?_, hspent⟩
      unfold traceStop
      split
      · exact hhandle
      · split
        · exact (List.getElem?_set_ne hk).trans hhandle
        · exact hhandle
  | span =>
    obtain ⟨after, -, rfl⟩ := Option.map_eq_some_iff.mp ht
    exact ⟨handle, hhandle, hspent⟩

/-- One start on a thread without a trace and the stop of its handle make one trace. Whatever any
threads start and stop between the two, further traces and earlier handles among it, the trace stays
open with its own id and sends nothing; the stop ends it, sends it at most once with the start and
the time of its own handle, and a further stop does nothing, whatever was called since. -/
theorem trace_of_handle {before inside : List Call} {s u : State}
    (hbefore : Runs.exec step initial before = some s)
    (hhome : Runs.EveryStep step Home initial before) {thread : Nat}
    (hnone : (s.threads thread).trace = none) {config : Configuration}
    (henabled : config.isEnabled = true) (traceparent : Option Bytes) (nowMs nowNs : Int)
    (randomTraceId : HexId 32) (rootSpanId : HexId 16)
    (hinside : Runs.exec step
      (traceStart s thread (some config) traceparent nowMs nowNs randomTraceId rootSpanId true)
      inside = some u)
    (hspares : Runs.EveryStep step (fun t call => Home t call ∧ call.Spares s.handles.length)
      (traceStart s thread (some config) traceparent nowMs nowNs randomTraceId rootSpanId true)
      inside)
    (endConfig : Configuration) (rootName : Option Bytes) (endNs : Int) (allocated : Bool)
    (alloc : Allocations) :
    let v := traceStop u thread s.handles.length (some endConfig) rootName endNs allocated alloc
    ∃ trace, (u.threads thread).trace = some trace ∧
      Continues (opened config traceparent randomTraceId rootSpanId) trace ∧
      (u.threads thread).sent = (s.threads thread).sent ∧ (v.threads thread).trace = none ∧
      (v.threads thread).sent = (s.threads thread).sent ++
        (if trace.isSent endConfig (elapsedMs nowNs endNs) = true ∧ allocated = true then
          [trace.body endConfig (trace.root rootName nowMs (elapsedMs nowNs endNs)) alloc]
        else []) ∧
      ∀ after w,
      Runs.exec step v after = some w → ∀ thread' config' rootName' nowNs' allocated' alloc',
        traceStop w thread' s.handles.length config' rootName' nowNs' allocated' alloc' = w := by
  intro v
  have hbegin := traceBegin_opened hnone henabled traceparent randomTraceId rootSpanId
  have hone : (ledger s).OneOwner :=
    (Runs.always_of_steps step_oneOwner initial before initial_oneOwner hhome).last hbefore
  have hstart : Open thread s.handles.length ⟨thread, nowMs, nowNs, true⟩
      (opened config traceparent randomTraceId rootSpanId) (s.threads thread).sent
      (traceStart s thread (some config) traceparent nowMs nowNs randomTraceId
        rootSpanId true) := by
    refine ⟨step_oneOwner s (.traceStart ..) _ hone trivial rfl, ?_, ?_, ?_⟩
    · rw [traceStart, List.getElem?_concat_length, hbegin, hnone]
      rfl
    · refine ⟨_, ?_, .refl _⟩
      show (Function.update s.threads thread _ thread).trace = _
      rw [Function.update_self, hbegin]
    · show (Function.update s.threads thread _ thread).sent = _
      rw [Function.update_self, hbegin]
  have hopen : Open thread s.handles.length ⟨thread, nowMs, nowNs, true⟩
      (opened config traceparent randomTraceId rootSpanId) (s.threads thread).sent u :=
    (Runs.always_of_steps (@step_open _ ⟨thread, nowMs, nowNs, true⟩ rfl _ _) _ inside hstart
      hspares).last hinside
  obtain ⟨trace, htrace, hcontinues⟩ := hopen.trace
  have hv : v = ⟨Function.update u.threads thread (traceEnd (u.threads thread)
      (some endConfig) rootName nowMs (elapsedMs nowNs endNs) allocated alloc),
      u.handles.set s.handles.length ⟨thread, nowMs, nowNs, false⟩⟩ := by
    show traceStop u thread s.handles.length (some endConfig) rootName endNs allocated alloc = _
    rw [traceStop, hopen.handle]
    rfl
  have hend : v.threads thread =
      traceEnd (u.threads thread) (some endConfig) rootName nowMs
      (elapsedMs nowNs endNs) allocated alloc := by
    rw [hv]
    exact Function.update_self ..
  refine ⟨trace, htrace, hcontinues, hopen.sent, ?_, ?_, ?_⟩
  · rw [hend]
    simp only [traceEnd, htrace]
  · rw [hend]
    simp only [traceEnd, htrace]
    split
    · rw [hopen.sent]
    · rw [List.append_nil, hopen.sent]
  · intro after w hafter
    have hlt : s.handles.length < u.handles.length := (List.getElem?_eq_some_iff.mp hopen.handle).1
    have hspent : Spent s.handles.length v := by
      rw [hv]
      exact ⟨_, List.getElem?_set_self hlt, rfl⟩
    exact (Runs.reachable_invariant (step_spent _) hspent ⟨after, hafter⟩).traceStop

def serverTrace : HexId 32 := ⟨ascii "7a11cafe51916cd43dd8448eb2110bad", rfl, rfl, rfl⟩
def serverRoot : HexId 16 := ⟨ascii "0b5e55ed0b5e55ed", rfl, rfl, rfl⟩

/-- Another thread has its own trace meanwhile, and a library on this one brackets a trace of its
own. -/
def meanwhile : List Call :=
  [.traceStart 1 (some tracing) none 5 5 serverTrace lateId true,
    .traceStart 0 (some tracing) none 6 6 serverTrace lateId true, .span 0 (.start lateId 7),
    .traceStop 0 2 (some tracing) (some (ascii "library")) 8 true {},
    .span 0 (.stop tracing 0 (some (ascii "load")) none (.finite 2) [] {}),
    .traceStop 1 1 (some tracing) none 9 true {}]

theorem meanwhile_spares : Runs.EveryStep step (fun t call => Home t call ∧ call.Spares 0)
    (traceStart initial 0 (some tracing) none 1 1 serverTrace serverRoot true) meanwhile := by
  intro t ht
  obtain rfl := Option.some.inj ht
  refine ⟨⟨trivial, trivial⟩, fun t ht => ?_⟩
  obtain rfl := Option.some.inj ht
  refine ⟨⟨trivial, trivial⟩, fun t ht => ?_⟩
  obtain rfl := Option.some.inj ht
  refine ⟨⟨trivial, trivial⟩, fun t ht => ?_⟩
  obtain rfl := Option.some.inj ht
  refine ⟨⟨fun handle hhandle _ => Option.some.inj hhandle ▸ rfl, Nat.succ_ne_zero 1⟩,
    fun t ht => ?_⟩
  obtain rfl := Option.some.inj ht
  refine ⟨⟨trivial, trivial⟩, fun t ht => ?_⟩
  obtain rfl := Option.some.inj ht
  exact ⟨⟨fun handle hhandle _ => Option.some.inj hhandle ▸ rfl, Nat.succ_ne_zero 0⟩, trivial⟩

/-- The trace is sent after its two seconds, and the handle stopped once more ends no later
trace. -/
theorem trace_of_handle_meanwhile : ∃ u trace,
    Runs.exec step (traceStart initial 0 (some tracing) none 1 1 serverTrace serverRoot true)
      meanwhile = some u ∧ Continues (opened tracing none serverTrace serverRoot) trace ∧
      let v := traceStop u 0 0 (some tracing) none 2000000001 true {}
      (v.threads 0).sent = [trace.body tracing (trace.root none 1 (.finite 2000)) {}] ∧
      let w := traceStart v 0 (some tracing) none 9 9 serverTrace lateId true
      (w.threads 0).trace.isSome ∧ traceStop w 0 0 (some tracing) none 9 true {} = w := by
  have hinside :
      Runs.exec step
        (traceStart initial 0 (some tracing) none 1 1 serverTrace serverRoot true) meanwhile =
    some _ := rfl
  have hbefore : Runs.exec step initial [] = some initial := rfl
  obtain ⟨trace, -, hcontinues, -, -, hsent, hagain⟩ :=
    trace_of_handle hbefore trivial rfl (by decide) none 1 1
    serverTrace serverRoot hinside meanwhile_spares tracing none 2000000001 true {}
  have helapsed : elapsedMs 1 2000000001 = .finite 2000 := by decide +kernel
  have hlong : trace.isSent tracing (.finite 2000) = true := by
    rw [Trace.isSent, hcontinues.send]
    decide
  rw [helapsed, if_pos ⟨hlong, rfl⟩] at hsent
  exact ⟨_, trace, hinside, hcontinues, hsent, rfl,
    hagain [.traceStart 0 (some tracing) none 9 9 serverTrace lateId true] _ rfl 0 _ _ _ _ _⟩

end ForgeOps.Tracing
