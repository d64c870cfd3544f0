import ForgeOpsTracker.Lib.Unwinding
import ForgeOpsTracker.Sdk

/-! What a configuration that is not enabled keeps back: a capture with it changes nothing, so where
every capture is of that kind nothing is ever sent, whatever else the threads call. -/

namespace ForgeOps.Sdk

/-- The configuration that a call captures with. -/
def Call.capturing : Call → Option Configuration
  | .captureError _ config _ _ _ => some config
  | .recordChange config _ _ => some config
  | .tracker (.recordPerformance config _ _ _) => config
  | .tracker (.captureMetric config _ _ _) => some config
  | .tracker (.captureInfrastructureMetric config _ _ _ _) => some config
  | .tracker (.spans _ (.traceBegin config _ _ _ _)) => config
  | _ => none

/-- A capture while the configuration is not enabled. -/
def Call.silenced (call : Call) : Bool := call.capturing.any fun config => !config.isEnabled

theorem disabled_of_silenced {call : Call} {config : Configuration} (h : call.silenced = true)
    (hcapturing : call.capturing = some config) : config.isEnabled = false := by
  rw [Call.silenced, hcapturing] at h
  simpa using h

theorem capturedFields_disabled {config : Configuration} (h : config.isEnabled = false)
    (name : Option Bytes) (value : Double) (fields : Bytes → Bytes) :
    Tracker.capturedFields config name value fields = none := by
  cases name with
  | none => rfl
  | some name => exact if_pos (.inl (by rw [h]; exact Bool.false_ne_true))

theorem tracker_silenced {call : Tracker.Call}
    (hoff : ∀ {config : Configuration}, (Call.tracker call).capturing = some config →
      config.isEnabled = false)
    (h : (Call.tracker call).silenced = true) (s : Tracker.State) :
    Tracker.step s call = some s := by
  cases call with
  | recordPerformance config name durationMs now =>
    cases config with
    | none => exact absurd h Bool.false_ne_true
    | some config =>
      have hrecord : Performance.record s.performance (some config) name durationMs now {} =
          s.performance := by
        cases name with
        | none => rfl
        | some name =>
          rw [Performance.record, if_neg fun htracks => by
            rw [hoff rfl] at htracks; exact Bool.false_ne_true htracks.2]
      show some { s with
        performance := Performance.record s.performance (some config) name durationMs now {} } = _
      rw [hrecord]
  | captureMetric config name value now =>
    show some { s with metrics := Tracker.captureMetric s.metrics config name value now } = _
    rw [Tracker.captureMetric, capturedFields_disabled (hoff rfl)]
  | captureInfrastructureMetric config name value hostname now =>
    show some { s with infrastructure :=
      Tracker.captureInfrastructureMetric s.infrastructure config name value hostname now } = _
    rw [Tracker.captureInfrastructureMetric, capturedFields_disabled (hoff rfl)]
  | spans thread action =>
    cases action with
    | traceBegin config traceparent randomTraceId rootSpanId allocated =>
      cases config with
      | none => exact absurd h Bool.false_ne_true
      | some config =>
        have hbegin : Spans.traceBegin (s.threads thread)
            (some config) traceparent randomTraceId rootSpanId allocated = s.threads thread := by
          unfold Spans.traceBegin
          split
          · rename_i config' hconfig hnone
            obtain rfl := Option.some.inj hconfig
            rw [if_neg fun hbegins => by
              rw [hoff rfl] at hbegins; exact Bool.false_ne_true hbegins.1]
          · rfl
        show some { s with threads := Function.update s.threads thread _ } = _
        rw [hbegin, Function.update_eq_self]
    | traceEnd config rootName startedAtUnixMs durationMs allocated alloc =>
      exact absurd h Bool.false_ne_true
    | start id startedAtUnixMs => exact absurd h Bool.false_ne_true
    | stop config i name kind durationMs data alloc => exact absurd h Bool.false_ne_true
    | record config id name kind startedAtUnixMs durationMs data alloc =>
      exact absurd h Bool.false_ne_true
  | flushPerformance config now => exact absurd h Bool.false_ne_true
  | performanceDelivered i status => exact absurd h Bool.false_ne_true
  | flushMetrics kind => exact absurd h Bool.false_ne_true
  | metricsDelivered kind i status => exact absurd h Bool.false_ne_true

/-- It leaves all as it was. -/
theorem step_silenced {call : Call} (h : call.silenced = true) (s : State) :
    step s call = some s := by
  have hoff : ∀ {config : Configuration}, call.capturing = some config → config.isEnabled = false :=
    disabled_of_silenced h
  cases call with
  | captureError thread config capture symbols now =>
    show some (captureError s thread config capture symbols now) = _
    rw [captureError, if_neg (by rw [hoff rfl]; exact Bool.false_ne_true)]
  | recordChange config change now =>
    show some (recordChange s config change now) = _
    rw [recordChange, if_neg (by rw [hoff rfl]; exact Bool.false_ne_true)]
  | setUser thread pairs => exact absurd h Bool.false_ne_true
  | breadcrumb thread event => exact absurd h Bool.false_ne_true
  | tracker call =>
    have hsame : Tracker.step s.tracker call = some s.tracker := tracker_silenced hoff h s.tracker
    show (Tracker.step s.tracker call).map _ = _
    rw [hsame]
    rfl

/-- So a run does as well without such captures. -/
theorem exec_silenced (calls : List Call) (s : State) :
    Runs.exec step s calls = Runs.exec step s (calls.filter fun call => !call.silenced) := by
  induction calls generalizing s with
  | nil => rfl
  | cons call calls ih =>
    cases hsilenced : call.silenced with
    | true =>
      rw [Runs.exec_cons, step_silenced hsilenced, Option.bind_some, ih,
        List.filter_cons_of_neg (by simp [hsilenced])]
    | false =>
      rw [List.filter_cons_of_pos (by simp [hsilenced]), Runs.exec_cons, Runs.exec_cons]
      congr 1
      funext t
      exact ih t

/-! ## Without captures -/

/-- Nothing waits to be sent, and nothing was. -/
structure Silent (s : State) : Prop where
  performance : s.tracker.performance.buckets = [] ∧ s.tracker.performance.flushes = []
  metrics : s.tracker.metrics.buffer.count = 0 ∧ s.tracker.metrics.flushes = []
  infrastructure : s.tracker.infrastructure.buffer.count = 0 ∧ s.tracker.infrastructure.flushes = []
  threads : ∀ thread, (s.tracker.threads thread).trace = none ∧ (s.tracker.threads thread).sent = []
  bodies : s.tracker.bodies = []
  changes : s.changes = []
  written : s.written = []

theorem initial_silent : Silent initial where
  performance := ⟨rfl, rfl⟩
  metrics := ⟨rfl, rfl⟩
  infrastructure := ⟨rfl, rfl⟩
  threads _ := ⟨rfl, rfl⟩
  bodies := rfl
  changes := rfl
  written := rfl

theorem Silent.buffer {s : State} (h : Silent s) (kind : Tracker.MetricKind) :
    (s.tracker.buffer kind).buffer.count = 0 ∧ (s.tracker.buffer kind).flushes = [] := by
  cases kind with
  | custom => exact h.metrics
  | infrastructure => exact h.infrastructure

theorem spans_silent {s t : Spans.State} (hs : s.trace = none ∧ s.sent = []) {action : Spans.Action}
    (hquiet : ∀ config traceparent randomTraceId rootSpanId allocated,
      action ≠ .traceBegin (some config) traceparent randomTraceId rootSpanId allocated)
    (ht : Spans.step s action = some t) : t.trace = none ∧ t.sent = [] := by
  obtain ⟨trace, handles, sent⟩ := s
  obtain ⟨hnone, hsent⟩ := hs
  dsimp only at hnone hsent
  subst hnone hsent
  cases action with
  | traceBegin config traceparent randomTraceId rootSpanId allocated =>
    cases config with
    | none =>
      obtain rfl := Option.some.inj ht
      exact ⟨rfl, rfl⟩
    | some config => exact absurd rfl (hquiet config traceparent randomTraceId rootSpanId allocated)
  | traceEnd config rootName startedAtUnixMs durationMs allocated alloc =>
    obtain rfl := Option.some.inj ht
    exact ⟨rfl, rfl⟩
  | start id startedAtUnixMs =>
    obtain rfl := Option.some.inj ht
    exact ⟨rfl, rfl⟩
  | stop config i name kind durationMs data alloc =>
    obtain rfl := Option.some.inj ht
    unfold Spans.stop
    split <;> exact ⟨rfl, rfl⟩
  | record config id name kind startedAtUnixMs durationMs data alloc =>
    obtain rfl := Option.some.inj ht
    exact ⟨rfl, rfl⟩

/-- A call that captures nothing leaves it so. -/
theorem Silent.step {s t : State} (h : Silent s) {call : Call} (hnone : call.capturing = none)
    (ht : step s call = some t) : Silent t := by
  cases call with
  | captureError thread config capture symbols now => exact absurd hnone (Option.some_ne_none _)
  | recordChange config change now => exact absurd hnone (Option.some_ne_none _)
  | setUser thread pairs =>
    obtain rfl := Option.some.inj ht
    exact ⟨h.performance, h.metrics, h.infrastructure, h.threads, h.bodies, h.changes, h.written⟩
  | breadcrumb thread event =>
    obtain rfl := Option.some.inj ht
    exact ⟨h.performance, h.metrics, h.infrastructure, h.threads, h.bodies, h.changes, h.written⟩
  | tracker call =>
    obtain ⟨u, hu, rfl⟩ := Option.map_eq_some_iff.mp ht
    obtain ⟨hbuckets, hflushes⟩ := h.performance
    cases call with
    | recordPerformance config name durationMs now =>
      obtain rfl : config = none := hnone
      obtain rfl := Option.some.inj hu
      exact ⟨h.performance, h.metrics, h.infrastructure, h.threads, h.bodies, h.changes, h.written⟩
    | flushPerformance config now =>
      obtain rfl := Option.some.inj hu
      refine ⟨?_, h.metrics, h.infrastructure, h.threads, ?_, h.changes, h.written⟩
      · have hsnapshot : Performance.flushSnapshot s.tracker.performance now true =
            s.tracker.performance := by
          rw [Performance.flushSnapshot, if_pos (.inl hbuckets)]
        show (Performance.flushSnapshot s.tracker.performance now true).buckets = [] ∧
          (Performance.flushSnapshot s.tracker.performance now true).flushes = []
        rw [hsnapshot]
        exact h.performance
      · show (if s.tracker.performance.buckets = [] then s.tracker.bodies else _) = _
        rw [if_pos hbuckets]
        exact h.bodies
    | performanceDelivered i status =>
      obtain ⟨p, hp, -⟩ := Option.map_eq_some_iff.mp hu
      obtain ⟨f, hf, -⟩ := Option.map_eq_some_iff.mp hp
      rw [hflushes] at hf
      exact absurd hf (by simp)
    | captureMetric config name value now => exact absurd hnone (Option.some_ne_none _)
    | captureInfrastructureMetric config name value hostname now =>
      exact absurd hnone (Option.some_ne_none _)
    | flushMetrics kind =>
      obtain rfl := Option.some.inj hu
      have hcount := (h.buffer kind).1
      have hsnapshot : Metrics.flushSnapshot (s.tracker.buffer kind) true =
          s.tracker.buffer kind := by
        rw [Metrics.flushSnapshot, if_pos (.inl hcount)]
      have hsame : Tracker.flushMetrics s.tracker kind = s.tracker := by
        unfold Tracker.flushMetrics
        dsimp only
        rw [hsnapshot, if_pos hcount]
        cases kind <;> rfl
      rw [hsame]
      exact ⟨h.performance, h.metrics, h.infrastructure, h.threads, h.bodies, h.changes, h.written⟩
    | metricsDelivered kind i status =>
      obtain ⟨m, hm, -⟩ := Option.map_eq_some_iff.mp hu
      obtain ⟨f, hf, -⟩ := Option.map_eq_some_iff.mp hm
      rw [(h.buffer kind).2] at hf
      exact absurd hf (by simp)
    | spans thread action =>
      obtain ⟨v, hv, rfl⟩ := Option.map_eq_some_iff.mp hu
      refine ⟨h.performance, h.metrics, h.infrastructure, fun other => ?_, h.bodies,
        h.changes, h.written⟩
      by_cases heq : other = thread
      · subst heq
        simp only [Function.update_self]
        refine spans_silent (h.threads other)
          (fun config traceparent randomTraceId rootSpanId allocated hbegin => ?_) hv
        rw [hbegin] at hnone
        exact absurd hnone (Option.some_ne_none config)
      · simpa only [Function.update_of_ne heq] using h.threads other

theorem Silent.run {s t : State} (h : Silent s) {calls : List Call}
    (hnone : ∀ call ∈ calls, call.capturing = none)
    (ht : Runs.exec Sdk.step s calls = some t) : Silent t := by
  induction calls generalizing s with
  | nil =>
    obtain rfl := Option.some.inj ht
    exact h
  | cons call calls ih =>
    obtain ⟨hcall, hrest⟩ := List.forall_mem_cons.mp hnone
    obtain ⟨u, hu, hexec⟩ := Option.bind_eq_some_iff.mp ht
    exact ih (h.step hcall hu) hrest hexec

/-- While no capture finds its configuration enabled, the calls of all the threads send nothing, no
body, no trace, no change and no report, and nothing is kept to be sent. -/
theorem sent_nothing {calls : List Call} {s : State} (h : Runs.exec step initial calls = some s)
    (hdisabled : ∀ call ∈ calls, ∀ config ∈ call.capturing, config.isEnabled = false) :
    s.sent = nothing ∧ s.tracker.performance.buckets = [] ∧
      (∀ kind, (s.tracker.buffer kind).buffer.count = 0) ∧
      ∀ thread, (s.tracker.threads thread).trace = none := by
  have hnone : ∀ call ∈ calls.filter fun call => !call.silenced, call.capturing = none := by
    intro call hcall
    obtain ⟨hmem, hloud⟩ := List.mem_filter.mp hcall
    cases hcapturing : call.capturing with
    | none => rfl
    | some config =>
      have hoff := hdisabled call hmem config hcapturing
      rw [Call.silenced, hcapturing, Option.any_some, hoff] at hloud
      exact absurd hloud Bool.false_ne_true
  rw [exec_silenced] at h
  generalize (calls.filter fun call => !call.silenced) = quiet at h hnone
  have hs : Silent s := initial_silent.run hnone h
  refine ⟨?_, hs.performance.1, fun kind => (hs.buffer kind).1, fun thread => (hs.threads thread).1⟩
  show Sent.mk _ _ _ _ = Sent.mk _ _ _ _
  rw [hs.bodies, hs.changes, hs.written]
  congr 1
  funext thread
  exact (hs.threads thread).2

/-- "development" is not among the environments that report. -/
def atHome : Configuration :=
  { dsn := some (ascii "https://k@h"), environment := some (ascii "development") }

def runAtHome : List Call :=
  [.setUser 0 [(ascii "id", ascii "42")],
    .tracker (.spans 0 (.traceBegin (some atHome) none
      ⟨ascii "c0ffee51916cd43dd8448eb211c80a17", rfl, rfl, rfl⟩
      ⟨ascii "51d1ab1e00c0ffee", rfl, rfl, rfl⟩ true)),
    .tracker (.recordPerformance (some atHome) (some (ascii "GET /")) (.finite 5) 0),
    .tracker (.captureMetric atHome (some (ascii "orders")) (.finite 1) 0),
    .captureError 1 atHome { message := some (ascii "no such table") } none 0,
    .recordChange {} { title := some (ascii "deploy") } 0,
    .tracker (.flushMetrics .custom),
    .tracker (.flushPerformance {} 60)]

theorem sent_nothing_runAtHome : ∃ s, Runs.exec step initial runAtHome = some s ∧ s.sent = nothing ∧
    s.tracker.performance.buckets = [] ∧ (∀ kind, (s.tracker.buffer kind).buffer.count = 0) ∧
      ∀ thread, (s.tracker.threads thread).trace = none := by
  have hrun : Runs.exec step initial runAtHome = some _ := rfl
  exact ⟨_, hrun, sent_nothing hrun (by decide)⟩

end ForgeOps.Sdk
