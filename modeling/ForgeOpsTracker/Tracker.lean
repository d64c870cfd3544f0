import ForgeOpsTracker.Metrics
import ForgeOpsTracker.PerformanceSamples
import ForgeOpsTracker.Spans

/-! The calls of `forgeops_tracker.c` that end in a body for the client: performance records,
metrics of both kinds and every thread's spans, with the flushes that send them. Allocations
succeed. -/

namespace ForgeOps.Tracker
open JsonText

/-! ## Capturing a metric -/

def metricNumberSize : Nat := 64

/-- The fields of `forgeops_tracker_capture_metric`. -/
def metricFields (config : Configuration) (name : Bytes) (value : Double) : Bytes :=
  ascii "\"metric_name\":" ++ jsonString name ++
    ascii ",\"value\":" ++ Printf.snprintf metricNumberSize (Printf.general value) ++
    ascii ",\"environment\":" ++ jsonString (config.environment.getD []) ++
    ascii ",\"release\":" ++ jsonStringOrNull config.release

/-- The fields of `forgeops_tracker_capture_infrastructure_metric`. -/
def infrastructureMetricFields (config : Configuration) (name : Bytes) (value : Double)
    (hostname : Option Bytes) : Bytes :=
  ascii "\"metric_name\":" ++ jsonString name ++
    ascii ",\"value\":" ++ Printf.snprintf metricNumberSize (Printf.general value) ++
    ascii ",\"hostname\":" ++ jsonString ((hostname.or config.serverName).getD [])

/-- What both captures check before they encode the fields. -/
def capturedFields (config : Configuration) (name : Option Bytes) (value : Double)
    (fields : Bytes → Bytes) : Option Bytes :=
  match name with
  | none => none
  | some name => if ¬ config.isEnabled ∨ ¬ value.isfinite then none else some (fields name)

/-- `forgeops_tracker_capture_metric` -/
def captureMetric (s : Metrics.State) (config : Configuration) (name : Option Bytes)
    (value : Double) (now : Nat) : Metrics.State :=
  match capturedFields config name value fun name => metricFields config name value with
  | none => s
  | some fields => (Metrics.record s (some config) value (some fields) now true).1

/-- `forgeops_tracker_capture_infrastructure_metric` -/
def captureInfrastructureMetric (s : Metrics.State) (config : Configuration) (name : Option Bytes)
    (value : Double) (hostname : Option Bytes) (now : Nat) : Metrics.State :=
  match capturedFields config name value fun name =>
      infrastructureMetricFields config name value hostname with
  | none => s
  | some fields => (Metrics.record s (some config) value (some fields) now true).1

/-! ## The whole -/

/-- `bodies` are the ones the flushes have handed to the client so far. -/
structure State where
  performance : Performance.State Double
  metrics : Metrics.State
  infrastructure : Metrics.State
  threads : Nat → Spans.State
  bodies : List Bytes

def initial : State where
  performance := Performance.initial
  metrics := Metrics.initial
  infrastructure := Metrics.initial
  threads _ := Spans.initial
  bodies := []

/-- `forgeops_metric_kind_t` -/
inductive MetricKind
  | custom
  | infrastructure
  deriving DecidableEq, Repr

def State.buffer (s : State) : MetricKind → Metrics.State
  | .custom => s.metrics
  | .infrastructure => s.infrastructure

def State.setBuffer (s : State) (kind : MetricKind) (m : Metrics.State) : State :=
  match kind with
  | .custom => { s with metrics := m }
  | .infrastructure => { s with infrastructure := m }

inductive Call
  | recordPerformance (config : Option Configuration) (transactionName : Option Bytes)
      (durationMs : Double) (now : Nat)
  | flushPerformance (config : Configuration) (now : Nat)
  | performanceDelivered (i : Nat) (status : Int)
  | captureMetric (config : Configuration) (name : Option Bytes) (value : Double) (now : Nat)
  | captureInfrastructureMetric (config : Configuration) (name : Option Bytes) (value : Double)
      (hostname : Option Bytes) (now : Nat)
  | flushMetrics (kind : MetricKind)
  | metricsDelivered (kind : MetricKind) (i : Nat) (status : Int)
  | spans (thread : Nat) (action : Spans.Action)

/-- `forgeops_performance_flush` as far as the delivery. -/
def flushPerformance (s : State) (config : Configuration) (now : Nat) : State :=
  let p := s.performance
  { s with
    performance := Performance.flushSnapshot p now true
    bodies :=
      if p.buckets = [] then s.bodies
      else s.bodies ++ [Performance.samplesJson config p.buckets p.periodStartedAt now] }

/-- `forgeops_metrics_flush` as far as the delivery. -/
def flushMetrics (s : State) (kind : MetricKind) : State :=
  let m := s.buffer kind
  { s.setBuffer kind (Metrics.flushSnapshot m true) with
    bodies := if m.buffer.count = 0 then s.bodies
    else s.bodies ++ [Metrics.bodyText m.buffer.live] }

def step (s : State) : Call → Option State
  | .recordPerformance config name durationMs now =>
    some { s with performance := Performance.record s.performance config name durationMs now {} }
  | .flushPerformance config now => some (flushPerformance s config now)
  | .performanceDelivered i status =>
    (Performance.step s.performance (.flushSubtraction i status)).map fun p =>
      { s with performance := p }
  | .captureMetric config name value now =>
    some { s with metrics := captureMetric s.metrics config name value now }
  | .captureInfrastructureMetric config name value hostname now =>
    some { s with
      infrastructure :=
        captureInfrastructureMetric s.infrastructure config name value hostname now }
  | .flushMetrics kind => some (flushMetrics s kind)
  | .metricsDelivered kind i status =>
    (Metrics.step (s.buffer kind) (.flushRemoval i status)).map fun m => s.setBuffer kind m
  | .spans thread action =>
    (Spans.step (s.threads thread) action).map fun t =>
      { s with threads := Function.update s.threads thread t }

/-- A body is on its way: a flush has handed it over, or a thread's finished trace is queued. -/
def HandedOver (s : State) (body : Bytes) : Prop :=
  body ∈ s.bodies ∨ ∃ thread, body ∈ (s.threads thread).sent

end ForgeOps.Tracker
