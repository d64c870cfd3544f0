import ForgeOpsTracker.PerformanceValues
import ForgeOpsTracker.Reporter
import ForgeOpsTracker.Requests
import ForgeOpsTracker.Tracker

/-! `forgeops_tracker_flush`, no other flush being under way: the pending reports, the performance
buckets and the two metric buffers, each with the requests it makes and what its answers leave. -/

namespace ForgeOps.Performance
open Client

variable {δ : Type*} [Zero δ] [Add δ] [Sub δ] [LT δ] [DecidableLT δ]

omit [Add δ] in
/-- Buckets less all they hold are none. -/
theorem subtractAll_self {buckets : List (Bucket δ)} (h : DistinctNames buckets) :
    buckets.foldl subtractOne buckets = [] := by
  rw [List.eq_nil_iff_forall_not_mem]
  intro b hb
  have hfind := (findBucket_subtractAll b.name h h).2
  have hnone : findBucket b.name (buckets.foldl subtractOne buckets) = none := by
    rw [hfind]
    cases findBucket b.name buckets with
    | none => rfl
    | some found =>
      have hcount : (found.subtract found).count = 0 := by rw [Bucket.count_subtract, Nat.sub_self]
      exact if_pos hcount
  have hother := List.find?_eq_none.mp hnone b hb
  simp at hother

/-- What a flush leaves that came back with this status, nobody else having touched the buckets. -/
structure Flushed (s t : State δ) (status : Int) : Prop where
  flushes : t.flushes = []
  gone : letsGo s status = true → t.buckets = [] ∧ t.consecutiveFailures = 0
  kept : letsGo s status = false → t.buckets = s.buckets ∧
    t.consecutiveFailures = s.consecutiveFailures + 1

omit [Add δ] in
theorem flushSubtraction_alone {s : State δ} {f : Flush δ} (hf : f.snapshot = s.buckets)
    (hquiet : s.flushes = []) (hd : DistinctNames s.buckets) (status : Int) :
    Flushed s (flushSubtraction s f status) status := by
  refine ⟨?_, fun hgo => ?_, fun hstay => ?_⟩
  · unfold flushSubtraction
    dsimp only
    split
    · exact hquiet
    · exact hquiet
  · unfold flushSubtraction
    dsimp only
    rw [if_pos hgo, hf]
    exact ⟨subtractAll_self hd, rfl⟩
  · rw [flushSubtraction_kept f hstay]
    exact ⟨rfl, rfl⟩

theorem flush_alone {s : State δ} (hquiet : s.flushes = []) (hd : DistinctNames s.buckets)
    (hne : s.buckets ≠ []) (now : Nat) (status : Int) :
    ∃ t, step (flushSnapshot s now true) (.flushSubtraction 0 status) = some t ∧
    Flushed s t status := by
  have hsnapshot : flushSnapshot s now true =
      { s with
        flushes := [⟨s.buckets, s.periodStartedAt, now, s.accepted.length,
          s.settled.length⟩] } := by
    rw [flushSnapshot, if_neg (by simp [hne]), hquiet, List.nil_append]
  have halone := flushSubtraction_alone (s := { s with flushes := [] })
    (f := ⟨s.buckets, s.periodStartedAt, now, s.accepted.length, s.settled.length⟩)
      rfl rfl hd status
  rw [hsnapshot]
  exact ⟨_, rfl, halone.flushes, halone.gone, halone.kept⟩

end ForgeOps.Performance

namespace ForgeOps.Metrics
open Client

/-- What a flush leaves that came back with this status, nobody else having touched the buffer. -/
structure Flushed (s t : State) (status : Int) : Prop where
  flushes : t.flushes = []
  gone : letsGo s.buffer status = true → t.buffer.count = 0 ∧ t.buffer.consecutiveFailures = 0
  kept : letsGo s.buffer status = false → t.buffer.live = s.buffer.live ∧
    t.buffer.count = s.buffer.count ∧ t.buffer.consecutiveFailures =
    s.buffer.consecutiveFailures + 1

theorem flush_alone {s : State} (hquiet : s.flushes = []) (hne : s.buffer.count ≠ 0)
    (status : Int) :
    ∃ t, step (flushSnapshot s true) (.flushRemoval 0 status) = some t ∧ Flushed s t status := by
  have hsnapshot : flushSnapshot s true =
      { s with flushes := [⟨s.buffer.count, s.buffer.live⟩] } := by
    rw [flushSnapshot, if_neg (by simp [hne]), hquiet, List.nil_append]
  rw [hsnapshot]
  refine ⟨_, rfl, ?_, fun hgo => ?_, fun hstay => ?_⟩
  · unfold flushRemoval
    dsimp only
    split <;> rfl
  · unfold flushRemoval
    dsimp only
    rw [if_pos hgo]
    refine ⟨?_, rfl⟩
    show sizeSub s.buffer.count s.buffer.count = 0
    rw [sizeSub, if_pos (Nat.le_refl _), Nat.sub_self]
  · unfold flushRemoval
    dsimp only
    rw [if_neg (by rw [hstay]; exact Bool.false_ne_true)]
    exact ⟨rfl, rfl, rfl⟩

end ForgeOps.Metrics

namespace ForgeOps.Tracker
open Client Reporter CrashStore

/-! ## The flush -/

section
variable (server : Request → Int) (config : Configuration)

/-- `forgeops_performance_flush`, with the request it makes. -/
def performanceFlush (now : Nat) (s : State) : Option (State × List (Endpoint × Bytes)) :=
  let p := s.performance
  if p.buckets = [] then some (s, [])
  else
    let body := Performance.samplesJson config p.buckets p.periodStartedAt now
    let status := Endpoint.performanceSamples.deliverStatus server config body
    ((step s (.flushPerformance config now)).bind
      fun t => step t (.performanceDelivered p.flushes.length status)).map
      fun t => (t, [(.performanceSamples, body)])

def MetricKind.endpoint : MetricKind → Endpoint
  | .custom => .customMetrics
  | .infrastructure => .infrastructureMetrics

/-- `forgeops_metrics_flush`, with the request it makes. -/
def metricsFlush (kind : MetricKind) (s : State) : Option (State × List (Endpoint × Bytes)) :=
  let m := s.buffer kind
  if m.buffer.count = 0 then some (s, [])
  else
    let body := Metrics.bodyText m.buffer.live
    let status := kind.endpoint.deliverStatus server config body
    ((step s (.flushMetrics kind)).bind
      fun t => step t (.metricsDelivered kind m.flushes.length status)).map
      fun t => (t, [(kind.endpoint, body)])

/-- What `forgeops_tracker_flush` leaves, and the payloads it delivers, in order. -/
structure Flushed where
  disk : Disk
  state : State
  deliveries : List (Endpoint × Bytes)

/-- `forgeops_tracker_flush`; a report's `status` is what its own request comes back with. -/
def flush (user : List (Bytes × Option Bytes)) (paths : Option (List Listed)) (disk : Disk)
    (now : Nat) (s : State) : Option Flushed := do
  let upload := uploadPendingReportsUntilFailure config user false paths disk
  let (s, samples) ← performanceFlush server config now s
  let (s, custom) ← metricsFlush server config .custom s
  let (s, infrastructure) ← metricsFlush server config .infrastructure s
  return ⟨upload.disk, s, upload.attempts.map (fun attempt => (.events, attempt.2)) ++ samples ++
    custom ++ infrastructure⟩

end

/-- No flush is between its snapshot and its answer. -/
structure Quiet (s : State) : Prop where
  performance : s.performance.flushes = []
  buffers : ∀ kind, (s.buffer kind).flushes = []

/-! ## Each part of it -/

section
variable (server : Request → Int) (config : Configuration)

/-- The status that a delivery of the buckets comes back with. -/
def samplesStatus (server : Request → Int) (config : Configuration) (now : Nat) (s : State) : Int :=
  Endpoint.performanceSamples.deliverStatus server config
    (Performance.samplesJson config s.performance.buckets s.performance.periodStartedAt now)

def metricsStatus (server : Request → Int) (config : Configuration) (kind : MetricKind)
    (s : State) : Int :=
  kind.endpoint.deliverStatus server config (Metrics.bodyText (s.buffer kind).buffer.live)

/-- Everything but the performance buckets is as it was, up to the bodies. -/
structure SameButPerformance (s t : State) : Prop where
  buffers : ∀ kind, t.buffer kind = s.buffer kind
  threads : t.threads = s.threads

theorem performanceFlush_spec {s : State} (hquiet : s.performance.flushes = [])
    (hd : Performance.DistinctNames s.performance.buckets) (now : Nat) :
    ∃ t, performanceFlush server config now s = some (t,
        if s.performance.buckets = [] then []
        else [(.performanceSamples,
          Performance.samplesJson config s.performance.buckets
            s.performance.periodStartedAt now)]) ∧
      SameButPerformance s t ∧
      if s.performance.buckets = [] then t = s
      else Performance.Flushed s.performance t.performance (samplesStatus server config now s) := by
  unfold performanceFlush
  dsimp only
  by_cases hempty : s.performance.buckets = []
  · rw [if_pos hempty]
    exact ⟨s, by rw [if_pos hempty], ⟨fun _ => rfl, rfl⟩, by rw [if_pos hempty]⟩
  · obtain ⟨p, hp, hflushed⟩ := Performance.flush_alone hquiet hd hempty now
      (samplesStatus server config now s)
    have hlength : s.performance.flushes.length = 0 := by rw [hquiet, List.length_nil]
    rw [if_neg hempty, hlength]
    refine ⟨{ flushPerformance s config now with performance := p }, ?_, ⟨fun kind => ?_, rfl⟩, ?_⟩
    · have hstep : step (flushPerformance s config now)
          (.performanceDelivered 0 (samplesStatus server config now s)) =
            some { flushPerformance s config now with performance := p } := by
        show (Performance.step (Performance.flushSnapshot s.performance now true)
          (.flushSubtraction 0 (samplesStatus server config now s))).map _ = _
        rw [hp, Option.map_some]
      rw [if_neg hempty, show step s (.flushPerformance config now) =
        some (flushPerformance s config now) from rfl, Option.bind_some,
        show Endpoint.performanceSamples.deliverStatus server config _ =
          samplesStatus server config now s from rfl, hstep]
      rfl
    · cases kind <;> rfl
    · rw [if_neg hempty]
      exact hflushed

/-- What stays of the buckets, whether there were any or not. -/
theorem performance_left {s t : State} {status : Int} (hquiet : s.performance.flushes = [])
    (h : if s.performance.buckets = [] then t =
      s else Performance.Flushed s.performance t.performance status) :
    t.performance.flushes = [] ∧
      t.performance.buckets = if Performance.letsGo s.performance status then []
      else s.performance.buckets := by
  by_cases hempty : s.performance.buckets = []
  · rw [if_pos hempty] at h
    subst h
    exact ⟨hquiet, by rw [hempty, ite_self]⟩
  · rw [if_neg hempty] at h
    refine ⟨h.flushes, ?_⟩
    cases hgo : Performance.letsGo s.performance status with
    | true => exact (h.gone hgo).1
    | false => exact (h.kept hgo).1

theorem buffer_setBuffer (s : State) (kind other : MetricKind) (m : Metrics.State) :
    (s.setBuffer kind m).buffer other = if other = kind then m else s.buffer other := by
  cases kind <;> cases other <;> rfl

theorem performance_setBuffer (s : State) (kind : MetricKind) (m : Metrics.State) :
    (s.setBuffer kind m).performance = s.performance := by
  cases kind <;> rfl

theorem threads_setBuffer (s : State) (kind : MetricKind) (m : Metrics.State) :
    (s.setBuffer kind m).threads = s.threads := by
  cases kind <;> rfl

/-- Everything but this buffer is as it was, up to the bodies. -/
structure SameButBuffer (kind : MetricKind) (s t : State) : Prop where
  performance : t.performance = s.performance
  others : ∀ other, other ≠ kind → t.buffer other = s.buffer other
  threads : t.threads = s.threads

theorem metricsFlush_spec {s : State} (kind : MetricKind) (hquiet : (s.buffer kind).flushes = []) :
    ∃ t, metricsFlush server config kind s = some (t,
        if (s.buffer kind).buffer.count = 0 then []
        else [(kind.endpoint, Metrics.bodyText (s.buffer kind).buffer.live)]) ∧
      SameButBuffer kind s t ∧
      if (s.buffer kind).buffer.count = 0 then t = s
      else Metrics.Flushed (s.buffer kind) (t.buffer kind)
        (metricsStatus server config kind s) := by
  unfold metricsFlush
  dsimp only
  by_cases hempty : (s.buffer kind).buffer.count = 0
  · rw [if_pos hempty]
    exact ⟨s, by rw [if_pos hempty], ⟨rfl, fun _ _ => rfl, rfl⟩, by rw [if_pos hempty]⟩
  · obtain ⟨m, hm, hflushed⟩ := Metrics.flush_alone hquiet hempty
      (metricsStatus server config kind s)
    have hlength : (s.buffer kind).flushes.length = 0 := by rw [hquiet, List.length_nil]
    have hsnapshot : (flushMetrics s kind).buffer kind =
        Metrics.flushSnapshot (s.buffer kind) true := by
      cases kind <;> rfl
    have hstep : step (flushMetrics s kind)
        (.metricsDelivered kind 0 (metricsStatus server config kind s)) =
          some ((flushMetrics s kind).setBuffer kind m) := by
      show (Metrics.step ((flushMetrics s kind).buffer kind) _).map _ = _
      rw [hsnapshot, hm, Option.map_some]
    rw [if_neg hempty, hlength]
    refine ⟨(flushMetrics s kind).setBuffer kind m, ?_, ⟨?_, fun other hother => ?_, ?_⟩, ?_⟩
    · rw [if_neg hempty, show step s (.flushMetrics kind) = some (flushMetrics s kind) from rfl,
        Option.bind_some,
        show kind.endpoint.deliverStatus server config _ =
        metricsStatus server config kind s from rfl, hstep]
      rfl
    · rw [performance_setBuffer]
      exact performance_setBuffer s kind _
    · rw [buffer_setBuffer, if_neg hother]
      exact (buffer_setBuffer s kind other _).trans (if_neg hother)
    · rw [threads_setBuffer]
      exact threads_setBuffer s kind _
    · rw [if_neg hempty, buffer_setBuffer, if_pos rfl]
      exact hflushed

/-- What stays of a buffer, whether there was anything in it or not. -/
theorem metrics_left {s t : State} {kind : MetricKind} {status : Int}
    (hquiet : (s.buffer kind).flushes = [])
    (h : if (s.buffer kind).buffer.count = 0 then t =
      s else Metrics.Flushed (s.buffer kind) (t.buffer kind) status) :
    (t.buffer kind).flushes = [] ∧
      (t.buffer kind).buffer.live =
        if Metrics.letsGo (s.buffer kind).buffer status then []
        else (s.buffer kind).buffer.live := by
  by_cases hempty : (s.buffer kind).buffer.count = 0
  · rw [if_pos hempty] at h
    subst h
    exact ⟨hquiet, by rw [Metrics.Buffer.live, hempty, List.take_zero, ite_self]⟩
  · rw [if_neg hempty] at h
    refine ⟨h.flushes, ?_⟩
    cases hgo : Metrics.letsGo (s.buffer kind).buffer status with
    | true => exact (congrArg (List.take · _) (h.gone hgo).1 : _)
    | false => exact (h.kept hgo).1

/-! ## The whole -/

/-- What the buffers have to deliver. -/
def pending (config : Configuration) (now : Nat) (s : State) : List (Endpoint × Bytes) :=
  (if s.performance.buckets = [] then []
    else [(.performanceSamples,
      Performance.samplesJson config s.performance.buckets s.performance.periodStartedAt now)]) ++
    (if (s.buffer .custom).buffer.count = 0 then []
      else [(.customMetrics, Metrics.bodyText (s.buffer .custom).buffer.live)]) ++
    (if (s.buffer .infrastructure).buffer.count = 0 then []
      else [(.infrastructureMetrics, Metrics.bodyText (s.buffer .infrastructure).buffer.live)])

/-- The payloads of the reports that can be read. -/
def reportsToSend (config : Configuration) (user : List (Bytes × Option Bytes)) (disk : Disk)
    (reports : List Listed) : List (Endpoint × Bytes) :=
  (reports.filterMap (payloadOf config user disk)).map fun payload => (.events, payload)

end

/-- Where there is a key there is a URL. -/
theorem ingestionUrl_isSome {config : Configuration} (h : config.apiKey.isSome = true) :
    config.ingestionUrl.isSome = true := by
  cases hdsn : config.dsn with
  | none => simp [Configuration.apiKey, hdsn] at h
  | some dsn =>
    by_cases hempty : dsn = []
    · simp [Configuration.apiKey, hdsn, hempty] at h
    cases hsplit : Configuration.splitDsn dsn with
    | none => simp [Configuration.apiKey, hdsn, hempty, hsplit] at h
    | some parts => simp [Configuration.ingestionUrl, hdsn, hempty, hsplit]

/-- Every delivery of an enabled configuration makes its request. -/
theorem request_isSome {config : Configuration} (henabled : config.isEnabled = true)
    (endpoint : Endpoint) (payload : Bytes) : (endpoint.request config payload).isSome = true := by
  have hkey : config.apiKey.isSome = true := by
    unfold Configuration.isEnabled at henabled
    exact (Bool.and_eq_true _ _ ▸ henabled).1
  have hingestion := ingestionUrl_isSome hkey
  have hurl : (endpoint.url config).isSome = true := by
    have hswap : ∀ replacement, (Configuration.swapEventsSuffix config replacement).isSome = true :=
      fun replacement => by
      rw [Configuration.swapEventsSuffix, Option.isSome_map]
      exact hingestion
    cases endpoint with
    | events => exact hingestion
    | _ => exact hswap _
  obtain ⟨key, hkey⟩ := Option.isSome_iff_exists.mp hkey
  obtain ⟨url, hurl⟩ := Option.isSome_iff_exists.mp hurl
  simp [Endpoint.request, postJson, hkey, hurl]

/-- The report can be read, and the delivery of its payload fails. -/
def fails (config : Configuration) (user : List (Bytes × Option Bytes)) (disk : Disk)
    (report : Listed) : Bool :=
  (payloadOf config user disk report).isSome && deliveryOutcomeForStatus report.status = .failed

/-- What is delivered by one flush, and what its answers leave of it. -/
structure FlushedAll (server : Request → Int) (config : Configuration)
    (user : List (Bytes × Option Bytes)) (reports : List Listed) (disk : Disk) (now : Nat)
    (s : State) (r : Flushed) : Prop where
  deliveries : r.deliveries = reportsToSend config user disk reports ++ pending config now s
  requests : ∀ delivery ∈ r.deliveries, (delivery.1.request config delivery.2).isSome = true
  reports : ∀ report ∈ reports, r.disk.lookup report.path =
    if fails config user disk report then disk.lookup report.path else none
  performance : r.state.performance.buckets =
    if Performance.letsGo s.performance (samplesStatus server config now s) then []
    else s.performance.buckets
  metrics : ∀ kind, (r.state.buffer kind).buffer.live =
    if Metrics.letsGo (s.buffer kind).buffer (metricsStatus server config kind s) then []
    else (s.buffer kind).buffer.live
  threads : r.state.threads = s.threads
  quiet : Quiet r.state

/-- What the upload of the pending reports leaves, and what it delivers. -/
theorem upload_left {config : Configuration} (henabled : config.isEnabled = true)
    (user : List (Bytes × Option Bytes)) {reports : List Listed}
    (hdistinct : (reports.map Listed.path).Nodup) (disk : Disk) :
    let upload := uploadPendingReportsUntilFailure config user false (some reports) disk
    upload.attempts.map Prod.snd = reports.filterMap (payloadOf config user disk) ∧
      ∀ report ∈ reports, upload.disk.lookup report.path =
        if fails config user disk report then disk.lookup report.path else none := by
  intro upload
  constructor
  · rw [show upload.attempts = _ from attempts_upload henabled user disk hdistinct,
      List.map_filterMap]
    congr 1
    funext report
    rw [Listed.attempt]
    cases payloadOf config user disk report <;> rfl
  · intro report hreport
    rw [show upload.disk.lookup report.path =
      _ from lookup_upload henabled user disk hdistinct hreport, Listed.verdict, fails]
    cases payloadOf config user disk report <;> simp

/-- A flush that no other one crosses delivers all there is, each payload in a request of its own;
and what it delivered is gone unless its delivery failed, and with it the limit was not reached. -/
theorem flush_all {calls : List Call} {s : State} (hrun : Runs.exec step initial calls = some s)
    (hquiet : Quiet s) {config : Configuration} (henabled : config.isEnabled = true)
    (server : Request → Int) (user : List (Bytes × Option Bytes)) {reports : List Listed}
    (hdistinct : (reports.map Listed.path).Nodup) (disk : Disk) (now : Nat) :
    ∃ r, flush server config user (some reports) disk now s = some r ∧
      FlushedAll server config user reports disk now s r := by
  obtain ⟨hattempts, hreports⟩ := upload_left henabled user hdistinct disk
  obtain ⟨t, ht, hsame, hperformance⟩ :=
    performanceFlush_spec server config hquiet.performance (counts_run hrun).distinct now
  have hquietT : ∀ kind, (t.buffer kind).flushes = [] := fun kind =>
    hsame.buffers kind ▸ hquiet.buffers kind
  obtain ⟨u, hu, hcustom, hcustomBuffer⟩ :=
    metricsFlush_spec server config .custom (hquietT .custom)
  have hother : u.buffer .infrastructure = s.buffer .infrastructure :=
    (hcustom.others .infrastructure (by decide)).trans (hsame.buffers .infrastructure)
  obtain ⟨v, hv, hinfrastructure, hinfrastructureBuffer⟩ :=
    metricsFlush_spec server config (s := u) .infrastructure
      (hother ▸ hquiet.buffers .infrastructure)
  have hdeliveries : flush server config user (some reports) disk now s = some
      ⟨(uploadPendingReportsUntilFailure config user false (some reports) disk).disk, v,
        reportsToSend config user disk reports ++ pending config now s⟩ := by
    rw [hsame.buffers .custom] at hu
    rw [hother] at hv
    simp only [flush, ht, hu, hv, bind, Option.bind, pure]
    congr 2
    rw [pending, reportsToSend, ← hattempts, List.map_map, ← List.append_assoc, ← List.append_assoc]
    rfl
  have hstatusCustom : metricsStatus server config .custom t =
      metricsStatus server config .custom s := by
    rw [metricsStatus, metricsStatus, hsame.buffers .custom]
  have hstatusInfrastructure :
      metricsStatus server config .infrastructure u =
        metricsStatus server config .infrastructure s := by
    rw [metricsStatus, metricsStatus, hother]
  have hbuckets := performance_left hquiet.performance hperformance
  have hcustomLeft := metrics_left (hquietT .custom) hcustomBuffer
  have hinfrastructureLeft := metrics_left
    (hother ▸ hquiet.buffers .infrastructure) hinfrastructureBuffer
  rw [hsame.buffers .custom, hstatusCustom] at hcustomLeft
  rw [hother, hstatusInfrastructure] at hinfrastructureLeft
  have hv_custom : v.buffer .custom = u.buffer .custom := hinfrastructure.others .custom (by decide)
  have hv_performance : v.performance = t.performance :=
    hinfrastructure.performance.trans hcustom.performance
  refine ⟨_, hdeliveries, ⟨rfl, fun delivery _ =>
    request_isSome henabled delivery.1 delivery.2, hreports, ?_, fun kind =>
      ?_, ?_, ⟨?_, fun kind => ?_⟩⟩⟩
  · rw [hv_performance]
    exact hbuckets.2
  · cases kind with
    | custom =>
      rw [hv_custom]
      exact hcustomLeft.2
    | infrastructure => exact hinfrastructureLeft.2
  · exact hinfrastructure.threads.trans (hcustom.threads.trans hsame.threads)
  · rw [hv_performance]
    exact hbuckets.1
  · cases kind with
    | custom =>
      rw [hv_custom]
      exact hcustomLeft.1
    | infrastructure => exact hinfrastructureLeft.1

/-- One configuration, two metrics and a timing. -/
def atHome : Configuration := { dsn := some (ascii "https://k@h") }

def threeCaptures : List Call :=
  [.captureMetric atHome (some (ascii "orders")) (.finite 2) 0,
    .captureInfrastructureMetric atHome (some (ascii "load")) (.finite 3) none 0,
    .recordPerformance atHome (some (ascii "checkout")) (.finite 5) 0]

/-- One report on the disk, at a server that takes everything. -/
def oneReport : Disk := ⟨[⟨ascii "\x7b\x7d", 0, 0⟩], [(ascii "/r.json", 0)]⟩

theorem flush_all_threeCaptures : ∃ s, Runs.exec step initial threeCaptures = some s ∧
    ∃ r,
      flush (fun _ => 200) atHome [] (some [⟨ascii "/r.json", true, 0, 200⟩]) oneReport 0 s =
        some r ∧ FlushedAll (fun _ => 200) atHome []
          [⟨ascii "/r.json", true, 0, 200⟩] oneReport 0 s r := by
  have hrun : Runs.exec step initial threeCaptures = some _ := rfl
  refine ⟨_, hrun, ?_⟩
  exact flush_all hrun ⟨rfl, fun kind => by cases kind <;> rfl⟩ (by decide) _ _ (by decide) _ _

end ForgeOps.Tracker
