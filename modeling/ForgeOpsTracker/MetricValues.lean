import ForgeOpsTracker.Lib.CivilDate
import ForgeOpsTracker.Lib.Decimals
import ForgeOpsTracker.Lib.Unwinding
import ForgeOpsTracker.Tracker

/-! What a metrics body tells its reader: the entries of the buffer in their order, each of them a
metric that was captured, under its name, with its instant and with its own value to the last bit.
While the flushes of a kind do not overlap, they are the captures that still wait to be sent. -/

namespace ForgeOps.Metrics

/-- A record puts at most the entry it is given among the ones before. -/
theorem record_entries {s : State} {config : Option Configuration} {value : Double}
    {fields : Bytes} {now : Nat} {allocated : Bool} {e : Entry}
    (h : e ∈ (record s config value (some fields) now allocated).1.buffer.entries) :
    e ∈ s.buffer.entries ∨ e.json = entryText fields now := by
  unfold record at h
  cases config with
  | none => exact .inl h
  | some config =>
    dsimp only at h
    split at h
    · exact .inl h
    split at h
    · exact .inl h
    · rcases List.mem_append.mp h with h | h
      · exact .inl (List.mem_of_mem_take h)
      rcases List.mem_cons.mp h with rfl | h
      · exact .inr rfl
      · exact .inl (List.mem_of_mem_drop h)

/-- A record puts its entry behind the ones in use where there is room, and touches nothing else. -/
theorem record_live {s : State} (hslots : s.buffer.count ≤ s.buffer.entries.length)
    (config : Configuration) {value : Double} (hfinite : value.isfinite = true)
    (fields : Bytes) (now : Nat) :
    let t := (record s (some config) value (some fields) now true).1
    t.buffer.live = s.buffer.live ++
        (if s.buffer.live.length < maxEntries then [⟨s.nextAddr, entryText fields now⟩] else []) ∧
      t.buffer.count ≤ t.buffer.entries.length ∧ t.flushes = s.flushes ∧
      t.buffer.consecutiveFailures = s.buffer.consecutiveFailures := by
  have hkept : ¬ (¬ value.isfinite = true ∨ ¬ true = true) := by simp [hfinite]
  have hlive := live_length hslots
  unfold record
  dsimp only
  rw [if_neg hkept]
  by_cases hfull : s.buffer.count ≥ maxEntries
  · rw [if_pos hfull, if_neg (by omega), List.append_nil]
    exact ⟨rfl, hslots, rfl, rfl⟩
  · rw [if_neg hfull, if_pos (by omega)]
    have hlen : (s.buffer.entries.take s.buffer.count).length = s.buffer.count :=
      List.length_take_of_le hslots
    refine ⟨?_, ?_, rfl, rfl⟩
    · simp [Buffer.live, List.take_append, List.take_take, hlen]
    · simp only [List.length_append, List.length_take, List.length_cons]
      omega

/-- A flush adds no entry. -/
theorem flushSnapshot_entries (s : State) (allocated : Bool) :
    (flushSnapshot s allocated).buffer = s.buffer := by
  unfold flushSnapshot
  split <;> rfl

theorem flushRemoval_entries {s : State} {f : Flush} {status : Int} {e : Entry}
    (h : e ∈ (flushRemoval s f status).buffer.entries) : e ∈ s.buffer.entries := by
  unfold flushRemoval at h
  split at h
  · rcases List.mem_append.mp h with h | h
    · exact List.mem_of_mem_drop (List.mem_of_mem_take h)
    · exact List.mem_of_mem_drop h
  · exact h

end ForgeOps.Metrics

namespace ForgeOps.Tracker
open JsonText

/-! ## What is captured -/

/-- A metric that was captured; `hostname` is of the infrastructure kind. -/
structure Captured where
  config : Configuration
  name : Bytes
  value : Double
  hostname : Option Bytes
  now : Nat

/-- The fields it is recorded with. -/
def Captured.fields (c : Captured) : MetricKind → Bytes
  | .custom => metricFields c.config c.name c.value
  | .infrastructure => infrastructureMetricFields c.config c.name c.value c.hostname

/-- What a call captures of a kind: nothing without a name, when disabled, or of a value that is not
finite. -/
def Call.captured : MetricKind → Call → Option Captured
  | .custom, .captureMetric config name value now =>
    if config.isEnabled ∧ value.isfinite then
      name.map fun name => ⟨config, name, value, none, now⟩
    else none
  | .infrastructure, .captureInfrastructureMetric config name value hostname now =>
    if config.isEnabled ∧ value.isfinite then
      name.map fun name => ⟨config, name, value, hostname, now⟩
    else none
  | _, _ => none

theorem capturedFields_eq (config : Configuration) (name : Option Bytes) (value : Double)
    (fields : Bytes → Bytes) :
    capturedFields config name value fields =
      if config.isEnabled ∧ value.isfinite then name.map fields else none := by
  cases name with
  | none => simp [capturedFields]
  | some name =>
    by_cases henabled : config.isEnabled = true <;> by_cases hfinite : value.isfinite = true <;>
      simp [capturedFields, henabled, hfinite]

/-! ## What a reader finds -/

/-- The members of an entry, its number and its time being the given texts. -/
def Captured.members (c : Captured) (number recordedAt : Bytes) :
    MetricKind → List (Bytes × Json.Value)
  | .custom =>
    [(ascii "metric_name", .string c.name), (ascii "value", .number number),
      (ascii "environment", .string (c.config.environment.getD [])),
      (ascii "release", stringOrNull c.config.release), (ascii "recorded_at", .string recordedAt)]
  | .infrastructure =>
    [(ascii "metric_name", .string c.name), (ascii "value", .number number),
      (ascii "hostname", .string ((c.hostname.or c.config.serverName).getD [])),
      (ascii "recorded_at", .string recordedAt)]

/-- The value is an object that says what was captured and when, and its number is the value itself:
read and rounded to the nearest `double` it gives the one that was captured. -/
def Tells (kind : MetricKind) (c : Captured) (v : Json.Value) : Prop :=
  ∃ number recordedAt, v = .object (c.members number recordedAt kind) ∧
    Calendar.readTimestamp recordedAt = some ((c.now : Int) * 1000) ∧
    ∀ q, c.value = .finite q → Double.round q = .finite q →
    Double.round (Json.numberValue number) = .finite q

def numberText (value : Double) : Bytes := Printf.snprintf metricNumberSize (Printf.general value)

theorem reads_numberText {value : Double} (h : value.isfinite = true) :
    Json.Reads (numberText value) (.number (numberText value)) := by
  cases value with
  | finite q => exact Json.reads_number (Printf.isNumber_general q)
  | infinity negative => exact absurd h Bool.false_ne_true
  | nan => exact absurd h Bool.false_ne_true

theorem numberText_exact {q : Rat} (h : Double.round q = .finite q) :
    Double.round (Json.numberValue (numberText (.finite q))) = .finite q := by
  have hfits : numberText (.finite q) = Printf.generalFinite q :=
    Printf.snprintf_of_fits (Printf.generalFinite_length h)
  rw [hfits]
  exact Printf.generalFinite_exact h

/-- The members an entry is written with. -/
def Captured.written (c : Captured) : MetricKind → List Json.Member
  | .custom =>
    [⟨ascii "metric_name", jsonString c.name⟩, ⟨ascii "value", numberText c.value⟩,
      ⟨ascii "environment", jsonString (c.config.environment.getD [])⟩,
      ⟨ascii "release", jsonStringOrNull c.config.release⟩,
      ⟨ascii "recorded_at", jsonString (Calendar.timestamp c.now)⟩]
  | .infrastructure =>
    [⟨ascii "metric_name", jsonString c.name⟩, ⟨ascii "value", numberText c.value⟩,
      ⟨ascii "hostname", jsonString ((c.hostname.or c.config.serverName).getD [])⟩,
      ⟨ascii "recorded_at", jsonString (Calendar.timestamp c.now)⟩]

theorem entryText_eq (c : Captured) (kind : MetricKind) :
    Metrics.entryText (c.fields kind) c.now = Json.object (c.written kind) := by
  cases kind <;> simp [Metrics.entryText, Captured.fields, metricFields, infrastructureMetricFields,
    Captured.written, numberText, Json.object, Json.joined, Json.Member.text, Json.quoted, ascii]

theorem entry_tells {c : Captured} (h : c.value.isfinite = true) (kind : MetricKind) :
    ∃ v, Json.Reads (Metrics.entryText (c.fields kind) c.now) v ∧ Tells kind c v := by
  have hnumber : Json.ReadsMember (ascii "value") (numberText c.value)
      (ascii "value", .number (numberText c.value)) :=
    readsMember_plain rfl (reads_numberText h)
  have hmembers : List.Forall₂ (fun n m => Json.ReadsMember n.name n.value m) (c.written kind)
      (c.members (numberText c.value) (Calendar.timestamp c.now) kind) := by
    cases kind with
    | custom =>
      exact .cons (readsMember_string rfl _) (.cons hnumber (.cons (readsMember_string rfl _) (.cons
        (readsMember_stringOrNull rfl _) (.cons (readsMember_string rfl _) .nil))))
    | infrastructure =>
      exact .cons (readsMember_string rfl _)
        (.cons hnumber (.cons (readsMember_string rfl _) (.cons (readsMember_string rfl _) .nil)))
  rw [entryText_eq]
  refine ⟨_, Json.reads_object hmembers, _, _, rfl, Calendar.readTimestamp_timestamp _, ?_⟩
  rintro q hq hround
  rw [hq]
  exact numberText_exact hround

/-! ## Over a run -/

/-- Every entry of a buffer is of a metric that one of the calls captured. -/
def Told (calls : List Call) (s : State) : Prop :=
  ∀ kind, ∀ e ∈ (s.buffer kind).buffer.entries, ∃ call ∈ calls, ∃ c ∈ call.captured kind,
    e.json = Metrics.entryText (c.fields kind) c.now

theorem told_initial : Told [] initial := by
  intro kind e he
  cases kind <;> exact absurd he List.not_mem_nil

/-- The entries of the other kind stay; those of this one are what they were, or of what the call
captured. -/
theorem Told.setBuffer {calls : List Call} {s : State} (h : Told calls s) (call : Call)
    (kind : MetricKind) {m : Metrics.State}
    (hm : ∀ e ∈ m.buffer.entries, e ∈ (s.buffer kind).buffer.entries ∨
      ∃ c ∈ call.captured kind, e.json = Metrics.entryText (c.fields kind) c.now) :
    Told (calls ++ [call]) (s.setBuffer kind m) := by
  have hold : ∀ kind, ∀ e ∈ (s.buffer kind).buffer.entries, ∃ call' ∈ calls ++ [call], ∃ c ∈
      call'.captured kind, e.json = Metrics.entryText (c.fields kind) c.now := by
    intro kind e he
    obtain ⟨call', hcall', hc⟩ := h kind e he
    exact ⟨call', List.mem_append_left _ hcall', hc⟩
  have hnew : ∀ e ∈ m.buffer.entries, ∃ call' ∈ calls ++ [call], ∃ c ∈ call'.captured kind,
      e.json = Metrics.entryText (c.fields kind) c.now := by
    intro e he
    rcases hm e he with he | hc
    · exact hold kind e he
    · exact ⟨call, List.mem_append_right _ (List.mem_singleton_self call), hc⟩
  intro other e he
  cases kind <;> cases other <;> first | exact hnew e he | exact hold _ e he

theorem Told.kept {calls : List Call} {s t : State} (h : Told calls s) (call : Call)
    (ht : ∀ kind, (t.buffer kind).buffer = (s.buffer kind).buffer) : Told (calls ++ [call]) t := by
  intro kind e he
  rw [ht kind] at he
  obtain ⟨call', hcall', hc⟩ := h kind e he
  exact ⟨call', List.mem_append_left _ hcall', hc⟩

theorem setBuffer_kept (s : State) (kind : MetricKind) {m : Metrics.State}
    (hm : m.buffer = (s.buffer kind).buffer) (other : MetricKind) :
    ((s.setBuffer kind m).buffer other).buffer = (s.buffer other).buffer := by
  cases kind <;> cases other <;> first | exact hm | rfl

theorem Told.step {calls : List Call} {s t : State} (h : Told calls s) {call : Call}
    (ht : step s call = some t) : Told (calls ++ [call]) t := by
  cases call with
  | recordPerformance config name durationMs now =>
    obtain rfl := Option.some.inj ht
    exact h.kept _ fun kind => by cases kind <;> rfl
  | flushPerformance config now =>
    obtain rfl := Option.some.inj ht
    exact h.kept _ fun kind => by cases kind <;> rfl
  | performanceDelivered i status =>
    obtain ⟨p, -, rfl⟩ := Option.map_eq_some_iff.mp ht
    exact h.kept _ fun kind => by cases kind <;> rfl
  | captureMetric config name value now =>
    obtain rfl := Option.some.inj ht
    refine h.setBuffer _ .custom fun e he => ?_
    unfold captureMetric at he
    rw [capturedFields_eq] at he
    by_cases hcaptured : config.isEnabled = true ∧ value.isfinite = true
    · rw [if_pos hcaptured] at he
      cases name with
      | none => exact .inl he
      | some name =>
        rcases Metrics.record_entries he with he | he
        · exact .inl he
        · exact .inr ⟨⟨config, name, value, none, now⟩, by
            rw [Call.captured, if_pos hcaptured]; rfl, he⟩
    · rw [if_neg hcaptured] at he
      exact .inl he
  | captureInfrastructureMetric config name value hostname now =>
    obtain rfl := Option.some.inj ht
    refine h.setBuffer _ .infrastructure fun e he => ?_
    unfold captureInfrastructureMetric at he
    rw [capturedFields_eq] at he
    by_cases hcaptured : config.isEnabled = true ∧ value.isfinite = true
    · rw [if_pos hcaptured] at he
      cases name with
      | none => exact .inl he
      | some name =>
        rcases Metrics.record_entries he with he | he
        · exact .inl he
        · exact .inr ⟨⟨config, name, value, hostname, now⟩, by
            rw [Call.captured, if_pos hcaptured]; rfl, he⟩
    · rw [if_neg hcaptured] at he
      exact .inl he
  | flushMetrics kind =>
    obtain rfl := Option.some.inj ht
    refine h.kept _ fun other => ?_
    exact setBuffer_kept s kind (Metrics.flushSnapshot_entries _ true) other
  | metricsDelivered kind i status =>
    obtain ⟨m, hm, rfl⟩ := Option.map_eq_some_iff.mp ht
    obtain ⟨f, -, rfl⟩ := Option.map_eq_some_iff.mp hm
    refine h.setBuffer _ _ fun e he => .inl ?_
    have hbefore := Metrics.flushRemoval_entries he
    exact hbefore
  | spans thread action =>
    obtain ⟨u, -, rfl⟩ := Option.map_eq_some_iff.mp ht
    exact h.kept _ fun kind => by cases kind <;> rfl

theorem told_run {calls : List Call} {s : State} (h : Runs.exec step initial calls = some s) :
    Told calls s :=
  Runs.exec_told told_initial (fun _ _ _ _ hs ht => hs.step ht) h

theorem captured_finite {kind : MetricKind} {call : Call} {c : Captured}
    (h : c ∈ call.captured kind) : c.value.isfinite = true := by
  unfold Call.captured at h
  split at h
  · split at h
    · rename_i hcaptured
      obtain ⟨name, -, rfl⟩ := Option.map_eq_some_iff.mp h
      exact hcaptured.2
    · exact absurd h (by simp)
  · split at h
    · rename_i hcaptured
      obtain ⟨name, -, rfl⟩ := Option.map_eq_some_iff.mp h
      exact hcaptured.2
    · exact absurd h (by simp)
  · exact absurd h (by simp)

/-- The entry is written with what was captured. -/
def Holds (kind : MetricKind) (c : Captured) (e : Metrics.Entry) : Prop :=
  e.json = Metrics.entryText (c.fields kind) c.now

/-- A body that says these metrics in this order, and nothing else. -/
def BodyTells (kind : MetricKind) (captures : List Captured) (body : Bytes) : Prop :=
  ∃ values, Json.parse body = some (.object [(ascii "metrics", .array values)]) ∧
    List.Forall₂ (Tells kind) captures values

theorem bodyText_tells {kind : MetricKind} {captures : List Captured} {batch : List Metrics.Entry}
    (h : List.Forall₂ (Holds kind) captures batch)
    (hfinite : ∀ c ∈ captures, c.value.isfinite = true) :
    BodyTells kind captures (Metrics.bodyText batch) := by
  obtain ⟨values, hreads, htells⟩ : ∃ values,
      List.Forall₂ Json.Reads (batch.map Metrics.Entry.json) values ∧
      List.Forall₂ (Tells kind) captures values := by
    induction h with
    | nil => exact ⟨[], .nil, .nil⟩
    | @cons c e captures batch hholds _ ih =>
      obtain ⟨hc, hcaptures⟩ := List.forall_mem_cons.mp hfinite
      obtain ⟨values, hreads, htells⟩ := ih hcaptures
      obtain ⟨v, hread, htell⟩ := entry_tells hc kind
      refine ⟨v :: values, ?_, .cons htell htells⟩
      rw [List.map_cons, show e.json = _ from hholds]
      exact .cons hread hreads
  refine ⟨values, ?_, htells⟩
  have hbody : Metrics.bodyText batch =
      Json.object [⟨ascii "metrics", Json.array (batch.map Metrics.Entry.json)⟩] := by
    simp [Metrics.bodyText, commaSeparated_eq_joined, Json.object, Json.joined, Json.Member.text,
      Json.quoted, Json.array, ascii]
  rw [hbody]
  exact (Json.reads_object (.cons (readsMember_plain rfl (Json.reads_array hreads)) .nil)).parse

/-! ## What waits to be sent -/

/-- The captures of a kind as the calls leave them: those that wait, how many of them the flush
under way has taken, and how many flushes in a row have failed. -/
structure Waiting where
  captures : List Captured
  taken : Option Nat
  failures : Nat

namespace Waiting

def none : Waiting := ⟨[], .none, 0⟩

/-- A capture waits where there is room for it. -/
def capture (w : Waiting) (c : Option Captured) : Waiting :=
  if w.captures.length < Metrics.maxEntries
    then { w with captures := w.captures ++ c.toList } else w

/-- A delivery that ended with this status: what was taken is let go, or waits on. -/
def delivered (w : Waiting) (taken : Nat) (status : Int) : Waiting :=
  if Client.deliveryOutcomeForStatus status ≠ .failed ∨
    w.failures + 1 ≥ Metrics.maxConsecutiveFailures then
    ⟨w.captures.drop taken, .none, 0⟩
  else ⟨w.captures, .none, w.failures + 1⟩

def next (kind : MetricKind) (w : Waiting) : Call → Waiting
  | .flushMetrics kind' =>
    if kind' = kind ∧ w.captures ≠ [] then { w with taken := some w.captures.length } else w
  | .metricsDelivered kind' _ status =>
    if kind' = kind then (w.taken.map fun taken => w.delivered taken status).getD w else w
  | call => w.capture (call.captured kind)

end Waiting

/-- What of a kind waits behind these calls. -/
def waiting (kind : MetricKind) (calls : List Call) : List Captured :=
  (calls.foldl (Waiting.next kind) .none).captures

/-- A flush of the kind starts only when no other one is under way. -/
def Serial (kind : MetricKind) (s : State) : Call → Prop
  | .flushMetrics kind' => kind' = kind → (s.buffer kind).flushes = []
  | _ => True

instance (kind : MetricKind) (s : State) : ∀ call, Decidable (Serial kind s call)
  | .flushMetrics _ => inferInstanceAs (Decidable (_ → _ = []))
  | .recordPerformance .. => inferInstanceAs (Decidable True)
  | .flushPerformance .. => inferInstanceAs (Decidable True)
  | .performanceDelivered .. => inferInstanceAs (Decidable True)
  | .captureMetric .. => inferInstanceAs (Decidable True)
  | .captureInfrastructureMetric .. => inferInstanceAs (Decidable True)
  | .metricsDelivered .. => inferInstanceAs (Decidable True)
  | .spans .. => inferInstanceAs (Decidable True)

/-- The buffer of the kind has what waits. -/
structure Waits (kind : MetricKind) (w : Waiting) (s : State) : Prop where
  slots : (s.buffer kind).buffer.count ≤ (s.buffer kind).buffer.entries.length
  captures : List.Forall₂ (Holds kind) w.captures (s.buffer kind).buffer.live
  taken : (s.buffer kind).flushes.map Metrics.Flush.count = w.taken.toList
  fits : ∀ taken ∈ w.taken, taken ≤ w.captures.length
  failures : (s.buffer kind).buffer.consecutiveFailures = w.failures

theorem waits_initial (kind : MetricKind) : Waits kind .none initial := by
  cases kind <;> exact ⟨Nat.le_refl _, .nil, rfl, fun _ h => absurd h (Option.not_mem_none _), rfl⟩

@[simp] theorem Waiting.capture_none (w : Waiting) : w.capture .none = w := by
  simp [capture]

theorem Waits.congr {kind : MetricKind} {w : Waiting} {s t : State} (h : Waits kind w s)
    (ht : t.buffer kind = s.buffer kind) : Waits kind w t := by
  refine ⟨?_, ?_, ?_, h.fits, ?_⟩ <;> rw [ht]
  · exact h.slots
  · exact h.captures
  · exact h.taken
  · exact h.failures

theorem Waits.capture_none {kind : MetricKind} {w : Waiting} {s t : State} (h : Waits kind w s)
    (ht : t.buffer kind = s.buffer kind) : Waits kind (w.capture none) t := by
  rw [Waiting.capture_none]
  exact h.congr ht

/-- A metric that is captured comes behind those that wait. -/
theorem Waits.capture {kind : MetricKind} {w : Waiting} {s t : State}
    (h : Waits kind w s) {c : Captured} (hfinite : c.value.isfinite = true)
    (ht : t.buffer kind =
      (Metrics.record (s.buffer kind) (some c.config) c.value
        (some (c.fields kind)) c.now true).1) :
    Waits kind (w.capture (some c)) t := by
  obtain ⟨hlive, hslots, hflushes, hfailures⟩ :=
    Metrics.record_live h.slots c.config hfinite (c.fields kind) c.now
  rw [← ht] at hlive hslots hflushes hfailures
  have hlength := h.captures.length_eq
  unfold Waiting.capture
  split
  · rename_i hroom
    rw [if_pos (hlength ▸ hroom)] at hlive
    refine ⟨hslots, ?_, hflushes ▸ h.taken, fun taken htaken => ?_, hfailures.trans h.failures⟩
    · rw [hlive]
      exact List.rel_append h.captures (.cons rfl .nil)
    · have hle := h.fits taken htaken
      rw [List.length_append]
      omega
  · rename_i hfull
    rw [if_neg (hlength ▸ hfull), List.append_nil] at hlive
    exact ⟨hslots, hlive ▸ h.captures, hflushes ▸ h.taken, h.fits, hfailures.trans h.failures⟩

/-- A call that captures what passes the checks of both captures. -/
theorem Waits.checked {kind : MetricKind} {w : Waiting} {s t : State} (h : Waits kind w s)
    {config : Configuration} {name : Option Bytes} {value : Double} {hostname : Option Bytes}
    {now : Nat} {fields : Bytes → Bytes}
    (hfields : ∀ name, Captured.fields ⟨config, name, value, hostname, now⟩ kind = fields name)
      (ht : t.buffer kind = match capturedFields config name value fields with
      | none => s.buffer kind
      | some text => (Metrics.record (s.buffer kind) (some config) value (some text) now true).1) :
    Waits kind (w.capture (if config.isEnabled ∧ value.isfinite then
      name.map fun name => ⟨config, name, value, hostname, now⟩ else none)) t := by
  rw [capturedFields_eq] at ht
  by_cases hchecked : config.isEnabled = true ∧ value.isfinite = true
  · rw [if_pos hchecked] at ht ⊢
    cases name with
    | none => exact h.capture_none ht
    | some name =>
      rw [Option.map_some] at ht ⊢
      rw [← hfields name] at ht
      exact h.capture (c := ⟨config, name, value, hostname, now⟩) hchecked.2 ht
  · rw [if_neg hchecked] at ht ⊢
    exact h.capture_none ht

/-- A flush under way has taken what waits now. -/
theorem Waits.flush {kind : MetricKind} {w : Waiting} {s t : State} (h : Waits kind w s)
    (hserial : (s.buffer kind).flushes = [])
    (ht : t.buffer kind = Metrics.flushSnapshot (s.buffer kind) true) :
    Waits kind (w.next kind (.flushMetrics kind)) t := by
  have hlength := h.captures.length_eq
  rw [Metrics.live_length h.slots] at hlength
  unfold Metrics.flushSnapshot at ht
  by_cases hempty : w.captures = []
  · have hzero : (s.buffer kind).buffer.count = 0 := by rw [← hlength, hempty]; rfl
    rw [if_pos (.inl hzero)] at ht
    rw [Waiting.next, if_neg fun hmore => hmore.2 hempty]
    exact h.congr ht
  · have hsome : ¬ ((s.buffer kind).buffer.count = 0 ∨ ¬ true = true) := by
      rw [← hlength]
      simpa using hempty
    rw [if_neg hsome] at ht
    rw [Waiting.next, if_pos ⟨rfl, hempty⟩]
    refine ⟨?_, ?_, ?_, ?_, ?_⟩
    · rw [ht]
      exact h.slots
    · rw [ht]
      exact h.captures
    · rw [ht]
      simp [hserial, hlength]
    · intro taken htaken
      obtain rfl := Option.some.inj htaken
      exact Nat.le_refl _
    · rw [ht]
      exact h.failures

/-- The flush that comes back lets go what it took, or leaves it. -/
theorem Waits.delivered {kind : MetricKind} {w : Waiting} {s t : State} (h : Waits kind w s)
    {i : Nat} {status : Int}
    (ht : Metrics.step (s.buffer kind) (.flushRemoval i status) = some (t.buffer kind)) :
    Waits kind (w.next kind (.metricsDelivered kind i status)) t := by
  obtain ⟨f, hf, ht⟩ := Option.map_eq_some_iff.mp ht
  have hmem : f.count ∈ w.taken.toList := by
    rw [← h.taken]
    exact List.mem_map_of_mem (List.mem_of_getElem? hf)
  have htaken : w.taken = some f.count := by
    cases hw : w.taken with
    | none => rw [hw] at hmem; exact absurd hmem List.not_mem_nil
    | some n => rw [hw] at hmem; rw [List.mem_singleton.mp hmem]
  have hone : (s.buffer kind).flushes.length = 1 := by
    have hlength := congrArg List.length h.taken
    rw [htaken] at hlength
    simpa using hlength
  have hnone : (s.buffer kind).flushes.eraseIdx i = [] := by
    have hi := (List.getElem?_eq_some_iff.mp hf).1
    apply List.eq_nil_of_length_eq_zero
    rw [List.length_eraseIdx_of_lt hi, hone]
  have hfits : f.count ≤ (s.buffer kind).buffer.count := by
    have hle := h.fits f.count htaken
    rwa [h.captures.length_eq, Metrics.live_length h.slots] at hle
  have hgo : Metrics.letsGo (s.buffer kind).buffer status = true ↔
      Client.deliveryOutcomeForStatus status ≠ .failed ∨
      w.failures + 1 ≥ Metrics.maxConsecutiveFailures := by
    simp [Metrics.letsGo, h.failures]
  have hnext : w.next kind (.metricsDelivered kind i status) = w.delivered f.count status := by
    rw [Waiting.next, if_pos rfl, htaken]
    rfl
  rw [hnext, Waiting.delivered]
  rw [hnone, Metrics.flushRemoval] at ht
  by_cases hlets : Metrics.letsGo (s.buffer kind).buffer status = true
  · rw [if_pos (hgo.mp hlets)]
    rw [if_pos hlets] at ht
    obtain ⟨-, hlive, hslots, -, hflushes, -⟩ :=
      @Metrics.removeBatch_live { s.buffer kind with flushes := [] } f.count h.slots hfits
    rw [ht] at hlive hslots hflushes
    refine ⟨hslots, ?_, ?_, fun _ hnever => absurd hnever (Option.not_mem_none _), ?_⟩
    · rw [hlive]
      exact List.forall₂_drop f.count h.captures
    · rw [hflushes]
      rfl
    · rw [← ht]
      rfl
  · rw [if_neg (hgo.not.mp hlets)]
    rw [if_neg hlets] at ht
    refine ⟨?_, ?_, ?_, fun _ hnever => absurd hnever (Option.not_mem_none _), ?_⟩ <;> rw [← ht]
    · exact h.slots
    · exact h.captures
    · rfl
    · exact congrArg (· + 1) h.failures

theorem Waits.step {kind : MetricKind} {w : Waiting} {s t : State}
    (h : Waits kind w s) {call : Call} (hserial : Serial kind s call) (ht : step s call = some t) :
    Waits kind (w.next kind call) t := by
  cases call with
  | recordPerformance config name durationMs now =>
    obtain rfl := Option.some.inj ht
    cases kind <;> exact h.capture_none rfl
  | flushPerformance config now =>
    obtain rfl := Option.some.inj ht
    cases kind <;> exact h.capture_none rfl
  | performanceDelivered i status =>
    obtain ⟨p, -, rfl⟩ := Option.map_eq_some_iff.mp ht
    cases kind <;> exact h.capture_none rfl
  | spans thread action =>
    obtain ⟨u, -, rfl⟩ := Option.map_eq_some_iff.mp ht
    cases kind <;> exact h.capture_none rfl
  | captureMetric config name value now =>
    obtain rfl := Option.some.inj ht
    cases kind with
    | custom => exact h.checked (fun _ => rfl) rfl
    | infrastructure => exact h.capture_none rfl
  | captureInfrastructureMetric config name value hostname now =>
    obtain rfl := Option.some.inj ht
    cases kind with
    | custom => exact h.capture_none rfl
    | infrastructure => exact h.checked (fun _ => rfl) rfl
  | flushMetrics kind' =>
    obtain rfl := Option.some.inj ht
    by_cases hkind : kind' = kind
    · subst hkind
      exact h.flush (hserial rfl) (by cases kind' <;> rfl)
    · rw [Waiting.next, if_neg fun hboth => hkind hboth.1]
      exact h.congr (by cases kind <;> cases kind' <;> first | exact absurd rfl hkind | rfl)
  | metricsDelivered kind' i status =>
    obtain ⟨m, hm, rfl⟩ := Option.map_eq_some_iff.mp ht
    by_cases hkind : kind' = kind
    · subst hkind
      exact h.delivered (by rw [hm]; cases kind' <;> rfl)
    · rw [Waiting.next, if_neg hkind]
      exact h.congr (by cases kind <;> cases kind' <;> first | exact absurd rfl hkind | rfl)

theorem waits_run {kind : MetricKind} {calls : List Call} {s : State}
    (h : Runs.exec step initial calls = some s)
    (hserial : Runs.EveryStep step (Serial kind) initial calls) :
    Waits kind (calls.foldl (Waiting.next kind) .none) s :=
  Runs.exec_follows (fun _ _ _ _ hw hq ht => hw.step hq ht) (waits_initial kind) hserial h

theorem Waiting.mem_capture {w : Waiting} {captured : Option Captured} {c : Captured}
    (h : c ∈ (w.capture captured).captures) : c ∈ w.captures ∨ captured = some c := by
  unfold capture at h
  split at h
  · rcases List.mem_append.mp h with h | h
    · exact .inl h
    · exact .inr (Option.mem_toList.mp h)
  · exact .inl h

theorem Waiting.mem_next {kind : MetricKind} {w : Waiting} {call : Call} {c : Captured}
    (h : c ∈ (w.next kind call).captures) : c ∈ w.captures ∨ call.captured kind = some c := by
  cases call with
  | recordPerformance => exact mem_capture h
  | flushPerformance => exact mem_capture h
  | performanceDelivered => exact mem_capture h
  | spans => exact mem_capture h
  | captureMetric => exact mem_capture h
  | captureInfrastructureMetric => exact mem_capture h
  | flushMetrics kind' =>
    rw [next] at h
    split at h <;> exact .inl h
  | metricsDelivered kind' i status =>
    left
    rw [next] at h
    split at h
    · cases htaken : w.taken with
      | none =>
        rw [htaken] at h
        exact h
      | some taken =>
        rw [htaken, Option.map_some, Option.getD_some, delivered] at h
        split at h
        · exact List.mem_of_mem_drop h
        · exact h
    · exact h

/-- What waits was captured by one of the calls. -/
theorem captured_of_waiting {kind : MetricKind} {calls : List Call} {c : Captured}
    (h : c ∈ waiting kind calls) : ∃ call ∈ calls, call.captured kind = some c := by
  have hfold : ∀ (calls : List Call) (w : Waiting), c ∈
      (calls.foldl (Waiting.next kind) w).captures → c ∈ w.captures ∨
      ∃ call ∈ calls, call.captured kind = some c := by
    intro calls
    induction calls with
    | nil => exact fun w hc => .inl hc
    | cons call calls ih =>
      intro w hc
      rcases ih _ hc with hnext | ⟨call', hcall', hc⟩
      · exact (Waiting.mem_next hnext).imp_right fun hcall => ⟨call, List.mem_cons_self, hcall⟩
      · exact .inr ⟨call', List.mem_cons_of_mem _ hcall', hc⟩
  exact (hfold calls .none h).resolve_left List.not_mem_nil

/-- From every state that calls lead to, a flush of an empty buffer hands over nothing, and one of a
buffer that holds something one body, which says the entries of the buffer in their order, each as
the metric that a call captured. Where no two flushes of the kind overlapped, these are the captures
that wait. -/
theorem flushMetrics_tells {calls : List Call} {s : State}
    (h : Runs.exec step initial calls = some s) (kind : MetricKind) :
    let live := (s.buffer kind).buffer.live
    ∃ captures,
      List.Forall₂ (Holds kind) captures live ∧
      (∀ c ∈ captures, ∃ call ∈ calls, call.captured kind = some c) ∧
      (Runs.EveryStep step (Serial kind) initial calls → captures = waiting kind calls) ∧
      ((s.buffer kind).buffer.count = 0 → (flushMetrics s kind).bodies = s.bodies) ∧
      ((s.buffer kind).buffer.count ≠ 0 → ∃ body,
        (flushMetrics s kind).bodies = s.bodies ++ [body] ∧ BodyTells kind captures body) := by
  intro live
  have hflush : ∀ captures, List.Forall₂ (Holds kind) captures live →
      (∀ c ∈ captures, ∃ call ∈ calls, call.captured kind = some c) →
      ((s.buffer kind).buffer.count = 0 → (flushMetrics s kind).bodies = s.bodies) ∧
      ((s.buffer kind).buffer.count ≠ 0 →
        ∃ body, (flushMetrics s kind).bodies = s.bodies ++ [body] ∧
        BodyTells kind captures body) := by
    intro captures hholds hcaptured
    refine ⟨fun hzero => if_pos hzero,
      fun hsome => ⟨_, if_neg hsome, bodyText_tells hholds fun c hc => ?_⟩⟩
    obtain ⟨call, -, hcall⟩ := hcaptured c hc
    exact captured_finite hcall
  by_cases hserial : Runs.EveryStep step (Serial kind) initial calls
  · have hholds := (waits_run h hserial).captures
    have hcaptured : ∀ c ∈ waiting kind calls, ∃ call ∈ calls, call.captured kind = some c :=
      fun c hc => captured_of_waiting hc
    exact ⟨waiting kind calls, hholds, hcaptured, fun _ => rfl, hflush _ hholds hcaptured⟩
  · obtain ⟨captures, hholds, hcaptured⟩ : ∃ captures, List.Forall₂ (Holds kind) captures live ∧
        ∀ c ∈ captures, ∃ call ∈ calls, call.captured kind = some c := by
      have htold : ∀ e ∈ live, ∃ call ∈ calls, ∃ c ∈ call.captured kind, e.json =
          Metrics.entryText (c.fields kind) c.now :=
        fun e he => told_run h kind e (List.mem_of_mem_take he)
      generalize live = batch at htold
      induction batch with
      | nil => exact ⟨[], .nil, by simp⟩
      | cons e batch ih =>
        obtain ⟨⟨call, hcall, c, hc, hjson⟩, hrest⟩ := List.forall_mem_cons.mp htold
        obtain ⟨captures, hholds, hcaptured⟩ := ih hrest
        exact ⟨c :: captures, .cons hjson hholds,
          List.forall_mem_cons.mpr ⟨⟨call, hcall, hc⟩, hcaptured⟩⟩
    exact ⟨captures, hholds, hcaptured, fun hnever => absurd hnever hserial,
      hflush captures hholds hcaptured⟩

/-- Two metrics of the application and one of its host, the first delivered before the second. -/
def twoMetrics : List Call :=
  [.captureMetric { dsn := some (ascii "https://k@h") } (some (ascii "orders"))
    (.finite (Rat.ofScientific 5 true 1)) 0,
    .captureInfrastructureMetric { dsn := some (ascii "https://k@h") } (some (ascii "load"))
      (.finite 2) none 0,
    .flushMetrics .custom,
    .captureMetric { dsn := some (ascii "https://k@h") } (some (ascii "refunds")) (.finite 3) 7,
    .metricsDelivered .custom 0 200]

theorem flushMetrics_tells_twoMetrics : ∃ s body, Runs.exec step initial twoMetrics = some s ∧
    (flushMetrics s .custom).bodies = s.bodies ++ [body] ∧
    BodyTells .custom
      [⟨{ dsn := some (ascii "https://k@h") }, ascii "refunds", .finite 3, none, 7⟩] body := by
  have hrun : Runs.exec step initial twoMetrics = some _ := rfl
  obtain ⟨captures, -, -, hwaiting, -, hsome⟩ := flushMetrics_tells hrun .custom
  obtain ⟨body, hbodies, htells⟩ := hsome (by decide)
  have hserial : Runs.EveryStep step (Serial .custom) initial twoMetrics := by decide +kernel
  obtain rfl := hwaiting hserial
  exact ⟨_, body, hrun, hbodies, htells⟩

end ForgeOps.Tracker
