import ForgeOpsTracker.Lib.CivilDate
import ForgeOpsTracker.Lib.Unwinding
import ForgeOpsTracker.PerformanceMaximum
import ForgeOpsTracker.Tracker

/-! What the body of a performance flush tells its reader: one sample for each transaction that the
calls recorded, with its exact count, its sum and maximum to the thousandth, and the period. -/

namespace ForgeOps.Performance
open JsonText

/-! ## What a reader finds of a bucket -/

/-- The members of a sample, its times and its two durations being the given texts. -/
def Bucket.members (config : Configuration) (b : Bucket Double) (started ended sum max : Bytes) :
    List (Bytes × Json.Value) :=
  [(ascii "transaction_name", .string b.name),
    (ascii "environment", .string (config.environment.getD [])),
    (ascii "release", stringOrNull config.release), (ascii "period_started_at", .string started),
    (ascii "period_ended_at", .string ended), (ascii "request_count", .number (decimal b.count)),
    (ascii "duration_sum_ms", .number sum), (ascii "max_duration_ms", .number max)]

/-- The number says the duration to the thousandth. -/
def SaysDuration (number : Bytes) (duration : Double) : Prop :=
  ∀ q, duration = .finite q → |Json.numberValue number - q| ≤ 1 / 2000

/-- The value is an object that says this bucket and the period from `periodStart` to
`periodEnd`. -/
def Tells (config : Configuration) (periodStart periodEnd : Nat) (b : Bucket Double)
    (v : Json.Value) : Prop :=
  ∃ started ended sum max, v = .object (b.members config started ended sum max) ∧
    Calendar.readTimestamp started = some ((periodStart : Int) * 1000) ∧
    Calendar.readTimestamp ended = some ((periodEnd : Int) * 1000) ∧
    SaysDuration sum b.durationSumMs ∧ SaysDuration max b.maxDurationMs

theorem saysDuration_fixed (duration : Double) :
    SaysDuration (Printf.fixed 3 duration) duration := by
  rintro q rfl
  exact (Printf.fixed_near 3 q).trans (by norm_num)

/-- The members of a sample as they are written. -/
def Bucket.written (config : Configuration) (b : Bucket Double) (started ended : Bytes) :
    List Json.Member :=
  [⟨ascii "transaction_name", jsonString b.name⟩,
    ⟨ascii "environment", jsonString (config.environment.getD [])⟩,
    ⟨ascii "release", jsonStringOrNull config.release⟩,
    ⟨ascii "period_started_at", jsonString started⟩, ⟨ascii "period_ended_at", jsonString ended⟩,
    ⟨ascii "request_count", decimal b.count⟩,
    ⟨ascii "duration_sum_ms", Printf.fixed 3 b.durationSumMs⟩,
    ⟨ascii "max_duration_ms", Printf.fixed 3 b.maxDurationMs⟩]

theorem written_text (config : Configuration) (b : Bucket Double) (started ended : Bytes) :
    ascii "\x7b\"transaction_name\":" ++ jsonString b.name ++
      ascii ",\"environment\":" ++ jsonString (config.environment.getD []) ++
      ascii ",\"release\":" ++ jsonStringOrNull config.release ++
      ascii ",\"period_started_at\":" ++ jsonString started ++
      ascii ",\"period_ended_at\":" ++ jsonString ended ++ numbersText b =
        Json.object (b.written config started ended) := by
  rw [numbersText]
  simp [Bucket.written, Json.object, Json.joined, Json.Member.text, Json.quoted, ascii]

theorem sampleJson_written (config : Configuration) (periodStart periodEnd : Nat)
    {b : Bucket Double} (h : Printable b) : sampleJson config periodStart periodEnd b =
      Json.object (b.written config (Calendar.timestamp periodStart)
        (Calendar.timestamp periodEnd)) := by
  rw [← written_text, sampleJson, Printf.snprintf_of_fits (numbersText_fits h)]

theorem reads_fixed (places : Nat) {d : Double} (h : d.isfinite = true) :
    Json.Reads (Printf.fixed places d) (.number (Printf.fixed places d)) := by
  cases d with
  | finite q => exact Json.reads_number (Printf.isNumber_fixed places q)
  | infinity negative => exact absurd h Bool.false_ne_true
  | nan => exact absurd h Bool.false_ne_true

theorem reads_decimal (n : Nat) : Json.Reads (decimal n) (.number (decimal n)) := by
  have hnumber := Printf.isNumber_of (.inl rfl) (Printf.isInteger_decimal n) (.inl rfl)
  simp only [List.nil_append, List.append_nil] at hnumber
  exact Json.reads_number hnumber

theorem sampleJson_tells (config : Configuration) (periodStart periodEnd : Nat) {b : Bucket Double}
    (h : Printable b) :
    ∃ v, Json.Reads (sampleJson config periodStart periodEnd b) v ∧
    Tells config periodStart periodEnd b v := by
  have hmembers : List.Forall₂ (fun n m => Json.ReadsMember n.name n.value m)
      (b.written config (Calendar.timestamp periodStart) (Calendar.timestamp periodEnd))
      (b.members config (Calendar.timestamp periodStart) (Calendar.timestamp periodEnd)
        (Printf.fixed 3 b.durationSumMs) (Printf.fixed 3 b.maxDurationMs)) :=
    .cons (readsMember_string rfl _) (.cons (readsMember_string rfl _)
      (.cons (readsMember_stringOrNull rfl _) (.cons (readsMember_string rfl _)
        (.cons (readsMember_string rfl _) (.cons (readsMember_plain rfl (reads_decimal _))
          (.cons (readsMember_plain rfl (reads_fixed 3 h.sum))
            (.cons (readsMember_plain rfl (reads_fixed 3 h.max)) .nil)))))))
  rw [sampleJson_written config periodStart periodEnd h]
  exact ⟨_, Json.reads_object hmembers, _, _, _, _, rfl, Calendar.readTimestamp_timestamp _,
    Calendar.readTimestamp_timestamp _, saysDuration_fixed _, saysDuration_fixed _⟩

/-- A body that says these buckets, one by one. -/
def BodyTells (config : Configuration) (periodStart periodEnd : Nat)
    (buckets : List (Bucket Double)) (body : Bytes) : Prop :=
  ∃ values, Json.parse body = some (.object [(ascii "samples", .array values)]) ∧
    List.Forall₂ (Tells config periodStart periodEnd) buckets values

theorem samplesJson_tells (config : Configuration) (periodStart periodEnd : Nat)
    {buckets : List (Bucket Double)} (h : ∀ b ∈ buckets, Printable b) :
    BodyTells config periodStart periodEnd buckets
      (samplesJson config buckets periodStart periodEnd) := by
  obtain ⟨values, hreads, htells⟩ : ∃ values,
      List.Forall₂ Json.Reads (buckets.map (sampleJson config periodStart periodEnd)) values ∧
        List.Forall₂ (Tells config periodStart periodEnd) buckets values := by
    induction buckets with
    | nil => exact ⟨[], .nil, .nil⟩
    | cons b buckets ih =>
      obtain ⟨hb, hbuckets⟩ := List.forall_mem_cons.mp h
      obtain ⟨values, hreads, htells⟩ := ih hbuckets
      obtain ⟨v, hread, htell⟩ := sampleJson_tells config periodStart periodEnd hb
      exact ⟨v :: values, .cons hread hreads, .cons htell htells⟩
  refine ⟨values, ?_, htells⟩
  have hbody : samplesJson config buckets periodStart periodEnd = Json.object
      [⟨ascii "samples", Json.array (buckets.map (sampleJson config periodStart periodEnd))⟩] := by
    rw [samplesJson, commaSeparated_eq_joined]
    simp [Json.object, Json.array, Json.joined, Json.Member.text, Json.quoted, ascii]
  rw [hbody]
  exact (Json.reads_object (.cons (readsMember_plain rfl (Json.reads_array hreads)) .nil)).parse

/-! ## What the calls recorded -/

section
variable {δ : Type*} [Zero δ] [Add δ] [Sub δ] [LT δ] [DecidableLT δ]

omit [Sub δ] in
/-- A record leaves the buckets there were, but for one of that name, and it counts something. -/
theorem mem_tally {name : Bytes} {durationMs : δ} {s t : State δ}
    (h : Tally name durationMs s t) {b : Bucket δ} (hb : b ∈ t.buckets) :
    b ∈ s.buckets ∨ b.name = name ∧ 0 < b.count := by
  rcases h.outcome with ⟨-, hsame⟩ | ⟨-, hfind⟩
  · exact .inl (hsame ▸ hb)
  · have hfound := hfind b.name
    rw [findBucket_of_mem h.distinct hb] at hfound
    split at hfound
    · rename_i hname
      obtain rfl := Option.some.inj hfound
      exact .inr ⟨hname, Nat.succ_pos _⟩
    · exact .inl (List.mem_of_find?_eq_some hfound.symm)

/-- A record and a flush leave at most one bucket of a name. -/
theorem distinctNames_step {s t : State δ} {a : Action δ} (h : step s a = some t)
    (hd : DistinctNames s.buckets) : DistinctNames t.buckets := by
  cases a with
  | record config name durationMs now alloc =>
    obtain rfl := Option.some.inj h
    obtain ⟨_, htally⟩ := record_spec s config name durationMs now alloc hd
    exact htally.distinct
  | flushSnapshot now allocated =>
    obtain rfl := Option.some.inj h
    unfold flushSnapshot
    split
    · exact hd
    · exact hd
  | flushSubtraction i status =>
    obtain ⟨f, -, rfl⟩ := Option.map_eq_some_iff.mp h
    unfold flushSubtraction
    dsimp only
    split
    · have hfold : ∀ (sent buckets : List (Bucket δ)), DistinctNames buckets →
          DistinctNames (sent.foldl subtractOne buckets) := by
        intro sent
        induction sent with
        | nil => exact fun _ hbuckets => hbuckets
        | cons b sent ih => exact fun _ hbuckets => ih _ (findBucket_subtractOne b [] hbuckets).1
      exact hfold f.snapshot s.buckets hd
    · exact hd

omit [Add δ] in
/-- A subtraction leaves buckets of names there were, and each counts something if it did. -/
theorem mem_subtractOne {buckets : List (Bucket δ)} {sent b : Bucket δ}
    (hb : b ∈ subtractOne buckets sent) :
    ∃ before ∈ buckets, before.name = b.name ∧ (0 < before.count → 0 < b.count) := by
  unfold subtractOne at hb
  split at hb
  · exact ⟨b, hb, rfl, id⟩
  · rename_i current hcurrent
    dsimp only at hb
    split at hb
    · unfold removeAt at hb
      split at hb
      · exact ⟨b, hb, rfl, id⟩
      · rename_i last hlast
        rcases List.mem_or_eq_of_mem_set (List.mem_of_mem_dropLast hb) with hmem | rfl
        · exact ⟨b, hmem, rfl, id⟩
        · exact ⟨b, List.mem_of_getLast? hlast, rfl, id⟩
    · rename_i hleft
      rcases List.mem_or_eq_of_mem_set hb with hmem | rfl
      · exact ⟨b, hmem, rfl, id⟩
      · exact ⟨current, List.mem_of_find?_eq_some hcurrent, rfl, fun _ => Nat.pos_of_ne_zero hleft⟩

omit [Add δ] in
theorem mem_subtractAll {sent buckets : List (Bucket δ)} {b : Bucket δ}
    (hb : b ∈ sent.foldl subtractOne buckets) :
    ∃ before ∈ buckets, before.name = b.name ∧ (0 < before.count → 0 < b.count) := by
  induction sent generalizing buckets with
  | nil => exact ⟨b, hb, rfl, id⟩
  | cons c sent ih =>
    obtain ⟨middle, hmiddle, hname, hcount⟩ := ih hb
    obtain ⟨before, hbefore, hname', hcount'⟩ := mem_subtractOne hmiddle
    exact ⟨before, hbefore, hname'.trans hname, hcount ∘ hcount'⟩

end

end ForgeOps.Performance

namespace ForgeOps.Tracker

/-- The transaction that a call records, under the name it is sent with. -/
def Call.transaction : Call → Option Bytes
  | .recordPerformance (some config) (some name) _ _ =>
    if config.trackPerformance ∧ config.isEnabled then
      some (if config.strictPrivacy then StrictPrivacy.transactionName name else name)
    else none
  | _ => none

/-- Each bucket counts something that one of the calls recorded, and no two are of one name. -/
structure Counts (calls : List Call) (s : State) : Prop where
  distinct : Performance.DistinctNames s.performance.buckets
  counted : ∀ b ∈ s.performance.buckets, 0 < b.count ∧
    ∃ call ∈ calls, call.transaction = some b.name

theorem counts_initial : Counts [] initial :=
  ⟨List.nodup_nil, fun _ hb => absurd hb List.not_mem_nil⟩

/-- Nothing new is counted by a call that leaves only buckets there were. -/
theorem Counts.kept {calls : List Call} {s t : State} (h : Counts calls s) (call : Call)
    (hdistinct : Performance.DistinctNames t.performance.buckets)
    (ht : ∀ b ∈ t.performance.buckets, ∃ before ∈ s.performance.buckets, before.name = b.name ∧
      (0 < before.count → 0 < b.count)) :
    Counts (calls ++ [call]) t := by
  refine ⟨hdistinct, fun b hb => ?_⟩
  obtain ⟨before, hbefore, hname, hcount⟩ := ht b hb
  obtain ⟨hpos, call', hcall', htransaction⟩ := h.counted before hbefore
  exact ⟨hcount hpos, call', List.mem_append_left _ hcall', hname ▸ htransaction⟩

theorem record_enabled (p : Performance.State Double) {config : Configuration}
    (h : config.trackPerformance = true ∧ config.isEnabled = true) (name : Bytes)
    (durationMs : Double) (now : Nat) :
    ∃ sent, sent = (if config.strictPrivacy then StrictPrivacy.transactionName name else name) ∧
      Performance.record p (some config) (some name) durationMs now {} =
        Performance.tally p sent durationMs now {} := by
  refine ⟨_, rfl, ?_⟩
  rw [Performance.record, if_pos h]
  cases config.strictPrivacy <;> rfl

theorem Counts.step {calls : List Call} {s t : State} (h : Counts calls s) {call : Call}
    (ht : step s call = some t) : Counts (calls ++ [call]) t := by
  have hsame : ∀ {u : State}, u.performance.buckets = s.performance.buckets →
      Counts (calls ++ [call]) u := fun heq =>
    h.kept call (heq ▸ h.distinct) fun b hb => ⟨b, heq ▸ hb, rfl, id⟩
  cases call with
  | recordPerformance config name durationMs now =>
    obtain rfl := Option.some.inj ht
    cases config with
    | none => exact hsame rfl
    | some config =>
      cases name with
      | none => exact hsame rfl
      | some name =>
        by_cases htracks : config.trackPerformance = true ∧ config.isEnabled = true
        · obtain ⟨sent, hsent, heq⟩ := record_enabled s.performance htracks name durationMs now
          have htally := Performance.tally_spec s.performance sent durationMs now {} h.distinct
          rw [← heq] at htally
          refine ⟨htally.distinct, fun b hb => ?_⟩
          rcases Performance.mem_tally htally hb with hbefore | ⟨hname, hpos⟩
          · obtain ⟨hcount, call', hcall', htransaction⟩ := h.counted b hbefore
            exact ⟨hcount, call', List.mem_append_left _ hcall', htransaction⟩
          · refine ⟨hpos, _, List.mem_append_right _ (List.mem_singleton_self _), ?_⟩
            rw [Call.transaction, if_pos htracks, ← hsent, hname]
        · refine hsame ?_
          show (Performance.record s.performance (some config) (some name) durationMs now
            {}).buckets = _
          rw [Performance.record, if_neg htracks]
  | flushPerformance config now =>
    obtain rfl := Option.some.inj ht
    refine hsame ?_
    show (Performance.flushSnapshot s.performance now true).buckets = _
    unfold Performance.flushSnapshot
    split <;> rfl
  | performanceDelivered i status =>
    obtain ⟨p, hp, rfl⟩ := Option.map_eq_some_iff.mp ht
    refine h.kept _ (Performance.distinctNames_step hp h.distinct) fun b hb => ?_
    obtain ⟨f, -, rfl⟩ := Option.map_eq_some_iff.mp hp
    dsimp only at hb
    unfold Performance.flushSubtraction at hb
    dsimp only at hb
    split at hb
    · exact Performance.mem_subtractAll hb
    · exact ⟨b, hb, rfl, id⟩
  | captureMetric config name value now =>
    obtain rfl := Option.some.inj ht
    exact hsame rfl
  | captureInfrastructureMetric config name value hostname now =>
    obtain rfl := Option.some.inj ht
    exact hsame rfl
  | flushMetrics kind =>
    obtain rfl := Option.some.inj ht
    cases kind <;> exact hsame rfl
  | metricsDelivered kind i status =>
    obtain ⟨m, -, rfl⟩ := Option.map_eq_some_iff.mp ht
    cases kind <;> exact hsame rfl
  | spans thread action =>
    obtain ⟨u, -, rfl⟩ := Option.map_eq_some_iff.mp ht
    exact hsame rfl

theorem counts_run {calls : List Call} {s : State} (h : Runs.exec step initial calls = some s) :
    Counts calls s :=
  Runs.exec_told counts_initial (fun _ _ _ _ hs ht => hs.step ht) h

/-- What the samples of a flush say: each transaction once, with the records counted that the calls
made. -/
structure SamplesTell (calls : List Call) (config : Configuration) (periodStart periodEnd : Nat)
    (buckets : List (Performance.Bucket Double)) (body : Bytes) : Prop where
  values : Performance.BodyTells config periodStart periodEnd buckets body
  names : (buckets.map Performance.Bucket.name).Nodup
  counted : ∀ b ∈ buckets, 0 < b.count ∧ ∃ call ∈ calls, call.transaction = some b.name

/-- From every state that calls lead to, a performance flush hands over at most one body; and where
the numbers can be printed, it tells what was recorded. -/
theorem flushPerformance_tells {calls : List Call} {s : State}
    (h : Runs.exec step initial calls = some s) (config : Configuration) (now : Nat)
    (hprintable : ∀ b ∈ s.performance.buckets, Performance.Printable b) :
    s.performance.buckets = [] ∧ (flushPerformance s config now).bodies = s.bodies ∨
      ∃ body, (flushPerformance s config now).bodies = s.bodies ++ [body] ∧
        SamplesTell calls config s.performance.periodStartedAt now s.performance.buckets body := by
  have hcounts := counts_run h
  unfold flushPerformance
  dsimp only
  by_cases hempty : s.performance.buckets = []
  · rw [if_pos hempty]
    exact .inl ⟨hempty, rfl⟩
  · rw [if_neg hempty]
    exact .inr ⟨_, rfl, Performance.samplesJson_tells config _ now hprintable, hcounts.distinct,
      hcounts.counted⟩

/-- Two requests of one route. -/
def twoRequests : List Call :=
  [.recordPerformance (some { dsn := some (ascii "https://k@h") }) (some (ascii "GET /orders"))
    (.finite (49 / 4)) 0, .recordPerformance (some { dsn := some (ascii "https://k@h") })
    (some (ascii "GET /orders")) (.finite 20) 3]

theorem flushPerformance_tells_twoRequests : ∃ s, Runs.exec step initial twoRequests = some s ∧
    (s.performance.buckets = [] ∧ (flushPerformance s {} 60).bodies = s.bodies ∨
      ∃ body, (flushPerformance s {} 60).bodies = s.bodies ++ [body] ∧
        SamplesTell twoRequests {} s.performance.periodStartedAt 60
          s.performance.buckets body) := by
  have hrun : Runs.exec step initial twoRequests = some _ := rfl
  refine ⟨_, hrun, ?_⟩
  exact flushPerformance_tells hrun {} 60 (by decide +kernel)

end ForgeOps.Tracker
