import ForgeOpsTracker.Lib.CivilDate
import ForgeOpsTracker.EventJson
import ForgeOpsTracker.SdkThreads

/-! What the payload of an error tells its reader, under every configuration: which texts are
scrubbed, which pairs are redacted or left out, what is left of the statement, and the instant it
happened. A thread that captures an error after any run of calls writes one payload, and it says
that. -/

namespace ForgeOps.EventBuilder
open JsonText

/-! ## The fields of a payload -/

/-- A text as it is sent. -/
def sentText (config : Configuration) (text : Bytes) : Bytes :=
  if config.scrubPii then PiiScrubber.scrubString text else text

def messageFields (config : Configuration) (message : Option Bytes) : List (Bytes × Json.Value) :=
  if config.strictPrivacy then
    [(ascii "message", .string []), (ascii "message_fingerprint",
      .string (fingerprintOf config message))]
  else [(ascii "message", stringOrNull (message.map (sentText config)))]

def frameValue (config : Configuration) (frame : Frame) : Json.Value :=
  .object [(ascii "file", .string (sentText config frame.image)), (ascii "line", .null),
    (ascii "method", .string (sentText config frame.symbol)), (ascii "in_app", .bool false)]

def surroundingFields (config : Configuration) (s : Surroundings) (occurredAt : Bytes) :
    List (Bytes × Json.Value) :=
  [(ascii "backtrace",
    .array (((s.symbols.getD []).filterMap parseFrameLine).map (frameValue config))),
    (ascii "occurred_at", .string occurredAt),
    (ascii "environment", stringOrNull config.environment),
    (ascii "release", stringOrNull config.release),
    (ascii "server_name", stringOrNull config.serverName)]

/-- A pair of the context, its value redacted under a sensitive key. -/
def contextPair (config : Configuration) (pair : Option Bytes × Option Bytes) :
    Bytes × Json.Value :=
  (pair.1.getD [],
    if config.scrubPii && PiiScrubber.isSensitiveKey pair.1 then .string PiiScrubber.redacted
    else stringOrNull (pair.2.map (sentText config)))

def contextFields (config : Configuration) (context : List (Option Bytes × Option Bytes)) :
    List (Bytes × Json.Value) :=
  (if config.strictPrivacy = true ∧ keptPairs config context = [] then []
    else [(ascii "context", .object ((keptPairs config context).map (contextPair config)))]) ++
  (if config.strictPrivacy then [] else [(ascii "tags", .object [])]) ++
  [(ascii "sdk_name", .string (ascii "c"))]

def userFields (config : Configuration) (user : List (Option Bytes × Option Bytes)) :
    List (Bytes × Json.Value) :=
  if config.strictPrivacy then
    ((StrictPrivacy.userId user).map fun id =>
      (ascii "user", Json.Value.object [(ascii "id", .string id)])).toList
  else if user = [] then []
  else [(ascii "user", .object (user.map pairValue))]

def breadcrumbsFields (config : Configuration) (breadcrumbs : List Json.Value) :
    List (Bytes × Json.Value) :=
  if breadcrumbs ≠ [] ∧ ¬ config.strictPrivacy
    then [(ascii "breadcrumbs", .array breadcrumbs)] else []

def traceFields (traceId : Option Bytes) : List (Bytes × Json.Value) :=
  (traceId.map fun id => (ascii "trace_id", Json.Value.string id)).toList

def sentFields (config : Configuration) (event : Event) (s : Surroundings) (occurredAt : Bytes)
    (breadcrumbs : List Json.Value) (sql : List (Bytes × Json.Value)) : List (Bytes × Json.Value) :=
  (ascii "exception_class", stringOrNull event.exceptionClass) ::
    (messageFields config event.message ++ surroundingFields config s occurredAt ++
      contextFields config event.context ++ userFields config event.user ++
      breadcrumbsFields config breadcrumbs ++ sql ++ traceFields s.traceId)

/-- Where they are asked for and there are any, the names of a masked statement are sent, and are
whole identifiers of it. -/
def ObjectsTell (config : Configuration) (masked : Bytes)
    (fields : List (Bytes × Json.Value)) : Prop :=
  match if config.captureSqlObjects then SqlStatement.objectsJson (some masked) else none with
  | none => fields = []
  | some objects => ∃ operation procedures relations,
      Json.parse objects = some (SqlStatement.objectsValue operation procedures relations) ∧
        fields = [(ascii "sql_objects", SqlStatement.objectsValue operation procedures relations)] ∧
        (∀ word ∈ operation, word ∈ SqlStatement.operations.map ascii) ∧
        SqlStatement.IsNameList masked procedures ∧ SqlStatement.IsNameList masked relations

/-- Of a statement its names are sent, and its masked text where that is asked for. -/
def StatementTells (config : Configuration) (sql : Option Bytes)
    (fields : List (Bytes × Json.Value)) : Prop :=
  match SqlStatement.mask sql with
  | none => fields = []
  | some masked => ∃ objects, ObjectsTell config masked objects ∧
      fields = objects ++
        if config.captureSqlStatement && !config.strictPrivacy then
          [(ascii "sql_statement", .string (sentText config masked))]
        else []

/-- The payload says the event. -/
def Tells (config : Configuration) (event : Event) (s : Surroundings) (payload : Bytes) : Prop :=
  ∃ occurredAt breadcrumbs sql,
    Json.parse payload = some (.object (sentFields config event s occurredAt breadcrumbs sql)) ∧
      Calendar.readTimestamp occurredAt = some ((s.now : Int) * 1000) ∧
      event.breadcrumbs.map Json.parse = breadcrumbs.map some ∧ StatementTells config event.sql sql

/-! ## What a reader finds -/

def ReadAs (members : List Json.Member) (fields : List (Bytes × Json.Value)) : Prop :=
  List.Forall₂ (fun n m => Json.ReadsMember n.name n.value m) members fields

theorem readAs_string {name : Bytes} (h : name.all Json.isPlain = true) (value : Bytes) :
    ReadAs [⟨name, jsonString value⟩] [(name, .string value)] :=
  .cons (readsMember_string h value) .nil

theorem messageMembers_read (config : Configuration) (message : Option Bytes) :
    ReadAs (messageMembers config message) (messageFields config message) := by
  rw [messageMembers, messageFields]
  split
  · exact .cons (readsMember_string rfl []) (readAs_string rfl _)
  · have hmessage : messageToWrite config message = message.map (sentText config) := by
      unfold messageToWrite sentText
      split
      · rfl
      · exact Option.map_id'.symm
    rw [hmessage]
    exact .cons (readsMember_stringOrNull rfl _) .nil

theorem reads_frame (config : Configuration) (frame : Frame) :
    Json.Reads (frameJson config frame) (frameValue config frame) := by
  rw [frameJson_eq]
  exact Json.reads_object (.cons (readsMember_string rfl _)
    (.cons (readsMember_plain rfl Json.reads_null)
      (.cons (readsMember_string rfl _)
        (.cons (readsMember_plain rfl Json.reads_false) .nil))))

theorem reads_backtrace (config : Configuration) (symbols : Option (List Bytes)) :
    Json.Reads (backtraceJson config symbols)
      (.array (((symbols.getD []).filterMap parseFrameLine).map (frameValue config))) := by
  rw [backtraceJson, commaSeparated_eq_joined]
  refine Json.reads_array ?_
  generalize (symbols.getD []).filterMap parseFrameLine = frames
  induction frames with
  | nil => exact .nil
  | cons frame frames ih => exact .cons (reads_frame config frame) ih

theorem surroundingMembers_read (config : Configuration) (s : Surroundings) :
    ReadAs (surroundingMembers config s) (surroundingFields config s (Calendar.timestamp s.now)) :=
  .cons (readsMember_plain rfl (reads_backtrace config s.symbols))
    (.cons (readsMember_string rfl _)
      (.cons (readsMember_stringOrNull rfl _)
        (.cons (readsMember_stringOrNull rfl _)
          (.cons (readsMember_stringOrNull rfl _) .nil))))

theorem reads_contextValue (config : Configuration) (pair : Option Bytes × Option Bytes) :
    Json.Reads (contextValue config pair) (contextPair config pair).2 := by
  have hscrubbed : (if config.scrubPii then pair.2.map PiiScrubber.scrubString else pair.2) =
      pair.2.map (sentText config) := by
    unfold sentText
    split
    · rfl
    · exact Option.map_id'.symm
  unfold contextValue contextPair
  split
  · exact reads_jsonString _
  · rw [hscrubbed]
    exact reads_jsonStringOrNull _

theorem reads_context (config : Configuration) (pairs : List (Option Bytes × Option Bytes)) :
    Json.Reads (Json.object (pairs.map (pairMember (contextValue config))))
      (.object (pairs.map (contextPair config))) := by
  apply Json.reads_object
  induction pairs with
  | nil => exact .nil
  | cons pair pairs ih => exact .cons (readsMember_escaped _ (reads_contextValue config pair)) ih

theorem contextMembers_read (config : Configuration)
    (context : List (Option Bytes × Option Bytes)) :
    ReadAs (contextMembers config context) (contextFields config context) := by
  refine List.rel_append (List.rel_append ?_ ?_) (readAs_string rfl _)
  · split
    · exact .nil
    · exact .cons (readsMember_plain rfl (reads_context config _)) .nil
  · split
    · exact .nil
    · exact .cons (readsMember_plain rfl (Json.reads_emptyObject (w := []) rfl)) .nil

theorem userMembers_read (config : Configuration) (user : List (Option Bytes × Option Bytes)) :
    ReadAs (userMembers config user) (userFields config user) := by
  rw [userMembers, userFields]
  split
  · cases StrictPrivacy.userId user with
    | none => exact .nil
    | some id => exact .cons (readsMember_plain rfl (Json.reads_object (readAs_string rfl id))) .nil
  · split
    · exact .nil
    · exact .cons (readsMember_plain rfl (reads_pairs user fun _ => rfl)) .nil

theorem breadcrumbsMembers_read (config : Configuration) {breadcrumbs : List Bytes}
    {values : List Json.Value} (h : List.Forall₂ Json.Reads breadcrumbs values) :
    ReadAs (breadcrumbsMembers config breadcrumbs) (breadcrumbsFields config values) := by
  have hempty : (breadcrumbs ≠ [] ∧ ¬ config.strictPrivacy) ↔
      (values ≠ [] ∧ ¬ config.strictPrivacy) := by
    cases h <;> simp
  rw [breadcrumbsMembers, breadcrumbsFields]
  by_cases hkept : values ≠ [] ∧ ¬ config.strictPrivacy
  · rw [if_pos (hempty.mpr hkept), if_pos hkept]
    exact .cons (readsMember_plain rfl (Json.reads_array h)) .nil
  · rw [if_neg fun hwritten => hkept (hempty.mp hwritten), if_neg hkept]
    exact .nil

theorem traceMembers_read (traceId : Option Bytes) :
    ReadAs (traceMembers traceId) (traceFields traceId) := by
  cases traceId with
  | none => exact .nil
  | some id => exact readAs_string rfl id

/-- The names of a masked statement, as they are read. -/
theorem objects_read (config : Configuration) (masked : Bytes) :
    ∃ fields, ObjectsTell config masked fields ∧ ReadAs (if config.captureSqlObjects then
        ((SqlStatement.objectsJson (some masked)).map fun objects =>
          (⟨ascii "sql_objects", objects⟩ : Json.Member)).toList
      else []) fields := by
  unfold ObjectsTell
  cases config.captureSqlObjects with
  | false => exact ⟨[], rfl, .nil⟩
  | true =>
    simp only [if_true]
    cases hobjects : SqlStatement.objectsJson (some masked) with
    | none => exact ⟨[], rfl, .nil⟩
    | some objects =>
      obtain ⟨operation, procedures, relations, rfl, hoperation, hprocedures, hrelations⟩ :=
        SqlStatement.objectsJson_eq_some hobjects
      have hreads := SqlStatement.reads_objects operation procedures relations
      refine ⟨_, ⟨_, procedures, relations, hreads.parse, rfl, ?_, hprocedures, hrelations⟩,
        .cons (readsMember_plain rfl hreads) .nil⟩
      intro word hword
      split at hword
      · rename_i hne
        obtain rfl := Option.some.inj hword
        exact hoperation.resolve_left hne
      · exact absurd hword (Option.not_mem_none word)

theorem sqlMembers_read (config : Configuration) (sql : Option Bytes) :
    ∃ fields, StatementTells config sql fields ∧ ReadAs (sqlMembers config sql) fields := by
  unfold StatementTells sqlMembers
  cases SqlStatement.mask sql with
  | none => exact ⟨[], rfl, .nil⟩
  | some masked =>
    obtain ⟨objects, htell, hread⟩ := objects_read config masked
    refine ⟨_, ⟨objects, htell, rfl⟩, List.rel_append hread ?_⟩
    split
    · exact readAs_string rfl _
    · exact .nil

/-- Under every configuration the payload says the event. -/
theorem buildEventJsonWithSql_tells (config : Configuration) {event : Event}
    (h : ∀ entry ∈ event.breadcrumbs, Json.WellFormed entry) (s : Surroundings) :
    Tells config event s (buildEventJsonWithSql config event s) := by
  obtain ⟨breadcrumbs, hreads, hparses⟩ := Json.exists_reads_all h
  obtain ⟨sql, hsql, hstatement⟩ := sqlMembers_read config event.sql
  refine ⟨Calendar.timestamp s.now, breadcrumbs, sql, ?_,
    Calendar.readTimestamp_timestamp s.now, hparses, hsql⟩
  rw [buildEventJsonWithSql_eq]
  refine (Json.reads_object (.cons (readsMember_stringOrNull rfl _) ?_)).parse
  exact List.rel_append (List.rel_append (List.rel_append (List.rel_append (List.rel_append
    (List.rel_append (messageMembers_read config event.message) (surroundingMembers_read config s))
    (contextMembers_read config event.context)) (userMembers_read config event.user))
    (breadcrumbsMembers_read config hreads)) hstatement) (traceMembers_read s.traceId)

end ForgeOps.EventBuilder

namespace ForgeOps.Sdk

/-- The breadcrumbs that calls leave a thread are JSON. -/
theorem ownEvent_breadcrumbs {calls : List Call} {s : State} {thread : Nat}
    (h : Owns thread calls s) (capture : Capture) :
    ∀ entry ∈ (ownEvent thread calls capture).breadcrumbs, Json.WellFormed entry := by
  have hsound : ∀ (events : List Breadcrumbs.Event) (trail : Breadcrumbs.Trail),
      Breadcrumbs.Sound trail → Breadcrumbs.Sound (events.foldl Breadcrumbs.handle trail) := by
    intro events
    induction events with
    | nil => exact fun _ htrail => htrail
    | cons event events ih =>
      intro trail htrail
      refine ih _ ?_
      cases event with
      | add call =>
        have hadd : Breadcrumbs.step trail (.add call {}) =
            some (Breadcrumbs.add call {} trail) := rfl
        exact htrail.step hadd
      | clear =>
        have hclear : Breadcrumbs.step trail .clear = some (Breadcrumbs.clear trail) := rfl
        exact htrail.step hclear
  have hentries : Breadcrumbs.Sound (s.trails thread) := by
    rw [h.trail]
    exact hsound _ _ fun _ hentry => absurd hentry List.not_mem_nil
  intro entry hentry
  obtain ⟨members, hvalid, rfl⟩ := (hentries entry (entries_own h ▸ hentry)).object
  exact Json.object_wellFormed hvalid

/-- After any run of calls, an error that a thread captures is written as one payload, which says
the error with the user, the breadcrumbs and the trace that the thread's own calls have left. -/
theorem captureError_tells {calls : List Call} {s : State}
    (h : Runs.exec step initial calls = some s) (thread : Nat) {config : Configuration}
    (henabled : config.isEnabled = true) (capture : Capture)
    (symbols : Option (List Bytes)) (now : Nat) :
    ∃ payload, (captureError s thread config capture symbols now).written = s.written ++ [payload] ∧
      EventBuilder.Tells config (ownEvent thread calls capture)
        ⟨now, symbols, ownTraceId thread calls⟩ payload := by
  have howns := owns_run h thread
  refine ⟨_, ?_, EventBuilder.buildEventJsonWithSql_tells config
    (ownEvent_breadcrumbs howns capture) _⟩
  rw [captureError, if_pos henabled, event_own howns, traceId_own howns]

def paymentConfiguration : Configuration :=
  { dsn := some (ascii "https://k@h"), captureSqlStatement := true }

/-- A user is known and a step was noted on the thread on which a payment then fails. -/
def checkout : List Call :=
  [.setUser 1 [(ascii "id", ascii "7")],
    .breadcrumb 1
      (.add { config := paymentConfiguration, message := some (ascii "cart paid"), now := 0 }),
    .tracker (.spans 1 (.traceBegin (some paymentConfiguration) none
      ⟨ascii "fee1dead51916cd43dd8448eb21131ab", rfl, rfl, rfl⟩
      ⟨ascii "ba5eba11c0ffee12", rfl, rfl, rfl⟩ true)),
    .setUser 2 [(ascii "id", ascii "8")]]

def declined : Capture where
  exceptionClass := some (ascii "ChargeDeclined")
  message := some (ascii "card 4242 4242 4242 4242 declined")
  sql := some (ascii "UPDATE orders SET state = 'declined' WHERE id = 17")
  context := [(some (ascii "password"), some (ascii "secret")),
    (some (ascii "order"), some (ascii "17"))]

theorem captureError_tells_checkout : ∃ s, Runs.exec step initial checkout = some s ∧
    ∃ payload,
      (captureError s 1 paymentConfiguration declined none 60).written = s.written ++ [payload] ∧
      EventBuilder.Tells paymentConfiguration (ownEvent 1 checkout declined)
        ⟨60, none, ownTraceId 1 checkout⟩ payload := by
  have hrun : Runs.exec step initial checkout = some _ := rfl
  exact ⟨_, hrun, captureError_tells hrun 1 (by decide) declined none 60⟩

end ForgeOps.Sdk
