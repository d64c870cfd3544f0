import ForgeOpsTracker.Lib.Calendar
import ForgeOpsTracker.JsonText
import ForgeOpsTracker.PiiScrubber
import ForgeOpsTracker.StrictPrivacy
import ForgeOpsTracker.SqlStatement

/-! The payload of a reported error (`event_builder.c`), and what of an error it depends
on under strict privacy. Allocations succeed. -/

namespace ForgeOps.EventBuilder

/-! ## Backtrace frames -/

/-- `trim_trailing_space` -/
def trimTrailingSpace (s : Bytes) : Bytes :=
  (s.reverse.dropWhile fun c => c == 32 || c == 9).reverse

/-- `[[:space:]]*[0-9]+[[:space:]]*$` -/
def isOffset (s : Bytes) : Bool :=
  let digits := s.dropWhile Byte.isSpace
  (digits.takeWhile Byte.isDigit).length > 0 && (digits.dropWhile Byte.isDigit).all Byte.isSpace

/-- `[[:space:]]+(.+)\+[[:space:]]*[0-9]+[[:space:]]*$`: the group, the blanks before it being
as many as can be. An offset has no plus, so the one before it is the last. -/
def symbolGroup (s : Bytes) : Option Bytes :=
  let offset := (s.reverse.takeWhile (· ≠ 43)).reverse
  let before := (s.take (s.length - offset.length)).dropLast
  let blanks := (before.takeWhile Byte.isSpace).length
  if offset.length < s.length ∧ isOffset offset ∧ blanks > 0 then
    if blanks < before.length then some (before.drop blanks)
    else if blanks > 1 then some (before.drop (blanks - 1))
    else none
  else none

structure Frame where
  image : Bytes
  symbol : Bytes
  deriving DecidableEq, Repr

/-- `parse_frame_line`: number, image, address and symbol of a line of `backtrace_symbols`. -/
def parseFrameLine (line : Bytes) : Option Frame :=
  let s := line.dropWhile Byte.isSpace
  let number := s.takeWhile Byte.isDigit
  let s := s.drop number.length
  let blanks := s.takeWhile Byte.isSpace
  let s := s.drop blanks.length
  let image := s.takeWhile fun c => ¬ Byte.isSpace c
  let s := s.drop image.length
  let moreBlanks := s.takeWhile Byte.isSpace
  match s.drop moreBlanks.length with
  | 48 :: 120 :: s =>
    let address := s.takeWhile Byte.isHex
    if number ≠ [] ∧ blanks ≠ [] ∧ image ≠ [] ∧ moreBlanks ≠ [] ∧ address ≠ [] then
      (symbolGroup (s.drop address.length)).map fun symbol => ⟨image, trimTrailingSpace symbol⟩
    else none
  | _ => none

/-- No frame is in the application, so its source context is always left out. -/
def frameJson (config : Configuration) (frame : Frame) : Bytes :=
  let scrubbed := fun s => if config.scrubPii then PiiScrubber.scrubString s else s
  ascii "\x7b\"file\":" ++ JsonText.jsonString (scrubbed frame.image) ++
    ascii ",\"line\":null,\"method\":" ++ JsonText.jsonString (scrubbed frame.symbol) ++
    ascii ",\"in_app\":false\x7d"

/-- `append_backtrace_json`, from the lines `backtrace_symbols` gives. -/
def backtraceJson (config : Configuration) (symbols : Option (List Bytes)) : Bytes :=
  ascii "[" ++ JsonText.commaSeparated
    (((symbols.getD []).filterMap parseFrameLine).map (frameJson config)) ++ ascii "]"

/-! ## The payload -/

/-- What a caller reports. Outside strict privacy no key is `NULL`. -/
structure Event where
  exceptionClass : Option Bytes
  message : Option Bytes
  context : List (Option Bytes × Option Bytes) := []
  user : List (Option Bytes × Option Bytes) := []
  breadcrumbs : List Bytes := []
  sql : Option Bytes := none

/-- What the payload takes from the thread and the clock. -/
structure Surroundings where
  now : Nat
  symbols : Option (List Bytes)
  traceId : Option Bytes

def messageToWrite (config : Configuration) (message : Option Bytes) : Option Bytes :=
  if config.scrubPii then message.map PiiScrubber.scrubString else message

/-- The fingerprint strict privacy sends for a message. -/
def fingerprintOf (config : Configuration) (message : Option Bytes) : Bytes :=
  StrictPrivacy.messageFingerprint (messageToWrite config message)

def messageField (config : Configuration) (message : Option Bytes) : Bytes :=
  if config.strictPrivacy then
    ascii "\"\",\"message_fingerprint\":" ++ JsonText.jsonString (fingerprintOf config message)
  else JsonText.jsonStringOrNull (messageToWrite config message)

/-- Strict privacy leaves a pair out: its key is not allowed, or it has no value. -/
def keepsPair (config : Configuration) (pair : Option Bytes × Option Bytes) : Bool :=
  match pair with
  | (some key, some _) => StrictPrivacy.allowsField config key
  | _ => false

def contextValue (config : Configuration) (pair : Option Bytes × Option Bytes) : Bytes :=
  if config.scrubPii && PiiScrubber.isSensitiveKey pair.1 then
    JsonText.jsonString PiiScrubber.redacted
  else
    JsonText.jsonStringOrNull
      (if config.scrubPii then pair.2.map PiiScrubber.scrubString else pair.2)

/-- The loop that writes the context: its text and how many pairs are written in all. -/
def writeContext (config : Configuration) (written : Nat) :
    List (Option Bytes × Option Bytes) → Bytes × Nat
  | [] => ([], written)
  | pair :: pairs =>
    if config.strictPrivacy && !keepsPair config pair then writeContext config written pairs
    else
      ((if written > 0 then ascii "," else []) ++
        JsonText.jsonString (pair.1.getD []) ++ ascii ":" ++ contextValue config pair ++
        (writeContext config (written + 1) pairs).1,
       (writeContext config (written + 1) pairs).2)

def contextField (config : Configuration) (context : List (Option Bytes × Option Bytes)) : Bytes :=
  let counted := if config.strictPrivacy then (context.filter (keepsPair config)).length else 0
  (if !config.strictPrivacy || counted > 0 then ascii ",\"context\":\x7b" else []) ++
    (writeContext config 0 context).1 ++
    if config.strictPrivacy then
      (if (writeContext config 0 context).2 > 0 then ascii "\x7d" else []) ++
        ascii ",\"sdk_name\":\"c\""
    else ascii "\x7d,\"tags\":\x7b\x7d,\"sdk_name\":\"c\""

def userField (config : Configuration) (user : List (Option Bytes × Option Bytes)) : Bytes :=
  if config.strictPrivacy then
    match StrictPrivacy.userId user with
    | none => []
    | some id => ascii ",\"user\":\x7b\"id\":" ++ JsonText.jsonString id ++ ascii "\x7d"
  else if user = [] then []
  else
    ascii ",\"user\":\x7b" ++
      JsonText.commaSeparated (user.map fun pair =>
        JsonText.jsonString (pair.1.getD []) ++ ascii ":" ++ JsonText.jsonStringOrNull pair.2) ++
      ascii "\x7d"

def breadcrumbsField (config : Configuration) (breadcrumbs : List Bytes) : Bytes :=
  if breadcrumbs ≠ [] ∧ ¬ config.strictPrivacy then
    ascii ",\"breadcrumbs\":[" ++ JsonText.commaSeparated breadcrumbs ++ ascii "]"
  else []

def sqlField (config : Configuration) (sql : Option Bytes) : Bytes :=
  if sql.isSome && (config.captureSqlObjects || config.captureSqlStatement) then
    match SqlStatement.mask sql with
    | none => []
    | some masked =>
      (if config.captureSqlObjects then
        match SqlStatement.objectsJson (some masked) with
        | none => []
        | some objects => ascii ",\"sql_objects\":" ++ objects
      else []) ++
        if config.captureSqlStatement && !config.strictPrivacy then
          ascii ",\"sql_statement\":" ++
            JsonText.jsonString (if config.scrubPii then PiiScrubber.scrubString masked else masked)
        else []
  else []

def traceField (traceId : Option Bytes) : Bytes :=
  match traceId with
  | none => []
  | some id => ascii ",\"trace_id\":" ++ JsonText.jsonString id

/-- `forgeops_build_event_json_with_sql` -/
def buildEventJsonWithSql (config : Configuration) (event : Event) (s : Surroundings) : Bytes :=
  ascii "\x7b\"exception_class\":" ++ JsonText.jsonStringOrNull event.exceptionClass ++
    ascii ",\"message\":" ++ messageField config event.message ++
    ascii ",\"backtrace\":" ++ backtraceJson config s.symbols ++
    ascii ",\"occurred_at\":" ++ JsonText.jsonString (Calendar.timestamp s.now) ++
    ascii ",\"environment\":" ++ JsonText.jsonStringOrNull config.environment ++
    ascii ",\"release\":" ++ JsonText.jsonStringOrNull config.release ++
    ascii ",\"server_name\":" ++ JsonText.jsonStringOrNull config.serverName ++
    contextField config event.context ++ userField config event.user ++
    breadcrumbsField config event.breadcrumbs ++ sqlField config event.sql ++
    traceField s.traceId ++ ascii "\x7d"

/-! ## Under strict privacy -/

/-- The facts of an error strict privacy still sends. -/
structure SameFacts (config : Configuration) (a b : Event) : Prop where
  exceptionClass : a.exceptionClass = b.exceptionClass
  fingerprint : fingerprintOf config a.message = fingerprintOf config b.message
  context : a.context.filter (keepsPair config) = b.context.filter (keepsPair config)
  userId : StrictPrivacy.userId a.user = StrictPrivacy.userId b.user
  sqlObjects : SqlStatement.objectsJson (SqlStatement.mask a.sql) =
    SqlStatement.objectsJson (SqlStatement.mask b.sql)

section
variable {config : Configuration} (hstrict : config.strictPrivacy = true)
include hstrict

/-- The loop over the context passes over every pair that is left out. -/
theorem writeContext_filter (written : Nat) (context : List (Option Bytes × Option Bytes)) :
    writeContext config written context =
      writeContext config written (context.filter (keepsPair config)) := by
  induction context generalizing written with
  | nil => rfl
  | cons pair pairs ih =>
    by_cases hkeep : keepsPair config pair
    · rw [List.filter_cons_of_pos hkeep]
      simp only [writeContext, hstrict, hkeep, Bool.not_true, Bool.and_false, Bool.false_eq_true,
        if_false, ih (written + 1)]
    · rw [List.filter_cons_of_neg hkeep, ← ih written, writeContext,
        if_pos (by simp [hstrict, hkeep])]

theorem contextField_congr {a b : List (Option Bytes × Option Bytes)}
    (h : a.filter (keepsPair config) = b.filter (keepsPair config)) :
    contextField config a = contextField config b := by
  have hwrite : writeContext config 0 a = writeContext config 0 b := by
    rw [writeContext_filter hstrict 0 a, writeContext_filter hstrict 0 b, h]
  rw [contextField, contextField, h, hwrite]

theorem userField_congr {a b : List (Option Bytes × Option Bytes)}
    (h : StrictPrivacy.userId a = StrictPrivacy.userId b) :
    userField config a = userField config b := by
  rw [userField, userField, if_pos hstrict, if_pos hstrict, h]

theorem breadcrumbsField_nil (breadcrumbs : List Bytes) :
    breadcrumbsField config breadcrumbs = [] :=
  if_neg fun h => h.2 hstrict

/-- Only the names of what the statement touches are left of it. -/
theorem sqlField_eq (sql : Option Bytes) : sqlField config sql =
    if config.captureSqlObjects then
      ((SqlStatement.objectsJson (SqlStatement.mask sql)).map
        (ascii ",\"sql_objects\":" ++ ·)).getD []
    else [] := by
  have hnone : SqlStatement.objectsJson none = none := rfl
  cases sql with
  | none =>
    show [] = _
    rw [show SqlStatement.mask none = none from rfl, hnone]
    split <;> rfl
  | some s =>
    unfold sqlField
    cases hobjects : config.captureSqlObjects with
    | false =>
      split
      · cases SqlStatement.mask (some s) with
        | none => rfl
        | some masked => simp [hstrict]
      · rfl
    | true =>
      rw [if_pos rfl]
      cases hmask : SqlStatement.mask (some s) with
      | none => rfl
      | some masked =>
        cases hnames : SqlStatement.objectsJson (some masked) with
        | none => simp [hstrict, hnames]
        | some names => simp [hstrict, hnames]

theorem messageField_congr {a b : Option Bytes}
    (h : fingerprintOf config a = fingerprintOf config b) :
    messageField config a = messageField config b := by
  rw [messageField, messageField, if_pos hstrict, if_pos hstrict, h]

/-- Two errors that agree on the facts strict privacy sends have the same payload. -/
theorem strictPayload_determined {a b : Event} (h : SameFacts config a b) (s : Surroundings) :
    buildEventJsonWithSql config a s = buildEventJsonWithSql config b s := by
  have hsql : sqlField config a.sql = sqlField config b.sql := by
    rw [sqlField_eq hstrict a.sql, sqlField_eq hstrict b.sql, h.sqlObjects]
  unfold buildEventJsonWithSql
  rw [h.exceptionClass, messageField_congr hstrict h.fingerprint,
    contextField_congr hstrict h.context, userField_congr hstrict h.userId,
    breadcrumbsField_nil hstrict a.breadcrumbs, breadcrumbsField_nil hstrict b.breadcrumbs, hsql]

end

def privateConfiguration : Configuration :=
  { strictPrivacy := true, captureSqlStatement := true,
    privacyAllowedFields := [some (ascii "count")] }

def janesEvent : Event where
  exceptionClass := some (ascii "NotFound")
  message := some (ascii "Invoice 17 of Jane not found")
  context := [(some (ascii "name"), some (ascii "Jane")), (some (ascii "count"), some (ascii "3"))]
  user := [(some (ascii "email"), some (ascii "jane@example.com")),
    (some (ascii "id"), some (ascii "42"))]
  breadcrumbs := [ascii "\x7b\x7d"]
  sql := some (ascii "SELECT * FROM t WHERE name = 'Jane'")

def barerEvent : Event where
  exceptionClass := some (ascii "NotFound")
  message := some (ascii "Invoice 8 of Jane not found")
  context := [(some (ascii "count"), some (ascii "3")), (some (ascii "count"), none)]
  user := [(some (ascii "id"), some (ascii "42"))]
  sql := some (ascii "SELECT * FROM t WHERE name = 'Joe'")

theorem strictPayload_determined_jane :
    buildEventJsonWithSql privateConfiguration janesEvent ⟨0, none, none⟩ =
      buildEventJsonWithSql privateConfiguration barerEvent ⟨0, none, none⟩ := by
  have hmessage : StrictPrivacy.normalizeMessage
      (messageToWrite privateConfiguration janesEvent.message) =
        StrictPrivacy.normalizeMessage
        (messageToWrite privateConfiguration barerEvent.message) := by
    decide
  have hmask : SqlStatement.mask janesEvent.sql = SqlStatement.mask barerEvent.sql := by decide
  have hfacts : SameFacts privateConfiguration janesEvent barerEvent := by
    refine ⟨rfl, ?_, by decide, by decide, by rw [hmask]⟩
    rw [fingerprintOf, fingerprintOf, StrictPrivacy.messageFingerprint,
      StrictPrivacy.messageFingerprint, hmessage]
  have hstrict : privateConfiguration.strictPrivacy = true := rfl
  exact strictPayload_determined hstrict hfacts ⟨0, none, none⟩

end ForgeOps.EventBuilder
