import ForgeOpsTracker.EventBuilder

/-! The event builder when memory runs out. A text that the configuration wants rewritten is handed
to a function that answers `NULL` for want of memory; the payload then has the text itself. -/

namespace ForgeOps

/-- A text that is to be rewritten before it is used, and what the rewriting answered. -/
structure Rewriting where
  source : Bytes
  answer : Option Bytes
  deriving DecidableEq, Repr

namespace Rewriting

/-- `rewritten != NULL ? rewritten : source` -/
def used (t : Rewriting) : Bytes := t.answer.getD t.source

/-- What is used is what the rewriting answered. -/
def Done (t : Rewriting) : Prop := t.answer = some t.used

/-- A call of the function that rewrites. -/
def call (rewrite : Bytes → Bytes) (allocated : Bool) (source : Bytes) : Rewriting :=
  ⟨source, if allocated then some (rewrite source) else none⟩

theorem call_done (rewrite : Bytes → Bytes) (allocated : Bool) (source : Bytes) :
    (call rewrite allocated source).Done ↔ allocated = true := by
  cases allocated with
  | false => exact ⟨fun h => absurd h (by simp [Done, call]), fun h => absurd h (by simp)⟩
  | true => exact ⟨fun _ => rfl, fun _ => rfl⟩

@[simp] theorem call_used (rewrite : Bytes → Bytes) (allocated : Bool) (source : Bytes) :
    (call rewrite allocated source).used = if allocated then rewrite source else source := by
  cases allocated <;> rfl

def AllDone (ts : List Rewriting) : Prop := ∀ t ∈ ts, t.Done

theorem allDone_append (ts us : List Rewriting) : AllDone (ts ++ us) ↔ AllDone ts ∧ AllDone us :=
  List.forall_mem_append

theorem allDone_nil : AllDone [] := fun _ h => absurd h List.not_mem_nil

theorem allDone_call (rewrite : Bytes → Bytes) (allocated : Bool) (source : Option Bytes) :
    AllDone ((source.map (call rewrite allocated)).toList) ↔
    (source.isSome → allocated = true) := by
  cases source with
  | none => exact ⟨fun _ h => absurd h (by simp), fun _ => allDone_nil⟩
  | some s =>
    show (∀ t ∈ [call rewrite allocated s], t.Done) ↔ _
    rw [List.forall_mem_singleton, call_done]
    exact ⟨fun h _ => h, fun h => h rfl⟩

end Rewriting

/-- A call of `forgeops_scrub_string`. -/
def PiiScrubber.scrubbing (allocated : Bool) (source : Bytes) : Rewriting :=
  Rewriting.call PiiScrubber.scrubString allocated source

namespace EventBuilder
open Rewriting PiiScrubber

/-! ## The payload and the texts in it -/

structure FrameAllocations where
  parsed : Bool := true
  image : Bool := true
  symbol : Bool := true
  deriving DecidableEq, Repr

/-- Which allocations of one call succeed; a frame's and a pair's are found by its index. -/
structure Allocations where
  payload : Bool := true
  message : Bool := true
  fingerprint : Bool := true
  compiled : Bool := true
  frame : Nat → FrameAllocations := fun _ => {}
  context : Nat → Bool := fun _ => true
  masked : Bool := true
  objects : Bool := true
  statement : Bool := true

/-- What is written, and the texts in it that had to be scrubbed first. -/
structure Written where
  text : Bytes
  scrubbed : List Rewriting
  deriving DecidableEq, Repr

/-- `frameJson`, each of the two texts as it is when it could not be scrubbed. -/
def frameJsonIn (config : Configuration) (a : FrameAllocations) (frame : Frame) : Bytes :=
  let used := fun allocated s => if config.scrubPii then (scrubbing allocated s).used else s
  ascii "\x7b\"file\":" ++ JsonText.jsonString (used a.image frame.image) ++
    ascii ",\"line\":null,\"method\":" ++ JsonText.jsonString (used a.symbol frame.symbol) ++
    ascii ",\"in_app\":false\x7d"

/-- `append_backtrace_json` -/
def backtraceJsonIn (config : Configuration) (a : Allocations)
    (symbols : Option (List Bytes)) : Bytes :=
  let lines := if a.compiled then symbols.getD [] else []
  ascii "[" ++ JsonText.commaSeparated (lines.zipIdx.filterMap fun (line, i) =>
    if (a.frame i).parsed then (parseFrameLine line).map (frameJsonIn config (a.frame i))
      else none) ++ ascii "]"

/-- The message when it has to be scrubbed. -/
def messageText (config : Configuration) (a : Allocations) (message : Option Bytes) :
    Option Rewriting :=
  if config.scrubPii then message.map (scrubbing a.message) else none

def messageToWriteIn (config : Configuration) (a : Allocations) (message : Option Bytes) :
    Option Bytes :=
  if config.scrubPii then (messageText config a message).map Rewriting.used else message

def messageFieldIn (config : Configuration) (a : Allocations) (message : Option Bytes) : Written :=
  if config.strictPrivacy then
    let fingerprint :=
      if a.fingerprint then
        StrictPrivacy.messageFingerprint (messageToWriteIn config a message)
      else []
    ⟨ascii "\"\",\"message_fingerprint\":" ++ JsonText.jsonString fingerprint, []⟩
  else ⟨JsonText.jsonStringOrNull (messageToWriteIn config a message),
    (messageText config a message).toList⟩

/-- The value of a pair when it has to be scrubbed. -/
def contextText (config : Configuration) (allocated : Bool) (pair : Option Bytes × Option Bytes) :
    Option Rewriting :=
  if config.scrubPii && !PiiScrubber.isSensitiveKey pair.1 then pair.2.map (scrubbing allocated)
  else none

def contextValueIn (config : Configuration) (allocated : Bool)
    (pair : Option Bytes × Option Bytes) : Bytes :=
  if config.scrubPii && PiiScrubber.isSensitiveKey pair.1 then
    JsonText.jsonString PiiScrubber.redacted
  else
    JsonText.jsonStringOrNull
      (if config.scrubPii then (contextText config allocated pair).map Rewriting.used else pair.2)

/-- The loop over the context, from the pair at `i` on: what it writes and how many pairs are
written in all. -/
def writeContextIn (config : Configuration) (a : Nat → Bool) (written i : Nat) :
    List (Option Bytes × Option Bytes) → Written × Nat
  | [] => (⟨[], []⟩, written)
  | pair :: pairs =>
    if config.strictPrivacy && !keepsPair config pair then
      writeContextIn config a written (i + 1) pairs
    else
      let rest := writeContextIn config a (written + 1) (i + 1) pairs
      (⟨(if written > 0 then ascii "," else []) ++
          JsonText.jsonString (pair.1.getD []) ++ ascii ":" ++
          contextValueIn config (a i) pair ++ rest.1.text,
        (contextText config (a i) pair).toList ++ rest.1.scrubbed⟩, rest.2)

def contextFieldIn (config : Configuration) (a : Nat → Bool)
    (context : List (Option Bytes × Option Bytes)) : Written :=
  let counted := if config.strictPrivacy then (context.filter (keepsPair config)).length else 0
  let loop := writeContextIn config a 0 0 context
  ⟨(if !config.strictPrivacy || counted > 0 then ascii ",\"context\":\x7b"
    else []) ++ loop.1.text ++ if config.strictPrivacy then
      (if loop.2 > 0 then ascii "\x7d" else []) ++ ascii ",\"sdk_name\":\"c\""
    else ascii "\x7d,\"tags\":\x7b\x7d,\"sdk_name\":\"c\"", loop.1.scrubbed⟩

/-- The masked statement when it is sent and has to be scrubbed. -/
def statementText (config : Configuration) (a : Allocations) (masked : Bytes) : Option Rewriting :=
  if config.scrubPii then some (scrubbing a.statement masked) else none

def sqlFieldIn (config : Configuration) (a : Allocations) (sql : Option Bytes) : Written :=
  if sql.isSome && (config.captureSqlObjects || config.captureSqlStatement) then
    match if a.masked then SqlStatement.mask sql else none with
    | none => ⟨[], []⟩
    | some masked =>
      let objects :=
        if config.captureSqlObjects then
          match if a.objects then SqlStatement.objectsJson (some masked) else none with
          | none => []
          | some objects => ascii ",\"sql_objects\":" ++ objects
        else []
      if config.captureSqlStatement && !config.strictPrivacy then
        let used := ((statementText config a masked).map Rewriting.used).getD masked
        ⟨objects ++ (ascii ",\"sql_statement\":" ++ JsonText.jsonString used),
          (statementText config a masked).toList⟩
      else ⟨objects ++ [], []⟩
  else ⟨[], []⟩

/-- `forgeops_build_event_json_with_sql` -/
def buildEventJsonWithSqlIn (config : Configuration) (a : Allocations) (event : Event)
    (s : Surroundings) : Option Written :=
  if a.payload then
    let message := messageFieldIn config a event.message
    let context := contextFieldIn config a.context event.context
    let sql := sqlFieldIn config a event.sql
    some ⟨ascii "\x7b\"exception_class\":" ++ JsonText.jsonStringOrNull event.exceptionClass ++
      ascii ",\"message\":" ++ message.text ++
      ascii ",\"backtrace\":" ++ backtraceJsonIn config a s.symbols ++
      ascii ",\"occurred_at\":" ++ JsonText.jsonString (Calendar.timestamp s.now) ++
      ascii ",\"environment\":" ++ JsonText.jsonStringOrNull config.environment ++
      ascii ",\"release\":" ++ JsonText.jsonStringOrNull config.release ++
      ascii ",\"server_name\":" ++ JsonText.jsonStringOrNull config.serverName ++
      context.text ++ userField config event.user ++
      breadcrumbsField config event.breadcrumbs ++ sql.text ++ traceField s.traceId ++ ascii "\x7d",
      message.scrubbed ++ context.scrubbed ++ sql.scrubbed⟩
  else none

/-! ## When every allocation succeeds -/

theorem used_scrubbing (s : Bytes) : (scrubbing true s).used = PiiScrubber.scrubString s := by
  rw [scrubbing, Rewriting.call_used, if_pos rfl]

theorem map_used_scrubbing (source : Option Bytes) :
    (source.map (scrubbing true)).map Rewriting.used = source.map PiiScrubber.scrubString := by
  cases source with
  | none => rfl
  | some s => rw [Option.map_some, Option.map_some, Option.map_some, used_scrubbing]

theorem frameJsonIn_all (config : Configuration) : frameJsonIn config {} = frameJson config := by
  funext frame
  simp only [frameJsonIn, frameJson, used_scrubbing]

theorem backtraceJsonIn_all (config : Configuration) (symbols : Option (List Bytes)) :
    backtraceJsonIn config {} symbols = backtraceJson config symbols := by
  have hframes : (symbols.getD []).zipIdx.filterMap
      (fun (line, _) => (parseFrameLine line).map (frameJson config)) =
        ((symbols.getD []).filterMap parseFrameLine).map (frameJson config) := by
    rw [List.map_filterMap]
    conv_rhs => rw [← List.zipIdx_map_fst 0 (symbols.getD [])]
    rw [List.filterMap_map]
    rfl
  simp only [backtraceJsonIn, backtraceJson, frameJsonIn_all, if_true, hframes]

theorem messageToWriteIn_all (config : Configuration) (message : Option Bytes) :
    messageToWriteIn config {} message = messageToWrite config message := by
  unfold messageToWriteIn messageToWrite messageText
  split
  · simp only [map_used_scrubbing]
  · rfl

theorem messageFieldIn_all (config : Configuration) (message : Option Bytes) :
    (messageFieldIn config {} message).text = messageField config message := by
  unfold messageFieldIn messageField fingerprintOf
  rw [messageToWriteIn_all]
  split
  · rfl
  · rfl

theorem contextValueIn_all (config : Configuration) (pair : Option Bytes × Option Bytes) :
    contextValueIn config true pair = contextValue config pair := by
  unfold contextValueIn contextValue contextText
  split
  · rfl
  · rename_i hnot
    cases hscrub : config.scrubPii with
    | false => rfl
    | true =>
      rw [hscrub, Bool.true_and, Bool.not_eq_true] at hnot
      simp only [hnot, Bool.not_false, Bool.and_self, if_true, map_used_scrubbing]

theorem writeContextIn_all (config : Configuration) (written i : Nat)
    (context : List (Option Bytes × Option Bytes)) :
    ((writeContextIn config (fun _ => true) written i context).1.text,
      (writeContextIn config (fun _ => true) written i context).2) =
        writeContext config written context := by
  induction context generalizing written i with
  | nil => rfl
  | cons pair pairs ih =>
    rw [writeContextIn, writeContext]
    split
    · exact ih written (i + 1)
    · rw [← ih (written + 1) (i + 1), contextValueIn_all]

theorem contextFieldIn_all (config : Configuration) (context : List (Option Bytes × Option Bytes)) :
    (contextFieldIn config (fun _ => true) context).text = contextField config context := by
  rw [contextField, ← writeContextIn_all config 0 0 context]
  rfl

theorem statement_used (config : Configuration) (masked : Bytes) :
    ((statementText config {} masked).map Rewriting.used).getD masked =
      if config.scrubPii then PiiScrubber.scrubString masked else masked := by
  unfold statementText
  split
  · simp only [Option.map_some, Option.getD_some, used_scrubbing]
  · rfl

theorem sqlFieldIn_all (config : Configuration) (sql : Option Bytes) :
    (sqlFieldIn config {} sql).text = sqlField config sql := by
  unfold sqlFieldIn sqlField
  split
  · simp only [if_true, statement_used]
    cases SqlStatement.mask sql with
    | none => rfl
    | some masked =>
      simp only
      split
      · rfl
      · rfl
  · rfl

/-- The payload described by `buildEventJsonWithSql`. -/
theorem buildEventJsonWithSqlIn_all (config : Configuration) (event : Event) (s : Surroundings) :
    (buildEventJsonWithSqlIn config {} event s).map Written.text =
      some (buildEventJsonWithSql config event s) := by
  unfold buildEventJsonWithSqlIn buildEventJsonWithSql
  simp only [if_true, Option.map_some, messageFieldIn_all, backtraceJsonIn_all, contextFieldIn_all,
    sqlFieldIn_all]

/-! ## Which texts are scrubbed -/

/-- The pairs of the context that are written, with their places in it. -/
theorem writeContextIn_scrubbed (config : Configuration) (a : Nat → Bool) (written i : Nat)
    (context : List (Option Bytes × Option Bytes)) :
    (writeContextIn config a written i context).1.scrubbed =
      (context.zipIdx i).filterMap fun (pair, k) =>
        if config.strictPrivacy && !keepsPair config pair then none
        else contextText config (a k) pair := by
  induction context generalizing written i with
  | nil => rfl
  | cons pair pairs ih =>
    rw [writeContextIn, List.zipIdx_cons]
    split
    · rename_i hskip
      rw [ih, List.filterMap_cons]
      simp only [hskip, if_true]
    · rename_i hwrite
      show (contextText config (a i) pair).toList ++
        (writeContextIn config a (written + 1) (i + 1) pairs).1.scrubbed = _
      rw [ih, List.filterMap_cons]
      simp only [if_neg hwrite]
      cases contextText config (a i) pair with
      | none => rfl
      | some t => rfl

/-- The statement as it is masked, when memory suffices. -/
def maskedIn (a : Allocations) (sql : Option Bytes) : Option Bytes :=
  if a.masked then SqlStatement.mask sql else none

theorem sqlFieldIn_scrubbed (config : Configuration) (a : Allocations) (sql : Option Bytes) :
    (sqlFieldIn config a sql).scrubbed =
      if config.captureSqlStatement && !config.strictPrivacy then
        ((maskedIn a sql).bind (statementText config a)).toList
      else [] := by
  unfold sqlFieldIn maskedIn
  by_cases hcaptured : (sql.isSome &&
    (config.captureSqlObjects || config.captureSqlStatement)) = true
  · rw [if_pos hcaptured]
    generalize (if a.masked then SqlStatement.mask sql else none) = statement
    cases statement with
    | none => exact (ite_self _).symm
    | some masked =>
      simp only [Option.bind_some]
      split
      · rfl
      · rfl
  · rw [if_neg hcaptured]
    split
    · rename_i hsent
      rw [Bool.and_eq_true] at hsent
      rw [hsent.1, Bool.or_true, Bool.and_true, Option.isSome_iff_ne_none, not_not] at hcaptured
      rw [hcaptured, show SqlStatement.mask none = none from rfl, ite_self]
      rfl
    · rfl

/-- Every scrub whose answer is written was answered. -/
structure Answered (config : Configuration) (a : Allocations) (event : Event) : Prop where
  message : config.strictPrivacy = false → event.message.isSome → a.message = true
  context : ∀ i pair, event.context[i]? = some pair →
    (config.strictPrivacy = true → keepsPair config pair = true) →
    PiiScrubber.isSensitiveKey pair.1 = false → pair.2.isSome → a.context i = true
  statement : config.captureSqlStatement = true → config.strictPrivacy = false → a.masked = true →
    (SqlStatement.mask event.sql).isSome → a.statement = true

theorem scrubbing_done (allocated : Bool) (source : Option Bytes) :
    AllDone ((source.map (scrubbing allocated)).toList) ↔ (source.isSome → allocated = true) :=
  allDone_call PiiScrubber.scrubString allocated source

section
variable {config : Configuration} (hscrub : config.scrubPii = true)
include hscrub

theorem message_done (a : Allocations) (message : Option Bytes) :
    AllDone (messageFieldIn config a message).scrubbed ↔
      (config.strictPrivacy = false → message.isSome → a.message = true) := by
  unfold messageFieldIn
  cases config.strictPrivacy with
  | true => exact ⟨fun _ h => absurd h (by simp), fun _ => allDone_nil⟩
  | false =>
    have htext : messageText config a message = message.map (scrubbing a.message) := if_pos hscrub
    show AllDone (messageText config a message).toList ↔ _
    rw [htext, scrubbing_done]
    exact ⟨fun h _ => h, fun h => h rfl⟩

theorem context_done (a : Nat → Bool) (context : List (Option Bytes × Option Bytes)) :
    AllDone (contextFieldIn config a context).scrubbed ↔
      ∀ i pair,
        context[i]? = some pair → (config.strictPrivacy = true → keepsPair config pair = true) →
        PiiScrubber.isSensitiveKey pair.1 = false → pair.2.isSome → a i = true := by
  have htext : ∀ k pair, PiiScrubber.isSensitiveKey pair.1 = false →
      contextText config (a k) pair = pair.2.map (scrubbing (a k)) := by
    intro k pair hkey
    rw [contextText, hscrub, hkey]
    rfl
  show AllDone (writeContextIn config a 0 0 context).1.scrubbed ↔ _
  rw [writeContextIn_scrubbed]
  constructor
  · intro h i pair hget hkept hkey hvalue
    have hwrite : ¬ (config.strictPrivacy && !keepsPair config pair) = true := by
      simpa using hkept
    obtain ⟨value, hsome⟩ := Option.isSome_iff_exists.mp hvalue
    have hmem : scrubbing (a i) value ∈ context.zipIdx.filterMap fun (pair, k) =>
        if config.strictPrivacy && !keepsPair config pair then none
          else contextText config (a k) pair := by
      refine List.mem_filterMap.mpr ⟨(pair, i), List.mk_mem_zipIdx_iff_getElem?.mpr hget, ?_⟩
      show (if config.strictPrivacy && !keepsPair config pair then none
        else contextText config (a i) pair) = _
      rw [if_neg hwrite, htext i pair hkey, hsome]
      rfl
    exact (Rewriting.call_done _ _ _).mp (h _ hmem)
  · intro h t ht
    obtain ⟨⟨pair, k⟩, hmem, hsome⟩ := List.mem_filterMap.mp ht
    have hget := List.mk_mem_zipIdx_iff_getElem?.mp hmem
    simp only at hsome
    split at hsome
    · exact absurd hsome (by simp)
    rename_i hwrite
    have hkept : config.strictPrivacy = true → keepsPair config pair = true := by
      simpa using hwrite
    cases hkey : PiiScrubber.isSensitiveKey pair.1 with
    | true =>
      rw [contextText, hkey, Bool.not_true, Bool.and_false] at hsome
      exact absurd hsome (by simp)
    | false =>
      rw [htext k pair hkey] at hsome
      obtain ⟨value, hvalue, rfl⟩ := Option.map_eq_some_iff.mp hsome
      exact (Rewriting.call_done _ _ _).mpr (h k pair hget hkept hkey (by rw [hvalue]; rfl))

theorem statement_done (a : Allocations) (sql : Option Bytes) :
    AllDone (sqlFieldIn config a sql).scrubbed ↔
      (config.captureSqlStatement = true → config.strictPrivacy = false → a.masked = true →
        (SqlStatement.mask sql).isSome → a.statement = true) := by
  have htext : statementText config a = fun masked => some (scrubbing a.statement masked) := by
    funext masked
    exact if_pos hscrub
  have hmap : (maskedIn a sql).bind (statementText config a) =
      (maskedIn a sql).map (scrubbing a.statement) := by
    rw [htext, Option.map_eq_bind]
    rfl
  rw [sqlFieldIn_scrubbed, hmap]
  by_cases hsent : (config.captureSqlStatement && !config.strictPrivacy) = true
  · rw [if_pos hsent, scrubbing_done]
    rw [Bool.and_eq_true, Bool.not_eq_true'] at hsent
    constructor
    · intro h _ _ hmasked hsome
      exact h (by rw [maskedIn, if_pos hmasked]; exact hsome)
    · intro h hsome
      unfold maskedIn at hsome
      split at hsome
      · rename_i hmasked
        exact h hsent.1 hsent.2 hmasked hsome
      · exact absurd hsome (by simp)
  · rw [if_neg hsent]
    refine ⟨fun _ hcapture hstrict => absurd ?_ hsent, fun _ => allDone_nil⟩
    rw [hcapture, hstrict]
    rfl

end

theorem unscrubbed_done {config : Configuration} (hscrub : config.scrubPii = false)
    (a : Allocations) (event : Event) (s : Surroundings) :
    ∀ payload ∈ buildEventJsonWithSqlIn config a event s, AllDone payload.scrubbed := by
  have hmessage : (messageFieldIn config a event.message).scrubbed = [] := by
    unfold messageFieldIn messageText
    rw [hscrub]
    split
    · rfl
    · rfl
  have hcontext : (contextFieldIn config a.context event.context).scrubbed = [] := by
    show (writeContextIn config a.context 0 0 event.context).1.scrubbed = []
    have htext : ∀ k pair, contextText config (a.context k) pair = none := by
      intro k pair
      rw [contextText, hscrub]
      rfl
    rw [writeContextIn_scrubbed, List.filterMap_eq_nil_iff]
    rintro ⟨pair, k⟩ -
    simp only [htext, ite_self]
  have hstatement : (sqlFieldIn config a event.sql).scrubbed = [] := by
    have htext : statementText config a = fun _ => none := by
      funext masked
      rw [statementText, hscrub]
      rfl
    rw [sqlFieldIn_scrubbed, htext, Option.bind_fun_none]
    exact ite_self _
  intro payload hpayload
  unfold buildEventJsonWithSqlIn at hpayload
  split at hpayload
  · obtain rfl := Option.some.inj hpayload
    rw [hmessage, hcontext, hstatement]
    exact allDone_nil
  · exact absurd hpayload (by simp)

/-- No text is written as it is if and only if every scrub that was asked for was answered. -/
theorem buildEventJsonWithSqlIn_done (config : Configuration) (a : Allocations) (event : Event)
    (s : Surroundings) :
    (∀ payload ∈ buildEventJsonWithSqlIn config a event s, AllDone payload.scrubbed) ↔
      (config.scrubPii = true → a.payload = true → Answered config a event) := by
  cases hscrub : config.scrubPii with
  | false => exact ⟨fun _ h => absurd h (by simp), fun _ => unscrubbed_done hscrub a event s⟩
  | true =>
    unfold buildEventJsonWithSqlIn
    cases a.payload with
    | false => exact ⟨fun _ _ h => absurd h (by simp), fun _ payload h => absurd h (by simp)⟩
    | true =>
      simp only [if_true, Option.mem_some_iff, forall_eq', allDone_append, message_done hscrub,
        context_done hscrub, statement_done hscrub, true_imp_iff]
      exact ⟨fun h => ⟨h.1.1, h.1.2, h.2⟩, fun h => ⟨⟨h.message, h.context⟩, h.statement⟩⟩

end EventBuilder

end ForgeOps
