import ForgeOpsTracker.EventBuilder
import ForgeOpsTracker.ScrubCharacters
import ForgeOpsTracker.SqlMaskText
import ForgeOpsTracker.SqlObjects

/-! The payload as a JSON object: under every configuration the pieces that
`forgeops_build_event_json_with_sql` writes one after another are the members of one object,
and where nothing is scrubbed or kept back a reader finds what the caller reported. -/

namespace ForgeOps.EventBuilder

/-! ## Members -/

/-- A member under one of the payload's own names. Its value is JSON and, `given` the caller's
texts are, valid UTF-8. -/
structure SentMember (given : Prop) (m : Json.Member) : Prop where
  plain : m.name.all Json.isPlain = true
  ascii : m.name.all Byte.isAscii = true
  value : Json.WellFormed m.value
  utf8 : given → Utf8 m.value

variable {given : Prop}

theorem sent_string {name : Bytes} (hplain : name.all Json.isPlain = true)
    (hascii : name.all Byte.isAscii = true) {value : Bytes} (h : given → Utf8 value) :
    SentMember given ⟨name, JsonText.jsonString value⟩ :=
  ⟨hplain, hascii, JsonText.jsonString_wellFormed value,
    fun hgiven => JsonText.utf8_jsonString (h hgiven)⟩

theorem sent_stringOrNull {name : Bytes} (hplain : name.all Json.isPlain = true)
    (hascii : name.all Byte.isAscii = true) {value : Option Bytes}
    (h : given → ∀ v ∈ value, Utf8 v) : SentMember given ⟨name, JsonText.jsonStringOrNull value⟩ :=
  ⟨hplain, hascii, JsonText.jsonStringOrNull_wellFormed value,
    fun hgiven => JsonText.utf8_jsonStringOrNull (h hgiven)⟩

theorem object_of_sent {ms : List Json.Member} (h : ∀ m ∈ ms, SentMember given m) :
    (∀ m ∈ ms, m.Valid) ∧ (given → Utf8 (Json.object ms)) :=
  ⟨fun m hm => ⟨Json.chars_of_plain (h m hm).plain, (h m hm).value⟩,
    fun hgiven => JsonText.utf8_object fun m hm =>
      ⟨utf8_of_isAscii (h m hm).ascii, (h m hm).utf8 hgiven⟩⟩

/-! ## Frames -/

/-- The text before the last plus. -/
theorem utf8_before_plus {s offset : Bytes}
    (hoffset : (s.reverse.takeWhile (· ≠ 43)).reverse = offset) (hlt : offset.length < s.length)
    (h : Utf8 s) : Utf8 ((s.take (s.length - offset.length)).dropLast) := by
  have hsplit : (s.reverse.dropWhile (· ≠ 43)).reverse ++ offset = s := by
    rw [← hoffset, ← List.reverse_append, List.takeWhile_append_dropWhile, List.reverse_reverse]
  cases hrest : s.reverse.dropWhile (· ≠ 43) with
  | nil =>
    rw [hrest, List.reverse_nil, List.nil_append] at hsplit
    exact absurd hlt (by rw [hsplit]; exact Nat.lt_irrefl _)
  | cons c before =>
    rw [hrest, List.reverse_cons] at hsplit
    have htake : s.take (s.length - offset.length) = before.reverse ++ [c] := by
      rw [← hsplit, List.length_append, Nat.add_sub_cancel, List.take_left]
    have hplus : c = 43 := by
      have hnot := List.head?_dropWhile_not (fun c : UInt8 => decide (c ≠ 43)) s.reverse
      rw [hrest] at hnot
      simpa using hnot
    rw [htake, List.dropLast_concat]
    rw [← hsplit, hplus, List.append_assoc] at h
    exact (h.split (boundary_of_isAscii rfl offset)).1

theorem symbolGroup_utf8 {s symbol : Bytes} (h : symbolGroup s = some symbol) (hs : Utf8 s) :
    Utf8 symbol := by
  unfold symbolGroup at h
  simp only at h
  split at h
  swap
  · exact absurd h (by simp)
  rename_i hplus
  have hbefore := utf8_before_plus rfl hplus.1 hs
  split at h
  · obtain rfl := Option.some.inj h
    exact hbefore.drop_run (fun _ => isAscii_of_isSpace) (Nat.le_refl _)
  · split at h
    · obtain rfl := Option.some.inj h
      exact hbefore.drop_run (fun _ => isAscii_of_isSpace) (Nat.sub_le _ 1)
    · exact absurd h (by simp)

theorem utf8_trimTrailingSpace {s : Bytes} (h : Utf8 s) : Utf8 (trimTrailingSpace s) := by
  have hsplit := List.takeWhile_append_dropWhile (p := fun c : UInt8 => c == 32 || c == 9)
    (l := s.reverse)
  rw [← List.reverse_inj, List.reverse_append, List.reverse_reverse] at hsplit
  rw [← hsplit] at h
  refine (h.split (boundary_of_all_isAscii (List.all_eq_true.mpr fun c hc => ?_))).1
  have hblank := List.all_eq_true.mp List.all_takeWhile c (List.mem_reverse.mp hc)
  simp only [Bool.or_eq_true, beq_iff_eq] at hblank
  rcases hblank with rfl | rfl <;> rfl

theorem parseFrameLine_utf8 {line : Bytes} {frame : Frame} (h : parseFrameLine line = some frame)
    (hline : Utf8 line) : Utf8 frame.image ∧ Utf8 frame.symbol := by
  have hspace : ∀ c, (decide ¬ Byte.isSpace c = true) = false → Byte.isAscii c = true := fun c hc =>
    isAscii_of_isSpace (by simpa using hc)
  unfold parseFrameLine at h
  simp only [drop_length_takeWhile] at h
  -- the number and the blanks around it, then the image
  have hnumber :=
    ((hline.dropWhile (fun _ => isAscii_of_isSpace)).dropWhile
      (fun _ => isAscii_of_isDigit)).dropWhile (fun _ => isAscii_of_isSpace)
  obtain ⟨himage, hrest⟩ := hnumber.takeWhile hspace
  have haddress := hrest.dropWhile (fun _ => isAscii_of_isSpace)
  split at h
  swap
  · exact absurd h (by simp)
  rename_i s hs
  rw [hs] at haddress
  split at h
  swap
  · exact absurd h (by simp)
  obtain ⟨symbol, hsymbol, rfl⟩ := Option.map_eq_some_iff.mp h
  have hhex := ((haddress.of_cons rfl).of_cons rfl).dropWhile (fun _ => isAscii_of_isHex)
  exact ⟨himage, utf8_trimTrailingSpace (symbolGroup_utf8 hsymbol hhex)⟩

def frameMembers (config : Configuration) (frame : Frame) : List Json.Member :=
  let scrubbed := fun s => if config.scrubPii then PiiScrubber.scrubString s else s
  [⟨ascii "file", JsonText.jsonString (scrubbed frame.image)⟩, ⟨ascii "line", ascii "null"⟩,
    ⟨ascii "method", JsonText.jsonString (scrubbed frame.symbol)⟩, ⟨ascii "in_app", ascii "false"⟩]

theorem frameJson_eq (config : Configuration) (frame : Frame) :
    frameJson config frame = Json.object (frameMembers config frame) := by
  simp [frameJson, frameMembers, Json.object, Json.joined, Json.Member.text, Json.quoted, ascii]

theorem frameMembers_sent (config : Configuration) {frame : Frame}
    (h : given → Utf8 frame.image ∧ Utf8 frame.symbol) :
    ∀ m ∈ frameMembers config frame, SentMember given m := by
  have hscrubbed : ∀ {s : Bytes}, Utf8 s →
      Utf8 (if config.scrubPii then PiiScrubber.scrubString s else s) := by
    intro s hs
    split
    · exact PiiScrubber.scrubString_utf8 hs
    · exact hs
  simp only [frameMembers, List.forall_mem_cons]
  exact ⟨sent_string rfl rfl fun hgiven => hscrubbed (h hgiven).1,
    ⟨rfl, rfl, .null, fun _ => utf8_of_isAscii rfl⟩,
    sent_string rfl rfl fun hgiven => hscrubbed (h hgiven).2,
    ⟨rfl, rfl, .false, fun _ => utf8_of_isAscii rfl⟩, List.forall_mem_nil _⟩

theorem backtraceJson_sent (config : Configuration) {symbols : Option (List Bytes)}
    (h : given → ∀ lines ∈ symbols, ∀ line ∈ lines, Utf8 line) :
    SentMember given ⟨ascii "backtrace", backtraceJson config symbols⟩ := by
  have hframe : ∀ text ∈ ((symbols.getD []).filterMap parseFrameLine).map (frameJson config),
      Json.WellFormed text ∧ (given → Utf8 text) := by
    intro text htext
    obtain ⟨frame, hframe, rfl⟩ := List.mem_map.mp htext
    obtain ⟨line, hline, hparse⟩ := List.mem_filterMap.mp hframe
    have hutf8 : given → Utf8 frame.image ∧ Utf8 frame.symbol := fun hgiven => by
      cases symbols with
      | none => exact absurd hline List.not_mem_nil
      | some lines => exact parseFrameLine_utf8 hparse (h hgiven lines rfl line hline)
    obtain ⟨hvalid, hobject⟩ := object_of_sent (frameMembers_sent config hutf8)
    rw [frameJson_eq]
    exact ⟨Json.object_wellFormed hvalid, hobject⟩
  refine ⟨rfl, rfl, ?_, fun hgiven => ?_⟩
  · show Json.WellFormed (backtraceJson config symbols)
    rw [backtraceJson, JsonText.commaSeparated_eq_joined]
    exact Json.array_wellFormed fun text htext => (hframe text htext).1
  · exact ((utf8_of_isAscii rfl).append
      (JsonText.utf8_commaSeparated fun text htext => (hframe text htext).2 hgiven)).append
      (utf8_of_isAscii rfl)

/-! ## The members of the payload -/

def messageMembers (config : Configuration) (message : Option Bytes) : List Json.Member :=
  if config.strictPrivacy then
    [⟨ascii "message", JsonText.jsonString []⟩,
      ⟨ascii "message_fingerprint", JsonText.jsonString (fingerprintOf config message)⟩]
  else [⟨ascii "message", JsonText.jsonStringOrNull (messageToWrite config message)⟩]

/-- The pairs of the context that are written. -/
def keptPairs (config : Configuration) (context : List (Option Bytes × Option Bytes)) :
    List (Option Bytes × Option Bytes) :=
  context.filter fun pair => !(config.strictPrivacy && !keepsPair config pair)

def pairMember (value : Option Bytes × Option Bytes → Bytes)
    (pair : Option Bytes × Option Bytes) : Json.Member :=
  ⟨(pair.1.getD []).flatMap JsonText.escapeByte, value pair⟩

def userValue (pair : Option Bytes × Option Bytes) : Bytes := JsonText.jsonStringOrNull pair.2

def contextMembers (config : Configuration) (context : List (Option Bytes × Option Bytes)) :
    List Json.Member :=
  (if config.strictPrivacy = true ∧ keptPairs config context = [] then []
    else [⟨ascii "context", Json.object
      ((keptPairs config context).map (pairMember (contextValue config)))⟩]) ++
  (if config.strictPrivacy then [] else [⟨ascii "tags", Json.object []⟩]) ++
    [⟨ascii "sdk_name", JsonText.jsonString (ascii "c")⟩]

def userMembers (config : Configuration) (user : List (Option Bytes × Option Bytes)) :
    List Json.Member :=
  if config.strictPrivacy then
    ((StrictPrivacy.userId user).map fun id =>
      (⟨ascii "user", Json.object [⟨ascii "id", JsonText.jsonString id⟩]⟩ : Json.Member)).toList
  else if user = [] then []
  else [⟨ascii "user", Json.object (user.map (pairMember userValue))⟩]

def breadcrumbsMembers (config : Configuration) (breadcrumbs : List Bytes) : List Json.Member :=
  if breadcrumbs ≠ [] ∧ ¬ config.strictPrivacy
    then [⟨ascii "breadcrumbs", Json.array breadcrumbs⟩] else []

def statementMembers (config : Configuration) (masked : Bytes) : List Json.Member :=
  (if config.captureSqlObjects then
      ((SqlStatement.objectsJson (some masked)).map
        fun objects => (⟨ascii "sql_objects", objects⟩ : Json.Member)).toList
    else []) ++
  if config.captureSqlStatement && !config.strictPrivacy then
    [⟨ascii "sql_statement", JsonText.jsonString
      (if config.scrubPii then PiiScrubber.scrubString masked else masked)⟩]
  else []

def sqlMembers (config : Configuration) (sql : Option Bytes) : List Json.Member :=
  ((SqlStatement.mask sql).map (statementMembers config)).getD []

def traceMembers (traceId : Option Bytes) : List Json.Member :=
  (traceId.map fun id => (⟨ascii "trace_id", JsonText.jsonString id⟩ : Json.Member)).toList

/-- What stands between the message and the context whatever is reported. -/
def surroundingMembers (config : Configuration) (s : Surroundings) : List Json.Member :=
  [⟨ascii "backtrace", backtraceJson config s.symbols⟩,
    ⟨ascii "occurred_at", JsonText.jsonString (Calendar.timestamp s.now)⟩,
    ⟨ascii "environment", JsonText.jsonStringOrNull config.environment⟩,
    ⟨ascii "release", JsonText.jsonStringOrNull config.release⟩,
    ⟨ascii "server_name", JsonText.jsonStringOrNull config.serverName⟩]

def classMember (exceptionClass : Option Bytes) : Json.Member :=
  ⟨ascii "exception_class", JsonText.jsonStringOrNull exceptionClass⟩

def eventMembers (config : Configuration) (event : Event) (s : Surroundings) : List Json.Member :=
  classMember event.exceptionClass :: (messageMembers config event.message ++
    surroundingMembers config s ++ contextMembers config event.context ++
    userMembers config event.user ++
      breadcrumbsMembers config event.breadcrumbs ++ sqlMembers config event.sql ++
      traceMembers s.traceId)

theorem messageField_eq (config : Configuration) (message : Option Bytes) :
    ascii ",\"message\":" ++ messageField config message =
      Json.further (messageMembers config message) := by
  rw [messageField, messageMembers]
  split
  · simp [Json.further, Json.Member.text, Json.quoted, JsonText.jsonString, ascii]
  · exact Json.further_label _ _ _ rfl

theorem keptPairs_cons (config : Configuration) (pair : Option Bytes × Option Bytes)
    (pairs : List (Option Bytes × Option Bytes)) : keptPairs config (pair :: pairs) =
      if config.strictPrivacy && !keepsPair config pair then keptPairs config pairs
      else pair :: keptPairs config pairs := by
  rw [keptPairs, keptPairs, List.filter_cons]
  cases config.strictPrivacy && !keepsPair config pair with
  | false => rfl
  | true => rfl

/-- Behind a written pair every kept pair is written after a comma. -/
theorem writeContext_succ (config : Configuration) (written : Nat)
    (context : List (Option Bytes × Option Bytes)) : writeContext config (written + 1) context =
      (Json.further ((keptPairs config context).map (pairMember (contextValue config))),
        written + 1 + (keptPairs config context).length) := by
  induction context generalizing written with
  | nil => rfl
  | cons pair pairs ih =>
    rw [writeContext, keptPairs_cons]
    split
    · exact ih written
    · rw [if_pos (Nat.succ_pos written), ih, List.map_cons, Json.further_cons, pairMember,
        ← JsonText.pair_text, List.length_cons]
      refine Prod.ext (by simp [ascii]) ?_
      show written + 1 + 1 + _ = written + 1 + (_ + 1)
      omega

theorem writeContext_zero (config : Configuration) (context : List (Option Bytes × Option Bytes)) :
    writeContext config 0 context =
      (Json.joined (((keptPairs config context).map (pairMember (contextValue config))).map
        Json.Member.text), (keptPairs config context).length) := by
  induction context with
  | nil => rfl
  | cons pair pairs ih =>
    rw [writeContext, keptPairs_cons]
    split
    · exact ih
    · rw [if_neg (Nat.lt_irrefl 0), writeContext_succ, List.map_cons, Json.joined_cons, pairMember,
        ← JsonText.pair_text, List.length_cons]
      simp [Nat.add_comm]

theorem counted_eq {config : Configuration} (hstrict : config.strictPrivacy = true)
    (context : List (Option Bytes × Option Bytes)) :
    context.filter (keepsPair config) = keptPairs config context := by
  rw [keptPairs, hstrict]
  exact List.filter_congr fun pair _ => by simp

theorem contextField_eq (config : Configuration) (context : List (Option Bytes × Option Bytes)) :
    contextField config context = Json.further (contextMembers config context) := by
  rw [contextField, contextMembers, writeContext_zero]
  cases hstrict : config.strictPrivacy with
  | false =>
    simp [Json.further, Json.Member.text, Json.quoted, Json.object, Json.joined,
      JsonText.jsonString, JsonText.escapeByte, ascii]
  | true =>
    simp only [counted_eq hstrict]
    cases hkept : keptPairs config context with
    | nil =>
      simp [Json.further, Json.Member.text, Json.quoted, Json.joined, JsonText.jsonString,
        JsonText.escapeByte, ascii]
    | cons pair pairs =>
      simp [Json.further, Json.Member.text, Json.quoted, Json.object, JsonText.jsonString,
        JsonText.escapeByte, ascii]

theorem userField_eq (config : Configuration) (user : List (Option Bytes × Option Bytes)) :
    userField config user = Json.further (userMembers config user) := by
  rw [userField, userMembers]
  split
  · cases StrictPrivacy.userId user with
    | none => rfl
    | some id => simp [Json.further, Json.Member.text, Json.quoted, Json.object, Json.joined, ascii]
  split
  · rfl
  · have htexts : user.map (fun pair => JsonText.jsonString (pair.1.getD []) ++ ascii ":" ++
        JsonText.jsonStringOrNull pair.2) =
        (user.map (pairMember userValue)).map Json.Member.text := by
      rw [List.map_map]
      exact List.map_congr_left fun pair _ => JsonText.pair_text _ _
    rw [htexts, JsonText.commaSeparated_eq_joined]
    simp [Json.further, Json.Member.text, Json.quoted, Json.object, ascii]

theorem breadcrumbsField_eq (config : Configuration) (breadcrumbs : List Bytes) :
    breadcrumbsField config breadcrumbs = Json.further (breadcrumbsMembers config breadcrumbs) := by
  rw [breadcrumbsField, breadcrumbsMembers]
  split
  · rw [JsonText.commaSeparated_eq_joined]
    simp [Json.further, Json.Member.text, Json.quoted, Json.array, ascii]
  · rfl

theorem statementFields_eq (config : Configuration) (masked : Bytes) :
    (if config.captureSqlObjects then
        match SqlStatement.objectsJson (some masked) with
        | none => []
        | some objects => ascii ",\"sql_objects\":" ++ objects
      else []) ++
      (if config.captureSqlStatement && !config.strictPrivacy then
        ascii ",\"sql_statement\":" ++
          JsonText.jsonString (if config.scrubPii then PiiScrubber.scrubString masked else masked)
      else []) = Json.further (statementMembers config masked) := by
  rw [statementMembers, Json.further_append]
  congr 1
  · split
    · cases SqlStatement.objectsJson (some masked) with
      | none => rfl
      | some objects => exact Json.further_label _ _ _ rfl
    · rfl
  · split
    · exact Json.further_label _ _ _ rfl
    · rfl

theorem sqlField_members (config : Configuration) (sql : Option Bytes) :
    sqlField config sql = Json.further (sqlMembers config sql) := by
  rw [sqlField, sqlMembers]
  cases sql with
  | none => rfl
  | some statement =>
    cases hmask : SqlStatement.mask (some statement) with
    | none => exact ite_self _
    | some masked =>
      rw [Option.map_some, Option.getD_some, ← statementFields_eq]
      split
      · rfl
      · rename_i hoff
        simp only [Option.isSome_some, Bool.true_and, Bool.or_eq_true, not_or,
          Bool.not_eq_true] at hoff
        rw [hoff.1, hoff.2]
        rfl

theorem traceField_eq (traceId : Option Bytes) :
    traceField traceId = Json.further (traceMembers traceId) := by
  cases traceId with
  | none => rfl
  | some id => exact Json.further_label _ _ _ rfl

theorem surroundingMembers_eq (config : Configuration) (s : Surroundings) :
    ascii ",\"backtrace\":" ++ backtraceJson config s.symbols ++
      (ascii ",\"occurred_at\":" ++ JsonText.jsonString (Calendar.timestamp s.now)) ++
      (ascii ",\"environment\":" ++ JsonText.jsonStringOrNull config.environment) ++
      (ascii ",\"release\":" ++ JsonText.jsonStringOrNull config.release) ++
      (ascii ",\"server_name\":" ++ JsonText.jsonStringOrNull config.serverName) =
        Json.further (surroundingMembers config s) := by
  simp [surroundingMembers, Json.further, Json.Member.text, Json.quoted, ascii]

theorem classMember_eq (exceptionClass : Option Bytes) :
    ascii "\x7b\"exception_class\":" ++ JsonText.jsonStringOrNull exceptionClass =
      123 :: (classMember exceptionClass).text := by
  simp [classMember, Json.Member.text, Json.quoted, ascii]

theorem buildEventJsonWithSql_eq (config : Configuration) (event : Event) (s : Surroundings) :
    buildEventJsonWithSql config event s = Json.object (eventMembers config event s) := by
  have hbrace : ascii "\x7d" = [125] := rfl
  unfold buildEventJsonWithSql eventMembers
  rw [Json.object_cons, classMember_eq, contextField_eq, userField_eq, breadcrumbsField_eq,
    sqlField_members, traceField_eq, hbrace]
  simp only [Json.further_append, ← messageField_eq, ← surroundingMembers_eq, List.append_assoc,
    List.cons_append]

/-! ## Valid texts -/

/-- A pair with a key, both texts valid UTF-8. -/
structure Utf8Pair (pair : Option Bytes × Option Bytes) : Prop where
  key : ∃ key, pair.1 = some key ∧ Utf8 key
  value : ∀ value ∈ pair.2, Utf8 value

structure Event.IsUtf8 (event : Event) : Prop where
  exceptionClass : ∀ text ∈ event.exceptionClass, Utf8 text
  message : ∀ text ∈ event.message, Utf8 text
  context : ∀ pair ∈ event.context, Utf8Pair pair
  user : ∀ pair ∈ event.user, Utf8Pair pair
  breadcrumbs : ∀ entry ∈ event.breadcrumbs, Utf8 entry
  sql : ∀ text ∈ event.sql, Utf8 text

structure Utf8Configuration (config : Configuration) : Prop where
  environment : ∀ text ∈ config.environment, Utf8 text
  release : ∀ text ∈ config.release, Utf8 text
  serverName : ∀ text ∈ config.serverName, Utf8 text

structure Surroundings.IsUtf8 (s : Surroundings) : Prop where
  symbols : ∀ lines ∈ s.symbols, ∀ line ∈ lines, Utf8 line
  traceId : ∀ id ∈ s.traceId, Utf8 id

theorem Utf8Pair.name {pair : Option Bytes × Option Bytes} (h : Utf8Pair pair) :
    Utf8 (pair.1.getD []) := by
  obtain ⟨key, hkey, htext⟩ := h.key
  rw [hkey]
  exact htext

theorem utf8_timestamp (now : Nat) : Utf8 (Calendar.timestamp now) :=
  utf8_of_isAscii (Calendar.timestamp_all (fun _ => isAscii_of_isDigit) rfl now)

theorem utf8_messageToWrite (config : Configuration) {message : Option Bytes}
    (h : ∀ text ∈ message, Utf8 text) : ∀ text ∈ messageToWrite config message, Utf8 text := by
  intro text htext
  unfold messageToWrite at htext
  split at htext
  · obtain ⟨source, hsource, rfl⟩ := Option.mem_map.mp htext
    exact PiiScrubber.scrubString_utf8 (h source hsource)
  · exact h text htext

theorem utf8_fingerprintOf (config : Configuration) (message : Option Bytes) :
    Utf8 (fingerprintOf config message) := by
  rw [fingerprintOf, StrictPrivacy.messageFingerprint]
  refine utf8_of_isAscii ?_
  rw [List.all_flatMap]
  exact List.all_eq_true.mpr fun c _ => JsonText.isAscii_hexByte c

theorem userId_mem {user : List (Option Bytes × Option Bytes)} {id : Bytes}
    (h : StrictPrivacy.userId user = some id) : ∃ pair ∈ user, pair.2 = some id := by
  obtain ⟨pair, hpair, hid⟩ := List.exists_of_findSome?_eq_some h
  refine ⟨pair, hpair, ?_⟩
  obtain ⟨key, value⟩ := pair
  cases key with
  | none => exact absurd hid (by simp)
  | some key =>
    cases value with
    | none => exact absurd hid (by simp)
    | some value =>
      simp only at hid
      split at hid
      · exact hid
      · exact absurd hid (by simp)

theorem pairs_sent {name : Bytes} (hplain : name.all Json.isPlain = true)
    (hascii : name.all Byte.isAscii = true) {value : Option Bytes × Option Bytes → Bytes}
    {pairs : List (Option Bytes × Option Bytes)}
    (hvalue : ∀ pair ∈ pairs, Json.WellFormed (value pair))
    (hutf8 : given → ∀ pair ∈ pairs, Utf8Pair pair ∧ Utf8 (value pair)) :
    SentMember given ⟨name, Json.object (pairs.map (pairMember value))⟩ := by
  refine ⟨hplain, hascii, Json.object_wellFormed fun m hm => ?_, fun hgiven => JsonText.utf8_object
    fun m hm => ?_⟩
  · obtain ⟨pair, hpair, rfl⟩ := List.mem_map.mp hm
    exact ⟨JsonText.chars_escaped _, hvalue pair hpair⟩
  · obtain ⟨pair, hpair, rfl⟩ := List.mem_map.mp hm
    obtain ⟨hpair, htext⟩ := hutf8 hgiven pair hpair
    exact ⟨JsonText.utf8_escaped hpair.name, htext⟩

theorem messageMembers_sent (config : Configuration) {message : Option Bytes}
    (h : given → ∀ text ∈ message, Utf8 text) :
    ∀ m ∈ messageMembers config message, SentMember given m := by
  unfold messageMembers
  split
  · rw [List.forall_mem_cons, List.forall_mem_singleton]
    exact ⟨sent_string rfl rfl fun _ => utf8_nil,
      sent_string rfl rfl fun _ => utf8_fingerprintOf config message⟩
  · rw [List.forall_mem_singleton]
    exact sent_stringOrNull rfl rfl fun hgiven => utf8_messageToWrite config (h hgiven)

theorem contextMembers_sent (config : Configuration) {context : List (Option Bytes × Option Bytes)}
    (h : given → ∀ pair ∈ context, Utf8Pair pair) :
    ∀ m ∈ contextMembers config context, SentMember given m := by
  have hvalue : ∀ pair, Json.WellFormed (contextValue config pair) := by
    intro pair
    unfold contextValue
    split
    · exact JsonText.jsonString_wellFormed _
    · exact JsonText.jsonStringOrNull_wellFormed _
  have hutf8 : ∀ pair, Utf8Pair pair → Utf8 (contextValue config pair) := by
    intro pair hpair
    unfold contextValue
    split
    · exact JsonText.utf8_jsonString (utf8_of_isAscii rfl)
    · exact JsonText.utf8_jsonStringOrNull (utf8_messageToWrite config hpair.value)
  have hcontext : SentMember given
      ⟨ascii "context",
        Json.object ((keptPairs config context).map (pairMember (contextValue config)))⟩ :=
    pairs_sent rfl rfl (fun pair _ => hvalue pair) fun hgiven pair hpair =>
      have hsource := h hgiven pair (List.mem_of_mem_filter hpair)
      ⟨hsource, hutf8 pair hsource⟩
  have htags : SentMember given ⟨ascii "tags", Json.object []⟩ :=
    ⟨rfl, rfl, .emptyObject, fun _ => utf8_of_isAscii rfl⟩
  have hsdk : SentMember given ⟨ascii "sdk_name", JsonText.jsonString (ascii "c")⟩ :=
    sent_string rfl rfl fun _ => utf8_of_isAscii rfl
  intro m hm
  simp only [contextMembers, List.mem_append] at hm
  rcases hm with (hm | hm) | hm
  · split at hm
    · exact absurd hm List.not_mem_nil
    · exact List.mem_singleton.mp hm ▸ hcontext
  · split at hm
    · exact absurd hm List.not_mem_nil
    · exact List.mem_singleton.mp hm ▸ htags
  · exact List.mem_singleton.mp hm ▸ hsdk

theorem userMembers_sent (config : Configuration) {user : List (Option Bytes × Option Bytes)}
    (h : given → ∀ pair ∈ user, Utf8Pair pair) :
    ∀ m ∈ userMembers config user, SentMember given m := by
  unfold userMembers
  split
  · cases hid : StrictPrivacy.userId user with
    | none => exact fun m hm => absurd hm List.not_mem_nil
    | some id =>
      have hmember : ∀ m ∈ [(⟨ascii "id", JsonText.jsonString id⟩ : Json.Member)],
          SentMember given m := by
        rw [List.forall_mem_singleton]
        refine sent_string rfl rfl fun hgiven => ?_
        obtain ⟨pair, hpair, hvalue⟩ := userId_mem hid
        exact (h hgiven pair hpair).value id hvalue
      obtain ⟨hvalid, hutf8⟩ := object_of_sent hmember
      show ∀ m ∈ [_], SentMember given m
      rw [List.forall_mem_singleton]
      exact ⟨rfl, rfl, Json.object_wellFormed hvalid, hutf8⟩
  split
  · exact fun m hm => absurd hm List.not_mem_nil
  · rw [List.forall_mem_singleton]
    exact pairs_sent rfl rfl (fun pair _ => JsonText.jsonStringOrNull_wellFormed pair.2)
      fun hgiven pair hpair =>
        ⟨h hgiven pair hpair, JsonText.utf8_jsonStringOrNull (h hgiven pair hpair).value⟩

theorem breadcrumbsMembers_sent (config : Configuration) {breadcrumbs : List Bytes}
    (hvalue : ∀ entry ∈ breadcrumbs, Json.WellFormed entry)
    (h : given → ∀ entry ∈ breadcrumbs, Utf8 entry) :
    ∀ m ∈ breadcrumbsMembers config breadcrumbs, SentMember given m := by
  unfold breadcrumbsMembers
  split
  · rw [List.forall_mem_singleton]
    refine ⟨rfl, rfl, Json.array_wellFormed hvalue, fun hgiven => ?_⟩
    show Utf8 (91 :: (Json.joined breadcrumbs ++ [93]))
    rw [← JsonText.commaSeparated_eq_joined, ← List.singleton_append]
    exact (utf8_of_isAscii rfl).append
      ((JsonText.utf8_commaSeparated (h hgiven)).append (utf8_of_isAscii rfl))
  · exact fun m hm => absurd hm List.not_mem_nil

theorem statementMembers_sent (config : Configuration) {masked : Bytes} (h : given → Utf8 masked) :
    ∀ m ∈ statementMembers config masked, SentMember given m := by
  intro m hm
  rcases List.mem_append.mp hm with hm | hm
  · split at hm
    swap
    · exact absurd hm List.not_mem_nil
    cases hobjects : SqlStatement.objectsJson (some masked) with
    | none => exact absurd (hobjects ▸ hm) List.not_mem_nil
    | some objects =>
      rw [hobjects] at hm
      obtain rfl := List.mem_singleton.mp hm
      obtain ⟨operation, procedures, relations, heq, -⟩ := SqlStatement.objectsJson_eq_some hobjects
      refine ⟨rfl, rfl, ?_, fun hgiven => SqlStatement.objectsJson_utf8 hobjects (h hgiven)⟩
      show Json.WellFormed objects
      rw [heq]
      exact Json.object_wellFormed
        (SqlStatement.objectsMembers_valid operation procedures relations)
  · split at hm
    · obtain rfl := List.mem_singleton.mp hm
      refine sent_string rfl rfl fun hgiven => ?_
      split
      · exact PiiScrubber.scrubString_utf8 (h hgiven)
      · exact h hgiven
    · exact absurd hm List.not_mem_nil

theorem sqlMembers_sent (config : Configuration) {sql : Option Bytes}
    (h : given → ∀ text ∈ sql, Utf8 text) : ∀ m ∈ sqlMembers config sql, SentMember given m := by
  unfold sqlMembers
  cases sql with
  | none => exact fun m hm => absurd hm List.not_mem_nil
  | some statement =>
    cases hmask : SqlStatement.mask (some statement) with
    | none => exact fun m hm => absurd hm List.not_mem_nil
    | some masked =>
      exact statementMembers_sent config fun hgiven =>
        SqlStatement.mask_utf8 hmask (h hgiven statement rfl)

theorem traceMembers_sent {traceId : Option Bytes} (h : given → ∀ id ∈ traceId, Utf8 id) :
    ∀ m ∈ traceMembers traceId, SentMember given m := by
  cases traceId with
  | none => exact fun m hm => absurd hm List.not_mem_nil
  | some id =>
    show ∀ m ∈ [_], SentMember given m
    rw [List.forall_mem_singleton]
    exact sent_string rfl rfl fun hgiven => h hgiven id rfl

theorem surroundingMembers_sent {config : Configuration} (hconfig : Utf8Configuration config)
    {s : Surroundings} (h : given → ∀ lines ∈ s.symbols, ∀ line ∈ lines, Utf8 line) :
    ∀ m ∈ surroundingMembers config s, SentMember given m := by
  simp only [surroundingMembers, List.forall_mem_cons]
  exact ⟨backtraceJson_sent config h, sent_string rfl rfl fun _ => utf8_timestamp s.now,
    sent_stringOrNull rfl rfl fun _ => hconfig.environment,
    sent_stringOrNull rfl rfl fun _ => hconfig.release,
    sent_stringOrNull rfl rfl fun _ => hconfig.serverName, List.forall_mem_nil _⟩

theorem eventMembers_sent {config : Configuration} (hconfig : Utf8Configuration config)
    {event : Event} (hevent : event.IsUtf8)
    (hbreadcrumbs : ∀ entry ∈ event.breadcrumbs, Json.WellFormed entry) (s : Surroundings) :
    ∀ m ∈ eventMembers config event s, SentMember s.IsUtf8 m := by
  have hclass : SentMember s.IsUtf8 (classMember event.exceptionClass) :=
    sent_stringOrNull rfl rfl fun _ => hevent.exceptionClass
  simp only [eventMembers, List.forall_mem_cons, List.forall_mem_append]
  exact ⟨hclass, ⟨⟨⟨⟨⟨messageMembers_sent config fun _ => hevent.message,
    surroundingMembers_sent hconfig Surroundings.IsUtf8.symbols⟩,
    contextMembers_sent config fun _ => hevent.context⟩,
    userMembers_sent config fun _ => hevent.user⟩,
    breadcrumbsMembers_sent config hbreadcrumbs fun _ => hevent.breadcrumbs⟩,
    sqlMembers_sent config fun _ => hevent.sql⟩,
    traceMembers_sent Surroundings.IsUtf8.traceId⟩

/-! ## What a reader finds -/

def pairValue (pair : Option Bytes × Option Bytes) : Bytes × Json.Value :=
  (pair.1.getD [], JsonText.stringOrNull pair.2)

theorem reads_pairs (pairs : List (Option Bytes × Option Bytes))
    {value : Option Bytes × Option Bytes → Bytes}
    (hvalue : ∀ pair, value pair = JsonText.jsonStringOrNull pair.2) :
    Json.Reads (Json.object (pairs.map (pairMember value))) (.object (pairs.map pairValue)) := by
  apply Json.reads_object
  induction pairs with
  | nil => exact .nil
  | cons pair pairs ih =>
    refine .cons (JsonText.readsMember_escaped _ ?_) ih
    rw [pairMember, hvalue]
    exact JsonText.reads_jsonStringOrNull pair.2

/-- An event as a reader sees it, up to what the statement and the trace add. -/
def reportedFields (config : Configuration) (event : Event) (now : Nat) (backtrace : Json.Value)
    (breadcrumbs : List Json.Value) : List (Bytes × Json.Value) :=
  [(ascii "exception_class", JsonText.stringOrNull event.exceptionClass),
    (ascii "message", JsonText.stringOrNull event.message), (ascii "backtrace", backtrace),
    (ascii "occurred_at", .string (Calendar.timestamp now)),
    (ascii "environment", JsonText.stringOrNull config.environment),
    (ascii "release", JsonText.stringOrNull config.release),
    (ascii "server_name", JsonText.stringOrNull config.serverName),
    (ascii "context", .object (event.context.map pairValue)), (ascii "tags", .object []),
    (ascii "sdk_name", .string (ascii "c"))] ++
  (if event.user = [] then [] else [(ascii "user", .object (event.user.map pairValue))]) ++
  (if event.breadcrumbs = [] then [] else [(ascii "breadcrumbs", .array breadcrumbs)])

/-- What the statement and the trace add. -/
def addedNames : List Bytes := [ascii "sql_objects", ascii "sql_statement", ascii "trace_id"]

theorem mem_statementMembers {config : Configuration} {masked : Bytes} {m : Json.Member}
    (h : m ∈ statementMembers config masked) : m.name ∈ addedNames := by
  rcases List.mem_append.mp h with hm | hm
  · split at hm
    · obtain ⟨objects, -, rfl⟩ := Option.map_eq_some_iff.mp (Option.mem_toList.mp hm)
      exact List.mem_cons_self
    · exact absurd hm List.not_mem_nil
  · split at hm
    · obtain rfl := List.mem_singleton.mp hm
      exact List.mem_cons_of_mem _ List.mem_cons_self
    · exact absurd hm List.not_mem_nil

theorem mem_addedMembers {config : Configuration} {sql traceId : Option Bytes} {m : Json.Member}
    (h : m ∈ sqlMembers config sql ++ traceMembers traceId) : m.name ∈ addedNames := by
  rcases List.mem_append.mp h with hm | hm
  · unfold sqlMembers at hm
    cases hmask : SqlStatement.mask sql with
    | none => exact absurd (hmask ▸ hm) List.not_mem_nil
    | some masked =>
      rw [hmask] at hm
      exact mem_statementMembers hm
  · obtain ⟨id, -, rfl⟩ := Option.map_eq_some_iff.mp (Option.mem_toList.mp hm)
    exact List.mem_cons_of_mem _ (List.mem_cons_of_mem _ List.mem_cons_self)

section
variable {config : Configuration} (hstrict : config.strictPrivacy = false)
include hstrict

theorem userMembers_reads (user : List (Option Bytes × Option Bytes)) :
    List.Forall₂ (fun n m => Json.ReadsMember n.name n.value m) (userMembers config user)
      (if user = [] then [] else [(ascii "user", .object (user.map pairValue))]) := by
  rw [userMembers, hstrict, if_neg Bool.false_ne_true]
  split
  · exact .nil
  · exact .cons (JsonText.readsMember_plain rfl (reads_pairs user fun _ => rfl)) .nil

theorem breadcrumbsMembers_reads {breadcrumbs : List Bytes} {values : List Json.Value}
    (h : List.Forall₂ Json.Reads breadcrumbs values) :
    List.Forall₂ (fun n m => Json.ReadsMember n.name n.value m)
      (breadcrumbsMembers config breadcrumbs)
      (if breadcrumbs = [] then [] else [(ascii "breadcrumbs", .array values)]) := by
  rw [breadcrumbsMembers, hstrict]
  by_cases hempty : breadcrumbs = []
  · rw [if_neg (fun hand => hand.1 hempty), if_pos hempty]
    exact .nil
  · rw [if_pos ⟨hempty, Bool.false_ne_true⟩, if_neg hempty]
    exact .cons (JsonText.readsMember_plain rfl (Json.reads_array h)) .nil

variable (hscrub : config.scrubPii = false)
include hscrub

theorem messageMembers_plain (message : Option Bytes) :
    messageMembers config message = [⟨ascii "message", JsonText.jsonStringOrNull message⟩] := by
  rw [messageMembers, hstrict, messageToWrite, hscrub]
  rfl

theorem contextMembers_reads (context : List (Option Bytes × Option Bytes)) :
    List.Forall₂ (fun n m => Json.ReadsMember n.name n.value m) (contextMembers config context)
      [(ascii "context", .object (context.map pairValue)), (ascii "tags", .object []),
        (ascii "sdk_name", .string (ascii "c"))] := by
  have hkept : keptPairs config context = context := by
    rw [keptPairs, hstrict]
    exact List.filter_true context
  have hvalue : ∀ pair, contextValue config pair = JsonText.jsonStringOrNull pair.2 := by
    intro pair
    rw [contextValue, hscrub]
    rfl
  rw [contextMembers, hkept, hstrict]
  exact .cons (JsonText.readsMember_plain rfl (reads_pairs context hvalue))
    (.cons (JsonText.readsMember_plain rfl (Json.reads_emptyObject (w := []) rfl))
      (.cons (JsonText.readsMember_string rfl _) .nil))

/-- Every member is read back for what was reported. -/
theorem eventMembers_reads {event : Event} {s : Surroundings} {breadcrumbs : List Json.Value}
    (hbreadcrumbs : List.Forall₂ Json.Reads event.breadcrumbs breadcrumbs)
    (hsent : ∀ m ∈ eventMembers config event s, m.Valid) : ∃ backtrace more,
      (∀ m ∈ more, m.1 ∈ addedNames) ∧
        List.Forall₂ (fun n m => Json.ReadsMember n.name n.value m) (eventMembers config event s)
          (reportedFields config event s.now backtrace breadcrumbs ++ more) := by
  have hbacktrace : (⟨ascii "backtrace", backtraceJson config s.symbols⟩ : Json.Member).Valid :=
    hsent _ (by simp [eventMembers, surroundingMembers])
  obtain ⟨backtrace, hread, -⟩ := Json.WellFormed.reads hbacktrace.value
  have hadded : ∀ m ∈ sqlMembers config event.sql ++ traceMembers s.traceId, m.Valid := by
    intro m hm
    apply hsent
    simp only [eventMembers, List.mem_cons, List.mem_append]
    rcases List.mem_append.mp hm with hm | hm
    · exact .inr (.inl (.inr hm))
    · exact .inr (.inr hm)
  obtain ⟨more, hmore, hnames⟩ := Json.exists_readsMember_all hadded
  refine ⟨backtrace, more, fun m hm => ?_, ?_⟩
  · have hname : m.1 ∈ more.map Prod.fst := List.mem_map_of_mem hm
    rw [hnames] at hname
    obtain ⟨n, hn, heq⟩ := List.mem_map.mp hname
    have hadds := mem_addedMembers hn
    have hplain : n.name.all Json.isPlain = true := by
      have hall : addedNames.all (fun name => name.all Json.isPlain) = true := by decide
      exact List.all_eq_true.mp hall _ hadds
    rw [← heq, JsonText.unescape_plain hplain]
    exact hadds
  · have hhead : List.Forall₂ (fun n m => Json.ReadsMember n.name n.value m)
        (classMember event.exceptionClass ::
          (messageMembers config event.message ++ surroundingMembers config s))
        [(ascii "exception_class", JsonText.stringOrNull event.exceptionClass),
          (ascii "message", JsonText.stringOrNull event.message), (ascii "backtrace", backtrace),
          (ascii "occurred_at", .string (Calendar.timestamp s.now)),
          (ascii "environment", JsonText.stringOrNull config.environment),
          (ascii "release", JsonText.stringOrNull config.release),
          (ascii "server_name", JsonText.stringOrNull config.serverName)] := by
      rw [messageMembers_plain hstrict hscrub]
      refine .cons (JsonText.readsMember_stringOrNull rfl _) ?_
      refine .cons (JsonText.readsMember_stringOrNull rfl _) ?_
      refine .cons (JsonText.readsMember_plain rfl hread) ?_
      refine .cons (JsonText.readsMember_string rfl _) ?_
      refine .cons (JsonText.readsMember_stringOrNull rfl _) ?_
      refine .cons (JsonText.readsMember_stringOrNull rfl _) ?_
      exact .cons (JsonText.readsMember_stringOrNull rfl _) .nil
    have hparts := List.rel_append (List.rel_append (List.rel_append (List.rel_append hhead
      (contextMembers_reads hstrict hscrub event.context)) (userMembers_reads hstrict event.user))
      (breadcrumbsMembers_reads hstrict hbreadcrumbs)) hmore
    simpa [eventMembers, reportedFields] using hparts

end

/-- The payload of an event whose texts are valid UTF-8 and whose breadcrumbs are JSON. -/
structure PayloadOf (config : Configuration) (event : Event) (s : Surroundings)
    (payload : Bytes) : Prop where
  wellFormed : Json.WellFormed payload
  object : ∃ fields, Json.parse payload = some (.object fields)
  utf8 : s.IsUtf8 → Utf8 payload
  value : config.scrubPii = false → config.strictPrivacy = false → ∃ backtrace breadcrumbs more,
    event.breadcrumbs.map Json.parse = breadcrumbs.map some ∧ (∀ m ∈ more, m.1 ∈ addedNames) ∧
      Json.parse payload =
      some (.object (reportedFields config event s.now backtrace breadcrumbs ++ more))

/-- Under every configuration the payload is a JSON object, and it says what was reported. -/
theorem buildEventJsonWithSql_payload {config : Configuration} (hconfig : Utf8Configuration config)
    {event : Event} (hevent : event.IsUtf8)
    (hbreadcrumbs : ∀ entry ∈ event.breadcrumbs, Json.WellFormed entry) (s : Surroundings) :
    PayloadOf config event s (buildEventJsonWithSql config event s) := by
  obtain ⟨hvalid, hutf8⟩ := object_of_sent (eventMembers_sent hconfig hevent hbreadcrumbs s)
  obtain ⟨fields, hfields, -⟩ := Json.exists_readsMember_all hvalid
  obtain ⟨breadcrumbs, hreads, hparses⟩ := Json.exists_reads_all hbreadcrumbs
  rw [buildEventJsonWithSql_eq]
  refine ⟨Json.object_wellFormed hvalid, ⟨fields, (Json.reads_object hfields).parse⟩, hutf8,
    fun hscrub hstrict => ?_⟩
  obtain ⟨backtrace, more, hnames, hmembers⟩ := eventMembers_reads hstrict hscrub hreads hvalid
  exact ⟨backtrace, breadcrumbs, more, hparses, hnames, (Json.reads_object hmembers).parse⟩

def plainConfiguration : Configuration := { scrubPii := false, captureSqlStatement := true }

def orderEvent : Event where
  exceptionClass := some (ascii "NotFound")
  message := some (ascii "no order \"17\"")
  context := [(some (ascii "order"), some (ascii "17")), (some (ascii "coupon"), none)]
  user := [(some (ascii "id"), some (ascii "42"))]
  breadcrumbs := [ascii "\x7b\x7d"]
  sql := some (ascii "SELECT * FROM orders WHERE id = 17")

theorem buildEventJsonWithSql_payload_order :
    PayloadOf plainConfiguration orderEvent ⟨0, none, none⟩
      (buildEventJsonWithSql plainConfiguration orderEvent ⟨0, none, none⟩) := by
  have htext : ∀ {text other : Bytes}, other.all Byte.isAscii = true → text ∈ some other →
      Utf8 text := by
    rintro text other hascii hmem
    obtain rfl := Option.some.inj hmem
    exact utf8_of_isAscii hascii
  have hnone : ∀ text ∈ (none : Option Bytes), Utf8 text := fun _ h => absurd h (by simp)
  have hconfig : Utf8Configuration plainConfiguration := ⟨fun _ h => htext rfl h, hnone, hnone⟩
  have hpair : ∀ {key value : Bytes}, key.all Byte.isAscii = true → value.all Byte.isAscii = true →
      Utf8Pair (some key, some value) := fun hkey hvalue =>
    ⟨⟨_, rfl, utf8_of_isAscii hkey⟩, fun _ h => htext hvalue h⟩
  have hcoupon : Utf8Pair (some (ascii "coupon"), none) := ⟨⟨_, rfl, utf8_of_isAscii rfl⟩, hnone⟩
  have hevent : orderEvent.IsUtf8 := by
    refine ⟨fun _ h => htext rfl h, fun _ h => htext rfl h, ?_, ?_, ?_, fun _ h => htext rfl h⟩
    · exact List.forall_mem_cons.mpr ⟨hpair rfl rfl, List.forall_mem_singleton.mpr hcoupon⟩
    · exact List.forall_mem_singleton.mpr (hpair rfl rfl)
    · exact List.forall_mem_singleton.mpr (utf8_of_isAscii rfl)
  have hbreadcrumbs : ∀ entry ∈ orderEvent.breadcrumbs, Json.WellFormed entry :=
    List.forall_mem_singleton.mpr .emptyObject
  exact buildEventJsonWithSql_payload hconfig hevent hbreadcrumbs ⟨0, none, none⟩

end ForgeOps.EventBuilder
