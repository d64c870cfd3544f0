import ForgeOpsTracker.Breadcrumbs
import ForgeOpsTracker.StrictPrivacy

/-! The raw report of a fatal signal, and the payload the next launch makes of it
(`signal_handler.c`). The process may die while the report is written, so what is
read back is any prefix of it. Text buffers grow as they have to here. -/

namespace ForgeOps.SignalReport

def signalNameSize : Nat := 256
/-- The size of the line buffer, the NUL included. -/
def lineSize : Nat := Breadcrumbs.slotSize + 64
/-- `FORGEOPS_TRACE_ID_LENGTH` -/
def traceIdLength : Nat := 32

def isAsciiText (c : UInt8) : Bool := 32 ≤ c && c ≤ 126
def isLowerHex (c : UInt8) : Bool := Byte.isDigit c || (97 ≤ c && c ≤ 102)

/-! ## Writing the report -/

/-- A line one read of the loop takes whole. -/
structure Readable (line : Bytes) : Prop where
  no_newline : 10 ∉ line
  no_nul : 0 ∉ line
  fits : line.length < lineSize - 1

/-- What the handler finds when the signal arrives: the name `strsignal` has for it, the
lines of `backtrace_symbols_fd`, the thread's trail and the trace it had open. -/
structure Crash where
  signalName : Bytes
  backtrace : List Bytes
  trail : Breadcrumbs.Trail
  traceId : Option Bytes
  name_ascii : signalName.all isAsciiText
  name_fits : signalName.length < signalNameSize
  backtrace_readable : ∀ l ∈ backtrace, Readable l
  backtrace_unmarked : ∀ l ∈ backtrace, ¬ ascii "#breadcrumb" <+: l ∧ ¬ ascii "#trace_id" <+: l
  trail_reachable : Runs.Reachable Breadcrumbs.step none trail
  traceId_hex : ∀ id ∈ traceId, id.length = traceIdLength ∧ id.all isLowerHex

def traceLine (id : Bytes) : Bytes := ascii "#trace_id " ++ id

/-- `forgeops_spans_write_raw_trace_id_to_fd` -/
def writeRawTraceIdToFd : Option Bytes → Bytes
  | none => []
  | some id => traceLine id ++ ascii "\n"

/-- `forgeops_signal_handler_write_report`: what the file holds at the end. -/
def writeReport (crash : Crash) : Bytes :=
  crash.signalName ++ ascii "\n" ++ unlines crash.backtrace ++
    Breadcrumbs.writeRawToFd crash.trail ++ writeRawTraceIdToFd crash.traceId

/-! ## Completing it -/

/-- The C string `fgets` left in its buffer, without its newline. -/
def stripped (chunk : Bytes) : Bytes :=
  let line := chunk.takeWhile (· ≠ 0)
  if line.getLast? = some 10 then line.dropLast else line

def signalNameOf (file : Bytes) : Bytes :=
  let chunk := (fgets (signalNameSize - 1) file).1
  if chunk = [] then ascii "unknown signal" else stripped chunk

structure Sections where
  frames : List Bytes := []
  crumbs : List Bytes := []
  traceId : Option Bytes := none

/-- "An entry that at least looks like a complete object." -/
def looksComplete (json : Bytes) : Bool :=
  json.length ≥ 2 && json.head? = some 123 && json.getLast? = some 125

/-- The body of the loop over the lines after the name. -/
def takeLine (s : Sections) (line : Bytes) : Sections :=
  if line = [] then s
  else if ascii "#trace_id " <+: line then
    let id := line.drop 10
    if line.length = 10 + traceIdLength ∧
      id.all isLowerHex then { s with traceId := some id } else s
  else if ascii "#breadcrumb " <+: line then
    let json := line.drop 12
    if looksComplete json then { s with crumbs := s.crumbs ++ [json] } else s
  else { s with frames := s.frames ++ [line] }

def sections (file : Bytes) : Sections :=
  ((chunks (lineSize - 1) file.length file).map stripped).foldl takeLine {}

/-- The signal's name in the two strings it is folded into. -/
def escapeName (c : UInt8) : Bytes := if c = 34 ∨ c = 92 then [92, c] else [c]

def frame (line : Bytes) : Bytes :=
  ascii "\x7b\"file\":null,\"line\":null,\"method\":" ++ JsonText.jsonString line ++
    ascii ",\"in_app\":false\x7d"

def userPair (pair : Bytes × Option Bytes) : Bytes :=
  JsonText.jsonString pair.1 ++ ascii ":" ++ JsonText.jsonStringOrNull pair.2

/-- The user of the uploading thread, or under strict privacy only their id. -/
def userField (config : Configuration) (user : List (Bytes × Option Bytes)) : Bytes :=
  if config.strictPrivacy then
    match StrictPrivacy.userId (user.map fun pair => (some pair.1, pair.2)) with
    | none => []
    | some id => ascii ",\"user\":\x7b\"id\":" ++ JsonText.jsonString id ++ ascii "\x7d"
  else if user = [] then []
  else ascii ",\"user\":\x7b" ++ JsonText.commaSeparated (user.map userPair) ++ ascii "\x7d"

/-- What stands between the two strings the name is folded into. -/
def messageField (config : Configuration) (name : Bytes) : Bytes :=
  if config.strictPrivacy then
    ascii "\",\"message\":\"\",\"message_fingerprint\":\"" ++
      StrictPrivacy.messageFingerprint (some (ascii "Uncaught fatal signal: " ++ name))
  else ascii "\",\"message\":\"Uncaught fatal signal: " ++ name.flatMap escapeName

/-- The payload up to the user. -/
def facts (config : Configuration) (name : Bytes) (frames : List Bytes) (now : Nat)
    (user : List (Bytes × Option Bytes)) : Bytes :=
  ascii "\x7b\"exception_class\":\"Signal: " ++ name.flatMap escapeName ++
    messageField config name ++
    ascii "\",\"backtrace\":[" ++ JsonText.commaSeparated (frames.map frame) ++
    ascii "],\"occurred_at\":" ++ JsonText.jsonString (Calendar.timestamp now) ++
    ascii ",\"environment\":" ++ JsonText.jsonStringOrNull config.environment ++
    ascii ",\"release\":" ++ JsonText.jsonStringOrNull config.release ++
    ascii ",\"server_name\":" ++ JsonText.jsonStringOrNull config.serverName ++
    (if config.strictPrivacy then [] else ascii ",\"context\":\x7b\x7d,\"tags\":\x7b\x7d") ++
    userField config user

def breadcrumbsField (config : Configuration) (crumbs : List Bytes) : Bytes :=
  if crumbs ≠ [] ∧ ¬ config.strictPrivacy then
    ascii ",\"breadcrumbs\":[" ++ JsonText.commaSeparated crumbs ++ ascii "]"
  else []

def traceField : Option Bytes → Bytes
  | none => []
  | some id => ascii ",\"trace_id\":\"" ++ id ++ ascii "\""

def payload (config : Configuration) (name : Bytes) (s : Sections) (now : Nat)
    (user : List (Bytes × Option Bytes)) : Bytes :=
  facts config name s.frames now user ++ breadcrumbsField config s.crumbs ++ traceField s.traceId ++
    ascii "\x7d"

/-- `forgeops_signal_handler_complete_json` on a file that can be opened. -/
def completeJson (config : Configuration) (file : Bytes) (now : Nat)
    (user : List (Bytes × Option Bytes)) : Bytes :=
  payload config (signalNameOf file) (sections (fgets (signalNameSize - 1) file).2) now user

/-! ## The payload is JSON when its breadcrumbs are -/

theorem chars_escapeName {name : Bytes} (h : name.all isAsciiText) :
    Json.Chars (name.flatMap escapeName) := by
  induction name with
  | nil => exact .nil
  | cons c name ih =>
    rw [List.all_cons, Bool.and_eq_true] at h
    have hc : Json.Chars (escapeName c) := by
      unfold escapeName
      split
      · rename_i hspecial
        rcases hspecial with rfl | rfl
        · exact .escape rfl .nil
        · exact .escape rfl .nil
      · rename_i hspecial
        apply Json.Chars.plain _ .nil
        simp only [isAsciiText, Bool.and_eq_true, decide_eq_true_eq] at h
        simp only [Json.isPlain, Bool.and_eq_true, bne_iff_ne, decide_eq_true_eq]
        exact ⟨⟨h.1.1, fun h => hspecial (.inl h)⟩, fun h => hspecial (.inr h)⟩
    exact hc.append (ih h.2)

theorem hex_plain {id : Bytes} (h : id.all isLowerHex) : id.all Json.isPlain = true := by
  apply List.all_eq_true.mpr
  intro c hc
  have := List.all_eq_true.mp h c hc
  simp only [isLowerHex, Byte.isDigit, Bool.or_eq_true, Bool.and_eq_true, decide_eq_true_eq] at this
  simp only [Json.isPlain, Bool.and_eq_true, bne_iff_ne, decide_eq_true_eq]
  grind

theorem chars_hex {id : Bytes} (h : id.all isLowerHex) : Json.Chars id :=
  Json.chars_of_plain (hex_plain h)

theorem frame_wellFormed (line : Bytes) : Json.WellFormed (frame line) := by
  have hfile : Json.Opened (ascii "\x7b\"file\":" ++ ascii "null") :=
    Json.Opened.first (k := ascii "file") (Json.chars_of_plain (by decide)) .null
  have hline := hfile.append (ascii "line") (ascii ",\"line\":") rfl (by decide) .null
  have hmethod := hline.append (ascii "method") (ascii ",\"method\":") rfl (by decide)
    (JsonText.jsonString_wellFormed line)
  have happ := hmethod.append (ascii "in_app") (ascii ",\"in_app\":") rfl (by decide) .false
  have hclosed := happ.close
  rw [List.append_assoc (_ ++ JsonText.jsonString line),
    List.append_assoc (_ ++ JsonText.jsonString line)]
    at hclosed
  exact hclosed

theorem array_field {t : Bytes} {vs : List Bytes} (h : Json.Opened t) (k label : Bytes)
    (hlabel : label = 44 :: (Json.quoted k ++ [58, 91])) (hk : k.all Json.isPlain)
    (hvs : ∀ v ∈ vs, Json.WellFormed v) :
    Json.Opened (t ++ label ++ JsonText.commaSeparated vs ++ [93]) := by
  have harray := h.append k _ rfl hk (Json.array_wellFormed hvs)
  rw [JsonText.commaSeparated_eq_joined, hlabel]
  simpa [Json.array] using harray

def userMember (pair : Bytes × Option Bytes) : Json.Member :=
  ⟨pair.1.flatMap JsonText.escapeByte, JsonText.jsonStringOrNull pair.2⟩

theorem userPair_eq : userPair = Json.Member.text ∘ userMember :=
  funext fun _ => JsonText.pair_text _ _

theorem messageFingerprint_hex (message : Option Bytes) :
    (StrictPrivacy.messageFingerprint message).all isLowerHex := by
  have hdigit : ∀ n < 16, isLowerHex (hexDigit n) = true := by decide
  unfold StrictPrivacy.messageFingerprint
  rw [List.all_flatMap]
  apply List.all_eq_true.mpr
  intro c _
  have := c.toNat_lt
  rw [hexByte, List.all_cons, List.all_cons, hdigit _ (by omega), hdigit _ (by omega)]
  rfl

/-- The class and the message, which share the quote between them. -/
theorem message_opened (config : Configuration) {name : Bytes} (h : name.all isAsciiText) :
    Json.Opened (ascii "\x7b\"exception_class\":\"Signal: " ++ name.flatMap escapeName ++
      messageField config name ++ ascii "\"") := by
  have hquote : ascii "\"" = [34] := rfl
  have hname := chars_escapeName h
  have hclass : Json.Opened (ascii "\x7b\"exception_class\":\"Signal: " ++
      name.flatMap escapeName ++ ascii "\"") :=
    Json.Opened.first (k := ascii "exception_class")
      (v := Json.quoted (ascii "Signal: " ++ name.flatMap escapeName))
      (Json.chars_of_plain (by decide))
      (.string ((Json.chars_of_plain (by decide)).append hname))
  unfold messageField
  split
  · have hempty := hclass.append (ascii "message") (ascii ",\"message\":") rfl (by decide)
      (.string .nil)
    have hfingerprint := hempty.append (ascii "message_fingerprint")
      (ascii ",\"message_fingerprint\":") rfl (by decide)
      (.string (chars_hex (messageFingerprint_hex
        (some (ascii "Uncaught fatal signal: " ++ name)))))
    rw [show ascii "\",\"message\":\"\",\"message_fingerprint\":\"" =
      ascii "\"" ++ (ascii ",\"message\":" ++ (Json.quoted [] ++
        (ascii ",\"message_fingerprint\":" ++ [34]))) from rfl]
    simpa only [Json.quoted, hquote, List.append_assoc, List.cons_append, List.nil_append]
      using hfingerprint
  · have hmessage := hclass.append (ascii "message") (ascii ",\"message\":") rfl (by decide)
      (.string ((Json.chars_of_plain (s := ascii "Uncaught fatal signal: ")
        (by decide)).append hname))
    rw [show ascii "\",\"message\":\"Uncaught fatal signal: " =
      ascii "\"" ++ (ascii ",\"message\":" ++ (34 :: ascii "Uncaught fatal signal: ")) from rfl]
    simpa only [Json.quoted, hquote, List.append_assoc, List.cons_append,
      List.nil_append] using hmessage

theorem userField_opened {t : Bytes} (h : Json.Opened t) (config : Configuration)
    (user : List (Bytes × Option Bytes)) : Json.Opened (t ++ userField config user) := by
  unfold userField
  split
  · split
    · rwa [List.append_nil]
    · rename_i id _
      have hid : Json.WellFormed (Json.object [⟨ascii "id", JsonText.jsonString id⟩]) := by
        apply Json.object_wellFormed
        intro m hm
        obtain rfl := List.mem_singleton.mp hm
        exact ⟨Json.chars_of_plain (s := ascii "id") (by decide), JsonText.jsonString_wellFormed id⟩
      have huser := h.append (ascii "user") (ascii ",\"user\":") rfl (by decide) hid
      rw [List.append_assoc] at huser
      exact huser
  · split
    · rwa [List.append_nil]
    · have hpairs : Json.WellFormed (Json.object (user.map userMember)) := by
        apply Json.object_wellFormed
        intro m hm
        obtain ⟨pair, -, rfl⟩ := List.mem_map.mp hm
        exact ⟨JsonText.chars_escaped _, JsonText.jsonStringOrNull_wellFormed _⟩
      have huser := h.append (ascii "user") (ascii ",\"user\":") rfl (by decide) hpairs
      rw [List.append_assoc, Json.object, List.map_map, ← userPair_eq,
        ← JsonText.commaSeparated_eq_joined] at huser
      exact huser

theorem facts_opened (config : Configuration) {name : Bytes} (h : name.all isAsciiText)
    (frames : List Bytes) (now : Nat) (user : List (Bytes × Option Bytes)) :
    Json.Opened (facts config name frames now user) := by
  have hframes : ∀ v ∈ frames.map frame, Json.WellFormed v := by
    intro v hv
    obtain ⟨line, -, rfl⟩ := List.mem_map.mp hv
    exact frame_wellFormed line
  have hbacktrace := array_field (message_opened config h) (ascii "backtrace")
    (ascii ",\"backtrace\":[") rfl (by decide) hframes
  have htime := hbacktrace.append (ascii "occurred_at") (ascii ",\"occurred_at\":") rfl
    (by decide) (JsonText.jsonString_wellFormed (Calendar.timestamp now))
  have henvironment := htime.append (ascii "environment") (ascii ",\"environment\":") rfl
    (by decide) (JsonText.jsonStringOrNull_wellFormed config.environment)
  have hrelease := henvironment.append (ascii "release") (ascii ",\"release\":") rfl
    (by decide) (JsonText.jsonStringOrNull_wellFormed config.release)
  have hserver := hrelease.append (ascii "server_name") (ascii ",\"server_name\":") rfl
    (by decide) (JsonText.jsonStringOrNull_wellFormed config.serverName)
  unfold facts
  apply userField_opened
  rw [show ascii "\",\"backtrace\":[" = ascii "\"" ++ ascii ",\"backtrace\":[" from rfl,
    show ascii "],\"occurred_at\":" = [93] ++ ascii ",\"occurred_at\":" from rfl]
  split
  · simpa only [List.append_assoc, List.append_nil] using hserver
  · have hcontext := hserver.append (ascii "context") (ascii ",\"context\":") rfl
      (by decide) .emptyObject
    have htags := hcontext.append (ascii "tags") (ascii ",\"tags\":") rfl
      (by decide) .emptyObject
    rw [show ascii ",\"context\":\x7b\x7d,\"tags\":\x7b\x7d" =
      ascii ",\"context\":" ++ ([123, 125] ++ (ascii ",\"tags\":" ++ [123, 125])) from rfl]
    simpa only [List.append_assoc] using htags

theorem payload_wellFormed {config : Configuration} {name : Bytes} {s : Sections}
    (hname : name.all isAsciiText) (htrace : ∀ id ∈ s.traceId, id.all isLowerHex)
    (hcrumbs : config.strictPrivacy = true ∨ ∀ c ∈ s.crumbs, Json.WellFormed c) (now : Nat)
    (user : List (Bytes × Option Bytes)) : Json.WellFormed (payload config name s now user) := by
  have hfacts := facts_opened config hname s.frames now user
  have hfield : Json.Opened (facts config name s.frames now user ++
      breadcrumbsField config s.crumbs) := by
    unfold breadcrumbsField
    split
    · rename_i hsent
      rw [← List.append_assoc, ← List.append_assoc]
      exact array_field hfacts (ascii "breadcrumbs") _ rfl (by decide)
        (hcrumbs.resolve_left hsent.2)
    · rwa [List.append_nil]
  apply Json.Opened.close
  cases htid : s.traceId with
  | none => rwa [traceField, List.append_nil]
  | some id =>
    have hid := hfield.append (ascii "trace_id") (ascii ",\"trace_id\":") rfl (by decide)
      (.string (chars_hex (htrace id htid)))
    rw [List.append_assoc] at hid
    exact hid

/-- A last breadcrumb that is an object cut short spoils the payload. -/
theorem payload_not_wellFormed {config : Configuration} {name : Bytes} {s : Sections}
    {whole : List Bytes} {ms : List Json.Member} {cut : Bytes} (hname : name.all isAsciiText)
    (hsent : ¬ config.strictPrivacy) (htrace : s.traceId = none)
    (hcrumbs : s.crumbs = whole ++ [cut]) (hwhole : ∀ c ∈ whole, Json.WellFormed c)
    (hms : ∀ m ∈ ms, m.Valid) (hcut : cut <+: Json.object ms) (hne : cut ≠ Json.object ms)
    (hnil : cut ≠ []) (now : Nat) (user : List (Bytes × Option Bytes)) :
    ¬ Json.WellFormed (payload config name s now user) := by
  have hfacts := (facts_opened config hname s.frames now user).scanned 0
  have hopen : ∀ d, d + 1 ≤ (Json.scanned ⟨d, .code⟩ cut).depth :=
    Json.object_prefix_open hms hcut hne hnil
  have hcrumb : 3 ≤ (Json.scanned ⟨2, .code⟩ (JsonText.commaSeparated s.crumbs)).depth := by
    rw [hcrumbs, JsonText.commaSeparated_eq_joined]
    by_cases hempty : whole = []
    · rw [hempty]
      exact hopen 2
    · rw [Json.joined_concat hempty, Json.scanned_append,
        ((Json.joined_values hempty hwhole).balanced 2).1]
      exact hopen 2
  have hparts : payload config name s now user =
      (facts config name s.frames now user ++
        (ascii ",\"breadcrumbs\":[" ++ JsonText.commaSeparated s.crumbs)) ++ ascii "]\x7d" := by
    rw [payload, breadcrumbsField, if_pos ⟨by simp [hcrumbs], hsent⟩, htrace, traceField,
      show ascii "]\x7d" = ascii "]" ++ ascii "\x7d" from rfl]
    simp only [List.append_assoc, List.nil_append]
  rw [hparts]
  apply Json.not_wellFormed_of_deep
  rw [Json.scanned_append, hfacts, Json.scanned_append]
  exact hcrumb

/-! ## What the loop over the lines collects -/

/-- The entry a line adds, if it adds one. -/
def crumbOf (line : Bytes) : Option Bytes :=
  if ascii "#breadcrumb " <+: line ∧ looksComplete (line.drop 12) then some (line.drop 12) else none

theorem not_both_marks {line : Bytes} (h : ascii "#trace_id " <+: line) :
    ¬ ascii "#breadcrumb " <+: line := by
  intro hcrumb
  obtain ⟨rest, rfl⟩ := h
  exact absurd (List.cons_prefix_cons.mp (List.cons_prefix_cons.mp hcrumb).2).1 (by decide)

theorem crumbs_takeLine (s : Sections) (line : Bytes) :
    (takeLine s line).crumbs = s.crumbs ++ (crumbOf line).toList := by
  by_cases hnil : line = []
  · subst hnil
    rw [show crumbOf [] = none by decide]
    exact (List.append_nil _).symm
  unfold takeLine
  rw [if_neg hnil]
  by_cases htrace : ascii "#trace_id " <+: line
  · have hnone : crumbOf line = none := if_neg fun h => not_both_marks htrace h.1
    rw [if_pos htrace, hnone]
    dsimp only
    split <;> simp
  rw [if_neg htrace, crumbOf]
  by_cases hmark : ascii "#breadcrumb " <+: line
  · simp only [hmark, if_true, true_and]
    split <;> simp
  · simp [hmark]

theorem crumbs_foldl (ls : List Bytes) (s : Sections) :
    (ls.foldl takeLine s).crumbs = s.crumbs ++ ls.filterMap crumbOf := by
  induction ls generalizing s with
  | nil => simp
  | cons l ls ih =>
    rw [List.foldl_cons, ih, crumbs_takeLine, List.filterMap_cons, List.append_assoc]
    cases crumbOf l <;> rfl

theorem traceId_takeLine {s : Sections} {line : Bytes} (h : ¬ ascii "#trace_id " <+: line) :
    (takeLine s line).traceId = s.traceId := by
  unfold takeLine
  split
  · rfl
  split
  · dsimp only
    split <;> rfl
  · rfl

theorem traceId_foldl {ls : List Bytes} {s : Sections} (h : ∀ l ∈ ls, ¬ ascii "#trace_id " <+: l) :
    (ls.foldl takeLine s).traceId = s.traceId := by
  induction ls generalizing s with
  | nil => rfl
  | cons l ls ih =>
    rw [List.foldl_cons, ih fun m hm => h m (List.mem_cons_of_mem _ hm),
      traceId_takeLine (h l List.mem_cons_self)]

/-- Only a whole, well-formed id is taken. -/
theorem traceId_hex_foldl (ls : List Bytes) {s : Sections}
    (h : ∀ id ∈ s.traceId, id.all isLowerHex) :
    ∀ id ∈ (ls.foldl takeLine s).traceId, id.all isLowerHex := by
  induction ls generalizing s with
  | nil => exact h
  | cons l ls ih =>
    apply ih
    by_cases htrace : ascii "#trace_id " <+: l
    · unfold takeLine
      rw [if_pos htrace]
      split
      · exact h
      dsimp only
      split
      · rename_i hvalid
        intro id hid
        obtain rfl := Option.some.inj hid
        exact hvalid.2
      · exact h
    · rwa [traceId_takeLine htrace]

end ForgeOps.SignalReport
