import ForgeOpsTracker.EventValues
import ForgeOpsTracker.Reporter
import ForgeOpsTracker.SignalReportWhole

/-! From a fatal signal to what the server reads of it. The handler's file may stop at any byte; the
next launch uploads what is left of it, and that payload says no more than the crash, loses only
from the end, and is sent once. -/

namespace ForgeOps.SignalReport
open JsonText

/-! ## The payload as an object -/

theorem escapeName_eq {name : Bytes} (h : name.all isAsciiText) :
    name.flatMap escapeName = name.flatMap escapeByte := by
  refine List.flatMap_congr fun c hc => ?_
  have htext := List.all_eq_true.mp h c hc
  simp only [isAsciiText, Bool.and_eq_true, decide_eq_true_eq] at htext
  unfold escapeName
  split
  · rename_i hspecial
    rcases hspecial with rfl | rfl <;> rfl
  · rename_i hspecial
    have hplain : Json.isPlain c = true := by
      simp only [Json.isPlain, Bool.and_eq_true, bne_iff_ne, decide_eq_true_eq]
      exact ⟨⟨htext.1, fun h => hspecial (.inl h)⟩, fun h => hspecial (.inr h)⟩
    exact (escapeByte_plain hplain).symm

def uncaught (name : Bytes) : Bytes := ascii "Uncaught fatal signal: " ++ name

def messageMembers (config : Configuration) (name : Bytes) : List Json.Member :=
  if config.strictPrivacy then
    [⟨ascii "message", jsonString []⟩,
      ⟨ascii "message_fingerprint", jsonString
        (StrictPrivacy.messageFingerprint (some (uncaught name)))⟩]
  else [⟨ascii "message", jsonString (uncaught name)⟩]

def frameMembers (line : Bytes) : List Json.Member :=
  [⟨ascii "file", ascii "null"⟩, ⟨ascii "line", ascii "null"⟩, ⟨ascii "method", jsonString line⟩,
    ⟨ascii "in_app", ascii "false"⟩]

def surroundingMembers (config : Configuration) (frames : List Bytes) (now : Nat) :
    List Json.Member :=
  [⟨ascii "backtrace", Json.array (frames.map frame)⟩,
    ⟨ascii "occurred_at", jsonString (Calendar.timestamp now)⟩,
    ⟨ascii "environment", jsonStringOrNull config.environment⟩,
    ⟨ascii "release", jsonStringOrNull config.release⟩,
    ⟨ascii "server_name", jsonStringOrNull config.serverName⟩]

def contextMembers (config : Configuration) : List Json.Member :=
  if config.strictPrivacy then [] else [⟨ascii "context", Json.object []⟩,
    ⟨ascii "tags", Json.object []⟩]

/-- The pairs of a user, as the ordinary path has them. -/
def ordinary (user : List (Bytes × Option Bytes)) : List (Option Bytes × Option Bytes) :=
  user.map fun pair => (some pair.1, pair.2)

def payloadMembers (config : Configuration) (name : Bytes) (s : Sections) (now : Nat)
    (user : List (Bytes × Option Bytes)) : List Json.Member :=
  ⟨ascii "exception_class", jsonString (ascii "Signal: " ++ name)⟩ :: (messageMembers config name ++
    surroundingMembers config s.frames now ++ contextMembers config ++
    EventBuilder.userMembers config (ordinary user) ++
      EventBuilder.breadcrumbsMembers config s.crumbs ++ EventBuilder.traceMembers s.traceId)

theorem frame_eq (line : Bytes) : frame line = Json.object (frameMembers line) := by
  simp [frame, frameMembers, Json.object, Json.joined, Json.Member.text, Json.quoted, ascii]

theorem userField_eq (config : Configuration) (user : List (Bytes × Option Bytes)) :
    userField config user = Json.further (EventBuilder.userMembers config (ordinary user)) := by
  rw [← EventBuilder.userField_eq, userField, EventBuilder.userField]
  have hpairs : (ordinary user).map (fun pair => jsonString (pair.1.getD []) ++ ascii ":" ++
      jsonStringOrNull pair.2) = user.map userPair := List.map_map
  rw [hpairs]
  have hempty : ordinary user = [] ↔ user = [] := List.map_eq_nil_iff
  simp only [hempty]
  rfl

theorem message_text (config : Configuration) {name : Bytes} (h : name.all isAsciiText) :
    ascii "\x7b\"exception_class\":\"Signal: " ++ name.flatMap escapeName ++
      messageField config name ++ ascii "\"" =
        123 :: (Json.Member.text ⟨ascii "exception_class", jsonString (ascii "Signal: " ++ name)⟩ ++
        Json.further (messageMembers config name)) := by
  have hsignal : jsonString (ascii "Signal: " ++ name) =
      Json.quoted (ascii "Signal: " ++ name.flatMap escapeByte) := by
    rw [jsonString_eq_quoted, List.flatMap_append]
    rfl
  have huncaught : jsonString (uncaught name) =
      Json.quoted (ascii "Uncaught fatal signal: " ++ name.flatMap escapeByte) := by
    rw [jsonString_eq_quoted, uncaught, List.flatMap_append]
    rfl
  have hfingerprint : jsonString (StrictPrivacy.messageFingerprint (some (uncaught name))) =
      Json.quoted (StrictPrivacy.messageFingerprint (some (uncaught name))) :=
    jsonString_plain (hex_plain (messageFingerprint_hex _))
  rw [escapeName_eq h, hsignal, messageField, messageMembers]
  split
  · rw [hfingerprint, ← uncaught]
    simp [Json.further, Json.Member.text, Json.quoted, jsonString, ascii]
  · rw [escapeName_eq h, huncaught]
    simp [Json.further, Json.Member.text, Json.quoted, ascii]

theorem surrounding_text (config : Configuration) (frames : List Bytes) (now : Nat) :
    ascii ",\"backtrace\":[" ++ commaSeparated (frames.map frame) ++
      ascii "],\"occurred_at\":" ++ jsonString (Calendar.timestamp now) ++
      ascii ",\"environment\":" ++ jsonStringOrNull config.environment ++
      ascii ",\"release\":" ++ jsonStringOrNull config.release ++
      ascii ",\"server_name\":" ++ jsonStringOrNull config.serverName =
        Json.further (surroundingMembers config frames now) := by
  rw [commaSeparated_eq_joined]
  simp [surroundingMembers, Json.array, Json.further, Json.Member.text, Json.quoted, ascii]

theorem context_text (config : Configuration) :
    (if config.strictPrivacy then [] else ascii ",\"context\":\x7b\x7d,\"tags\":\x7b\x7d") =
      Json.further (contextMembers config) := by
  rw [contextMembers]
  split
  · rfl
  · rfl

theorem payload_eq {config : Configuration} {name : Bytes} (h : name.all isAsciiText) {s : Sections}
    (htrace : ∀ id ∈ s.traceId, id.all isLowerHex) (now : Nat)
    (user : List (Bytes × Option Bytes)) :
    payload config name s now user = Json.object (payloadMembers config name s now user) := by
  have hquote : ascii "\",\"backtrace\":[" = ascii "\"" ++ ascii ",\"backtrace\":[" := rfl
  have hbrace : ascii "\x7d" = [125] := rfl
  have hcrumbs : breadcrumbsField config s.crumbs =
      Json.further (EventBuilder.breadcrumbsMembers config s.crumbs) :=
    EventBuilder.breadcrumbsField_eq config s.crumbs
  have htraceId : traceField s.traceId = Json.further (EventBuilder.traceMembers s.traceId) := by
    rw [traceField_eq htrace, EventBuilder.traceField_eq]
  have hparts : payload config name s now user =
      (ascii "\x7b\"exception_class\":\"Signal: " ++ name.flatMap escapeName ++
        messageField config name ++ ascii "\"") ++
        (ascii ",\"backtrace\":[" ++ commaSeparated (s.frames.map frame) ++
          ascii "],\"occurred_at\":" ++ jsonString (Calendar.timestamp now) ++
          ascii ",\"environment\":" ++ jsonStringOrNull config.environment ++
          ascii ",\"release\":" ++ jsonStringOrNull config.release ++
          ascii ",\"server_name\":" ++ jsonStringOrNull config.serverName) ++
        (if config.strictPrivacy then [] else ascii ",\"context\":\x7b\x7d,\"tags\":\x7b\x7d") ++
        userField config user ++ breadcrumbsField config s.crumbs ++
        traceField s.traceId ++ [125] := by
    rw [payload, facts, hbrace, hquote]
    simp only [List.append_assoc]
  rw [hparts, message_text config h, surrounding_text, context_text, userField_eq, hcrumbs,
    htraceId, payloadMembers, Json.object_cons]
  simp only [Json.further_append, List.append_assoc, List.cons_append]

/-! ## What a reader finds -/

def messageFields (config : Configuration) (name : Bytes) : List (Bytes × Json.Value) :=
  if config.strictPrivacy then
    [(ascii "message", .string []),
      (ascii "message_fingerprint", .string
        (StrictPrivacy.messageFingerprint (some (uncaught name))))]
  else [(ascii "message", .string (uncaught name))]

def frameValue (line : Bytes) : Json.Value :=
  .object [(ascii "file", .null), (ascii "line", .null), (ascii "method", .string line),
    (ascii "in_app", .bool false)]

def surroundingFields (config : Configuration) (frames : List Bytes) (occurredAt : Bytes) :
    List (Bytes × Json.Value) :=
  [(ascii "backtrace", .array (frames.map frameValue)), (ascii "occurred_at", .string occurredAt),
    (ascii "environment", stringOrNull config.environment),
    (ascii "release", stringOrNull config.release),
    (ascii "server_name", stringOrNull config.serverName)]

def contextFields (config : Configuration) : List (Bytes × Json.Value) :=
  if config.strictPrivacy then [] else [(ascii "context", .object []), (ascii "tags", .object [])]

def crashFields (config : Configuration) (name : Bytes) (frames : List Bytes)
    (traceId : Option Bytes) (occurredAt : Bytes) (user : List (Bytes × Option Bytes))
    (breadcrumbs : List Json.Value) : List (Bytes × Json.Value) :=
  (ascii "exception_class", .string (ascii "Signal: " ++ name)) :: (messageFields config name ++
    surroundingFields config frames occurredAt ++ contextFields config ++
    EventBuilder.userFields config (ordinary user) ++
      EventBuilder.breadcrumbsFields config breadcrumbs ++ EventBuilder.traceFields traceId)

theorem reads_frame (line : Bytes) : Json.Reads (frame line) (frameValue line) := by
  rw [frame_eq]
  exact Json.reads_object (.cons (readsMember_plain rfl Json.reads_null)
    (.cons (readsMember_plain rfl Json.reads_null)
      (.cons (readsMember_string rfl line)
        (.cons (readsMember_plain rfl Json.reads_false) .nil))))

theorem messageMembers_read (config : Configuration) (name : Bytes) :
    EventBuilder.ReadAs (messageMembers config name) (messageFields config name) := by
  rw [messageMembers, messageFields]
  split
  · exact .cons (readsMember_string rfl []) (EventBuilder.readAs_string rfl _)
  · exact EventBuilder.readAs_string rfl _

theorem surroundingMembers_read (config : Configuration) (frames : List Bytes) (now : Nat) :
    EventBuilder.ReadAs (surroundingMembers config frames now)
      (surroundingFields config frames (Calendar.timestamp now)) := by
  have hframes : List.Forall₂ Json.Reads (frames.map frame) (frames.map frameValue) := by
    induction frames with
    | nil => exact .nil
    | cons line frames ih => exact .cons (reads_frame line) ih
  exact .cons (readsMember_plain rfl (Json.reads_array hframes))
    (.cons (readsMember_string rfl _)
      (.cons (readsMember_stringOrNull rfl _)
        (.cons (readsMember_stringOrNull rfl _)
          (.cons (readsMember_stringOrNull rfl _) .nil))))

theorem contextMembers_read (config : Configuration) :
    EventBuilder.ReadAs (contextMembers config) (contextFields config) := by
  have hempty : Json.Reads (Json.object []) (.object []) := Json.reads_emptyObject (w := []) rfl
  rw [contextMembers, contextFields]
  split
  · exact .nil
  · exact .cons (readsMember_plain rfl hempty) (.cons (readsMember_plain rfl hempty) .nil)

theorem payload_parse {config : Configuration} {name : Bytes}
    (h : name.all isAsciiText) {s : Sections} (htrace : ∀ id ∈ s.traceId, id.all isLowerHex)
    (now : Nat) (user : List (Bytes × Option Bytes)) {breadcrumbs : List Json.Value}
    (hcrumbs : List.Forall₂ Json.Reads s.crumbs breadcrumbs) :
    Json.parse (payload config name s now user) =
      some (.object (crashFields config name s.frames s.traceId
        (Calendar.timestamp now) user breadcrumbs)) := by
  rw [payload_eq h htrace]
  refine (Json.reads_object (.cons (readsMember_string rfl _) ?_)).parse
  exact List.rel_append (List.rel_append (List.rel_append (List.rel_append (List.rel_append
      (messageMembers_read config name) (surroundingMembers_read config s.frames now))
      (contextMembers_read config)) (EventBuilder.userMembers_read config (ordinary user)))
      (EventBuilder.breadcrumbsMembers_read config hcrumbs))
      (EventBuilder.traceMembers_read s.traceId)

/-! ## What is left of a report -/

/-- What one line of a report says of the crash. -/
inductive Fact
  | frame (line : Bytes)
  | breadcrumb (entry : Bytes)
  | trace (id : Bytes)

namespace Fact

/-- The line as the dying process writes it. -/
def line : Fact → Bytes
  | frame line => line
  | breadcrumb entry => Breadcrumbs.rawLine entry
  | trace id => traceLine id

/-- An empty line of the backtrace is passed over. -/
def into (s : Sections) : Fact → Sections
  | frame line => if line = [] then s else { s with frames := s.frames ++ [line] }
  | breadcrumb entry => { s with crumbs := s.crumbs ++ [entry] }
  | trace id => { s with traceId := some id }

/-- What ends within the first `n` bytes, and the head of the line they stop in. -/
def upTo : List Fact → Nat → List Fact × Bytes
  | [], _ => ([], [])
  | fact :: rest, n =>
    if n < fact.line.length then ([], fact.line.take n)
    else (fact :: (upTo rest (n - (fact.line.length + 1))).1,
      (upTo rest (n - (fact.line.length + 1))).2)

inductive Sound : Fact → Prop
  | frame {l : Bytes} (hreadable : Readable l)
      (hunmarked : ¬ ascii "#breadcrumb" <+: l ∧ ¬ ascii "#trace_id" <+: l) : Sound (.frame l)
  | breadcrumb {e : Bytes} (hentry : Breadcrumbs.IsEntry e) : Sound (.breadcrumb e)
  | trace {id : Bytes} (hid : id.length = traceIdLength ∧ id.all isLowerHex) : Sound (.trace id)

theorem Sound.readable {fact : Fact} (h : fact.Sound) : Readable fact.line := by
  cases h with
  | frame hreadable => exact hreadable
  | breadcrumb hentry => exact Crash.rawLine_readable hentry
  | trace hid => exact Crash.traceLine_readable hid

theorem Sound.takeLine {fact : Fact} (h : fact.Sound) (s : Sections) :
    takeLine s fact.line = fact.into s := by
  cases h with
  | @frame l _ hunmarked =>
    by_cases hempty : l = []
    · rw [into, if_pos hempty, line, hempty]
      rfl
    · rw [into, if_neg hempty]
      exact takeLine_frame s hempty hunmarked
  | breadcrumb hentry => exact takeLine_rawLine s (Crash.entry_looksComplete hentry)
  | trace hid => exact takeLine_traceLine s hid

theorem upTo_zero {facts : List Fact} (h : ∀ fact ∈ facts, fact.Sound) (s : Sections) :
    takeLine ((upTo facts 0).1.foldl into s) (upTo facts 0).2 = s := by
  induction facts generalizing s with
  | nil => rfl
  | cons fact rest ih =>
    obtain ⟨hfact, hrest⟩ := List.forall_mem_cons.mp h
    rw [upTo]
    split
    · rfl
    · rename_i hlength
      have hempty : fact.line = [] := List.eq_nil_of_length_eq_zero (by omega)
      rw [Nat.zero_sub, List.foldl_cons, ← hfact.takeLine, hempty]
      exact ih hrest s

/-- Reading the first `n` bytes takes what ends within them, and then the head. -/
theorem upTo_read {facts : List Fact} (h : ∀ fact ∈ facts, fact.Sound) (n : Nat) :
    ∃ ls q, (unlines (facts.map line)).take n = unlines ls ++ q ∧
    (∀ l ∈ ls, Readable l) ∧ Readable q ∧ ∀ s, (ls ++ [q]).foldl SignalReport.takeLine s =
        SignalReport.takeLine ((upTo facts n).1.foldl into s) (upTo facts n).2 := by
  have hempty : Readable [] := ⟨by simp, by simp, by decide⟩
  induction facts generalizing n with
  | nil => exact ⟨[], [], by simp, by simp, hempty, fun s => rfl⟩
  | cons fact rest ih =>
    obtain ⟨hfact, hrest⟩ := List.forall_mem_cons.mp h
    rw [List.map_cons, unlines_cons, upTo]
    rcases Nat.lt_trichotomy n fact.line.length with hless | heq | hmore
    · rw [if_pos hless, List.take_append_of_le_length hless.le]
      exact ⟨[], _, rfl, by simp, hfact.readable.cut (List.take_prefix _ _), fun s => rfl⟩
    · -- the line is whole, its newline is not there
      subst heq
      refine ⟨[], fact.line, ?_, by simp, hfact.readable, fun s => ?_⟩
      · rw [List.take_left]
        rfl
      · rw [if_neg (Nat.lt_irrefl _), show fact.line.length - (fact.line.length + 1) = 0 by omega]
        exact (hfact.takeLine s).trans (upTo_zero hrest _).symm
    · obtain ⟨ls, q, htake, hls, hq, hfold⟩ := ih hrest (n - (fact.line.length + 1))
      refine ⟨fact.line :: ls, q, ?_, List.forall_mem_cons.mpr ⟨hfact.readable, hls⟩,
        hq, fun s => ?_⟩
      · obtain ⟨k, rfl⟩ : ∃ k, n = fact.line.length + (k + 1) :=
          ⟨n - fact.line.length - 1, by omega⟩
        rw [show fact.line.length + (k + 1) - (fact.line.length + 1) = k by omega] at htake
        rw [List.take_length_add_append, List.take_succ_cons, htake, unlines_cons,
          List.append_assoc, List.cons_append]
      · rw [if_neg (by omega), List.cons_append, List.foldl_cons, hfold, hfact.takeLine]
        rfl

/-- The head, where it is not empty, is of the next line and not the whole of it. -/
theorem upTo_head (facts : List Fact) (n : Nat) : (upTo facts n).2 = [] ∨
    ∃ fact rest, facts = (upTo facts n).1 ++ fact :: rest ∧ (upTo facts n).2 <+: fact.line ∧
      (upTo facts n).2.length < fact.line.length ∧
      (unlines (facts.map line)).take n =
        unlines ((upTo facts n).1.map line) ++ (upTo facts n).2 := by
  induction facts generalizing n with
  | nil => exact .inl rfl
  | cons fact rest ih =>
    rw [upTo]
    by_cases hless : n < fact.line.length
    · rw [if_pos hless]
      refine .inr ⟨fact, rest, rfl, List.take_prefix _ _, ?_, ?_⟩
      · rwa [List.length_take_of_le hless.le]
      · rw [List.map_cons, unlines_cons, List.take_append_of_le_length hless.le]
        rfl
    · rw [if_neg hless]
      rcases ih (n - (fact.line.length + 1)) with hnone |
        ⟨next, after, hfacts, hhead, hshort, htake⟩
      · exact .inl hnone
      · by_cases hnone : (upTo rest (n - (fact.line.length + 1))).2 = []
        · exact .inl hnone
        · refine .inr ⟨next, after, congrArg (fact :: ·) hfacts, hhead, hshort, ?_⟩
          have hmore : fact.line.length < n := by
            by_contra hle
            rw [show n - (fact.line.length + 1) = 0 by omega, List.take_zero] at htake
            rw [show n - (fact.line.length + 1) = 0 by omega] at hnone
            exact hnone (List.append_eq_nil_iff.mp htake.symm).2
          obtain ⟨k, rfl⟩ : ∃ k, n = fact.line.length + (k + 1) :=
            ⟨n - fact.line.length - 1, by omega⟩
          rw [show fact.line.length + (k + 1) - (fact.line.length + 1) = k by omega] at htake ⊢
          rw [List.map_cons, unlines_cons, List.take_length_add_append, List.take_succ_cons,
            htake, List.map_cons, unlines_cons, List.append_assoc, List.cons_append]

theorem upTo_prefix (facts : List Fact) (n : Nat) : (upTo facts n).1 <+: facts := by
  induction facts generalizing n with
  | nil => exact List.nil_prefix
  | cons fact rest ih =>
    rw [upTo]
    split
    · exact List.nil_prefix
    · exact List.cons_prefix_cons.mpr ⟨rfl, ih _⟩

theorem upTo_all {facts : List Fact} {n : Nat} (h : (unlines (facts.map line)).length ≤ n) :
    upTo facts n = (facts, []) := by
  induction facts generalizing n with
  | nil => rfl
  | cons fact rest ih =>
    rw [List.map_cons, unlines_cons, List.length_append, List.length_cons] at h
    rw [upTo, if_neg (by omega), ih (by omega)]

end Fact

/-- Its breadcrumbs are entries and its trace's id is one. -/
structure Sections.Sound (s : Sections) : Prop where
  crumbs : ∀ e ∈ s.crumbs, Breadcrumbs.IsEntry e
  traceId : ∀ id ∈ s.traceId, id.all isLowerHex

theorem Sections.Sound.empty : Sections.Sound {} :=
  ⟨fun _ he => absurd he List.not_mem_nil, fun id hid => absurd hid (Option.not_mem_none id)⟩

theorem Sections.Sound.into {s : Sections} (hs : s.Sound) {fact : Fact} (h : fact.Sound) :
    (fact.into s).Sound := by
  cases h with
  | frame =>
    rw [Fact.into]
    split
    · exact hs
    · exact ⟨hs.crumbs, hs.traceId⟩
  | breadcrumb hentry =>
    refine ⟨fun e he => ?_, hs.traceId⟩
    rcases List.mem_append.mp he with he | he
    · exact hs.crumbs e he
    · exact List.mem_singleton.mp he ▸ hentry
  | trace hid => exact ⟨hs.crumbs, fun id hsome => Option.some.inj hsome ▸ hid.2⟩

theorem Sections.Sound.foldl {whole : List Fact} (h : ∀ fact ∈ whole, fact.Sound) {s : Sections}
    (hs : s.Sound) : (whole.foldl Fact.into s).Sound := by
  induction whole generalizing s with
  | nil => exact hs
  | cons fact whole ih =>
    obtain ⟨hfact, hwhole⟩ := List.forall_mem_cons.mp h
    exact ih hwhole (hs.into hfact)

/-- The head of a line is taken for a frame as long as no mark is whole in it. -/
def passHead (s : Sections) (head : Bytes) : Sections :=
  if head = [] ∨ ascii "#breadcrumb " <+: head ∨ ascii "#trace_id " <+: head then s
  else { s with frames := s.frames ++ [head] }

theorem Sections.Sound.passHead {s : Sections} (h : s.Sound) (head : Bytes) :
    (passHead s head).Sound := by
  unfold SignalReport.passHead
  split
  · exact h
  · exact ⟨h.crumbs, h.traceId⟩

theorem takeLine_passHead (s : Sections) {head : Bytes}
    (htrace : ascii "#trace_id " <+: head → head.length ≠ 10 + traceIdLength)
    (hcrumb : ascii "#breadcrumb " <+: head → looksComplete (head.drop 12) = false) :
    takeLine s head = passHead s head := by
  rw [takeLine, passHead]
  by_cases hempty : head = []
  · rw [if_pos hempty, if_pos (Or.inl hempty)]
  · rw [if_neg hempty]
    by_cases hisTrace : ascii "#trace_id " <+: head
    · rw [if_pos hisTrace, if_pos (Or.inr (Or.inr hisTrace))]
      exact if_neg fun hwhole => htrace hisTrace hwhole.1
    · rw [if_neg hisTrace]
      by_cases hisCrumb : ascii "#breadcrumb " <+: head
      · rw [if_pos hisCrumb, if_pos (Or.inr (Or.inl hisCrumb))]
        exact if_neg (Bool.eq_false_iff.mp (hcrumb hisCrumb))
      · rw [if_neg hisCrumb, if_neg (by simp [hempty, hisTrace, hisCrumb])]

namespace Crash

variable (crash : Crash)

/-- What the report of the crash says, line by line. -/
def facts : List Fact :=
  crash.backtrace.map Fact.frame ++ (crash.entries.map Fact.breadcrumb ++
    (crash.traceId.map Fact.trace).toList)

/-- The signal's name in the first `n` bytes of the report. -/
def nameUpTo (n : Nat) : Bytes := if n = 0 then ascii "unknown signal" else crash.signalName.take n

/-- What the first `n` bytes of the report say: the frames, breadcrumbs and trace whose lines end
within them, and the head of the line they stop in for a frame. -/
def remains (n : Nat) : Sections :=
  let left := Fact.upTo crash.facts (n - (crash.signalName.length + 1))
  passHead (left.1.foldl Fact.into {}) left.2

theorem facts_sound : ∀ fact ∈ crash.facts, fact.Sound := by
  intro fact hfact
  rcases List.mem_append.mp hfact with hfact | hfact
  · obtain ⟨l, hl, rfl⟩ := List.mem_map.mp hfact
    exact .frame (crash.backtrace_readable l hl) (crash.backtrace_unmarked l hl)
  · rcases List.mem_append.mp hfact with hfact | hfact
    · obtain ⟨e, he, rfl⟩ := List.mem_map.mp hfact
      exact .breadcrumb (crash.entries_isEntry e he)
    · obtain ⟨id, hid, rfl⟩ := Option.map_eq_some_iff.mp (Option.mem_toList.mp hfact)
      exact .trace (crash.traceId_hex id hid)

theorem writeReport_facts : writeReport crash = crash.signalName ++ 10 ::
    unlines (crash.facts.map Fact.line) := by
  have hlines : crash.facts.map Fact.line =
      crash.backtrace ++ crash.crumbLines ++ (crash.traceId.map traceLine).toList := by
    rw [facts, List.map_append, List.map_append, List.map_map, List.map_map, crumbLines,
      ← List.append_assoc]
    congr 1
    · congr 1
      exact List.map_id _
    · cases crash.traceId with
      | none => rfl
      | some id => rfl
  rw [hlines, writeReport_eq, unlines_cons]

theorem take_writeReport {n : Nat} (h : crash.signalName.length < n) : (writeReport crash).take n =
    crash.signalName ++ 10 :: (unlines (crash.facts.map Fact.line)).take
      (n - (crash.signalName.length + 1)) := by
  obtain ⟨k, rfl⟩ : ∃ k, n = crash.signalName.length + (k + 1) :=
    ⟨n - crash.signalName.length - 1, by omega⟩
  rw [show crash.signalName.length + (k + 1) - (crash.signalName.length + 1) =
    k by omega, writeReport_facts, List.take_length_add_append, List.take_succ_cons]

theorem nameUpTo_ascii (n : Nat) : (crash.nameUpTo n).all isAsciiText := by
  rw [nameUpTo]
  split
  · decide
  · exact List.all_eq_true.mpr fun c hc =>
      List.all_eq_true.mp crash.name_ascii c ((List.take_prefix _ _).subset hc)

/-- Of the first `n` bytes are made the lines that end within them and the head, taken as one more
line. -/
theorem completeJson_take (n : Nat) (config : Configuration) (now : Nat)
    (user : List (Bytes × Option Bytes)) :
    let left := Fact.upTo crash.facts (n - (crash.signalName.length + 1))
    completeJson config ((writeReport crash).take n) now user =
      payload config (crash.nameUpTo n) (takeLine (left.1.foldl Fact.into {}) left.2) now user := by
  intro left
  obtain ⟨hnewline, hnul⟩ := crash.name_readable
  rcases Nat.lt_or_ge crash.signalName.length n with hmore | hless
  · obtain ⟨ls, q, htake, hls, hq, hfold⟩ :=
      Fact.upTo_read crash.facts_sound (n - (crash.signalName.length + 1))
    have hfile : (writeReport crash).take n = unlines (crash.signalName :: ls) ++ q := by
      rw [crash.take_writeReport hmore, htake, unlines_cons, List.append_assoc, List.cons_append]
    have hname : crash.nameUpTo n = crash.signalName := by
      rw [nameUpTo, if_neg (by omega), List.take_of_length_le hmore.le]
    rw [hfile, crash.completeJson_unlines hls hq, hfold, hname]
  · -- the cut falls into the name
    have hnone : takeLine (left.1.foldl Fact.into {}) left.2 = {} := by
      have hleft : left = Fact.upTo crash.facts 0 :=
        congrArg (Fact.upTo crash.facts) (Nat.sub_eq_zero_of_le (Nat.le_succ_of_le hless))
      rw [hleft]
      exact Fact.upTo_zero crash.facts_sound {}
    have hq : crash.signalName.take n <+: crash.signalName := List.take_prefix _ _
    have hread := fgets_last (fun hc => hnewline (hq.subset hc))
      (Nat.le_sub_one_of_lt (Nat.lt_of_le_of_lt hq.length_le crash.name_fits))
    have hempty : crash.signalName.take n = [] ↔ n = 0 ∨ crash.signalName = [] :=
      List.take_eq_nil_iff
    have hsections : sections [] = {} := rfl
    rw [writeReport_facts, List.take_append_of_le_length hless, hnone, completeJson, signalNameOf,
      hread, hsections, nameUpTo]
    by_cases hzero : n = 0
    · rw [if_pos (hempty.mpr (.inl hzero)), if_pos hzero]
    · have hne : crash.signalName.take n ≠ [] := by
        intro hnil
        have hlength := congrArg List.length hnil
        rw [List.length_take_of_le hless] at hlength
        exact hzero hlength
      rw [if_neg hne, if_neg hzero,
        stripped_last (fun hc => hnul (hq.subset hc)) fun hc => hnewline (hq.subset hc)]

/-- Without its breadcrumbs a payload under strict privacy is the same. -/
theorem payload_dropCrumbs {config : Configuration} (hstrict : config.strictPrivacy = true)
    (name : Bytes) (s : Sections) (crumbs : List Bytes) (now : Nat)
    (user : List (Bytes × Option Bytes)) :
    payload config name s now user = payload config name { s with crumbs := crumbs } now user := by
  have hnone : ∀ crumbs, breadcrumbsField config crumbs = [] := fun crumbs =>
    if_neg fun h => h.2 hstrict
  rw [payload, payload, hnone, hnone]

/-- Where the next line is a breadcrumb's, the lines before it are the backtrace and entries. -/
theorem facts_breadcrumb {whole rest : List Fact} {e : Bytes}
    (h : crash.facts = whole ++ .breadcrumb e :: rest) : ∃ es es', crash.entries = es ++ e :: es' ∧
      whole.map Fact.line = crash.backtrace ++ es.map Breadcrumbs.rawLine := by
  rcases append_eq_append_cons h with ⟨as, hframes⟩ | ⟨ks, rfl, hrest⟩
  · have hmem : Fact.breadcrumb e ∈ crash.backtrace.map Fact.frame :=
      hframes ▸ List.mem_append_right _ List.mem_cons_self
    obtain ⟨l, -, hl⟩ := List.mem_map.mp hmem
    exact nomatch hl
  · rcases append_eq_append_cons hrest with ⟨bs, hcrumbs⟩ | ⟨ts, rfl, htrace⟩
    · obtain ⟨es, es'', hes, rfl, hmap⟩ := List.map_eq_append_iff.mp hcrumbs
      obtain ⟨e', es', rfl, he, -⟩ := List.map_eq_cons_iff.mp hmap
      obtain rfl := Fact.breadcrumb.inj he
      refine ⟨es, es', hes, ?_⟩
      rw [List.map_append, List.map_map, List.map_map]
      congr 1
      exact List.map_id _
    · have hmem : Fact.breadcrumb e ∈ (crash.traceId.map Fact.trace).toList :=
        htrace ▸ List.mem_append_right _ List.mem_cons_self
      obtain ⟨id, -, hid⟩ := Option.map_eq_some_iff.mp (Option.mem_toList.mp hmem)
      exact nomatch hid

theorem endsBehindInnerBrace {n : Nat} (hname : crash.signalName.length < n)
    {whole rest : List Fact} {e cut : Bytes} (hfacts : crash.facts = whole ++ .breadcrumb e :: rest)
    (htake : (unlines (crash.facts.map Fact.line)).take (n - (crash.signalName.length + 1)) =
      unlines (whole.map Fact.line) ++ Breadcrumbs.rawLine cut)
    (hcut : cut <+: e) (hne : cut ≠ e) (hlast : cut.getLast? = some 125) :
    crash.EndsBehindInnerBrace ((writeReport crash).take n) := by
  obtain ⟨es, es', hes, hwhole⟩ := crash.facts_breadcrumb hfacts
  refine ⟨es, e, es', cut, hes, hcut, hne, hlast, ?_⟩
  rw [crash.take_writeReport hname, htake, hwhole, unlines_cons, List.append_assoc,
    List.cons_append]

/-- A head says nothing but what `remains` takes it for, unless it looks like a whole entry and is
sent. -/
theorem payload_head {n : Nat} {config : Configuration}
    (h : config.strictPrivacy = true ∨ ¬ crash.EndsBehindInnerBrace ((writeReport crash).take n))
    (name : Bytes) (s : Sections) (now : Nat) (user : List (Bytes × Option Bytes)) :
    let head := (Fact.upTo crash.facts (n - (crash.signalName.length + 1))).2
    payload config name (takeLine s head) now user =
      payload config name (passHead s head) now user := by
  have htraceMark : ascii "#trace_id" <+: ascii "#trace_id " := ⟨ascii " ", rfl⟩
  have hcrumbMark : ascii "#breadcrumb" <+: ascii "#breadcrumb " := ⟨ascii " ", rfl⟩
  intro head
  rcases Fact.upTo_head crash.facts (n - (crash.signalName.length + 1)) with
    hnone | ⟨fact, rest, hfacts, hhead, hshort, htake⟩
  · rw [show head = [] from hnone]
    rfl
  have hsound := crash.facts_sound fact (hfacts ▸ List.mem_append_right _ List.mem_cons_self)
  by_cases hnone : head = []
  · rw [hnone]
    rfl
  have hname : crash.signalName.length < n := by
    by_contra hle
    rw [show n - (crash.signalName.length + 1) = 0 by omega, List.take_zero] at htake
    have hnil := (List.append_eq_nil_iff.mp htake.symm).2
    exact hnone (by rwa [← show n - (crash.signalName.length + 1) = 0 by omega] at hnil)
  have hsame : takeLine s head = passHead s head →
      payload config name (takeLine s head) now user =
      payload config name (passHead s head) now user :=
    congrArg (payload config name · now user)
  cases hsound with
  | frame _ hunmarked =>
    exact hsame (takeLine_passHead s (fun hmark => absurd
      ((htraceMark.trans hmark).trans hhead) hunmarked.2)
      fun hmark => absurd ((hcrumbMark.trans hmark).trans hhead) hunmarked.1)
  | @trace id hid =>
    have hlength : (traceLine id).length = 10 + traceIdLength := by
      rw [traceLine, List.length_append, hid.1]
      rfl
    refine hsame (takeLine_passHead s (fun _ => hlength ▸ Nat.ne_of_lt hshort) fun hmark => ?_)
    exact absurd (hmark.trans hhead) (not_both_marks (List.prefix_append _ _))
  | @breadcrumb e hentry =>
    have hnoTrace : ascii "#trace_id " <+: head → head.length ≠ 10 + traceIdLength := fun hmark =>
      absurd (List.prefix_append _ _) (not_both_marks (hmark.trans hhead))
    by_cases hcomplete : ascii "#breadcrumb " <+: head ∧ looksComplete (head.drop 12) = true
    · -- an entry cut behind an inner brace is passed on, but not under strict privacy
      obtain ⟨⟨cut, hcut⟩, hlooks⟩ := hcomplete
      have hcutEntry : cut <+: e :=
        (List.prefix_append_right_inj (ascii "#breadcrumb ")).mp (hcut ▸ hhead)
      have hne : cut ≠ e := by
        rintro rfl
        exact absurd (congrArg List.length hcut) (Nat.ne_of_gt hshort)
      have hlast : cut.getLast? = some 125 := by
        rw [← hcut] at hlooks
        have hdrop : (ascii "#breadcrumb " ++ cut).drop 12 = cut := rfl
        simp only [hdrop, looksComplete, Bool.and_eq_true, decide_eq_true_eq] at hlooks
        exact hlooks.2
      have hends := crash.endsBehindInnerBrace hname hfacts
        (htake.trans (congrArg _ hcut.symm)) hcutEntry hne hlast
      have hstrict := h.resolve_right (not_not.mpr hends)
      rw [takeLine, if_neg fun hnil => absurd (hnil ▸ hcut) (by simp [ascii]),
        if_neg fun htrace => not_both_marks htrace ⟨cut, hcut⟩, if_pos ⟨cut, hcut⟩,
        if_pos hlooks, passHead, if_pos (Or.inr (Or.inl ⟨cut, hcut⟩)),
        payload_dropCrumbs hstrict name s]
    · refine hsame (takeLine_passHead s hnoTrace fun hmark => ?_)
      exact Bool.eq_false_iff.mpr fun hlooks => hcomplete ⟨hmark, hlooks⟩

/-- What is made of the first `n` bytes is made of what they still say. -/
theorem completeJson_remains {n : Nat} {config : Configuration}
    (h : config.strictPrivacy = true ∨ ¬ crash.EndsBehindInnerBrace ((writeReport crash).take n))
    (now : Nat) (user : List (Bytes × Option Bytes)) :
    completeJson config ((writeReport crash).take n) now user =
      payload config (crash.nameUpTo n) (crash.remains n) now user := by
  rw [crash.completeJson_take, crash.payload_head h]
  rfl

theorem remains_sound (n : Nat) : (crash.remains n).Sound := by
  have hfacts : ∀ fact ∈
      (Fact.upTo crash.facts (n - (crash.signalName.length + 1))).1, fact.Sound :=
    fun fact hfact => crash.facts_sound fact ((Fact.upTo_prefix _ _).subset hfact)
  exact (Sections.Sound.foldl hfacts Sections.Sound.empty).passHead _

/-- The lines of the backtrace that are passed on. -/
def frames : List Bytes := crash.backtrace.filter (· ≠ [])

/-- Of a report that is whole everything remains. -/
theorem remains_whole {n : Nat} (h : (writeReport crash).length ≤ n) :
    crash.remains n = ⟨crash.frames, crash.entries, crash.traceId⟩ := by
  have hlength : (unlines (crash.facts.map Fact.line)).length ≤
      n - (crash.signalName.length + 1) := by
    rw [writeReport_facts, List.length_append, List.length_cons] at h
    omega
  have hframes : ∀ (ls : List Bytes) (s : Sections), (ls.map Fact.frame).foldl Fact.into s =
      { s with frames := s.frames ++ ls.filter (· ≠ []) } := by
    intro ls
    induction ls with
    | nil => intro s; simp
    | cons l ls ih =>
      intro s
      rw [List.map_cons, List.foldl_cons, ih, Fact.into]
      by_cases hl : l = []
      · simp [hl]
      · simp [hl]
  have hentries : ∀ (es : List Bytes) (s : Sections), (es.map Fact.breadcrumb).foldl Fact.into s =
      { s with crumbs := s.crumbs ++ es } := by
    intro es
    induction es with
    | nil => intro s; simp
    | cons e es ih =>
      intro s
      rw [List.map_cons, List.foldl_cons, ih, Fact.into]
      simp
  rw [remains, Fact.upTo_all hlength, facts, List.foldl_append, List.foldl_append,
    hframes, hentries]
  cases hid : crash.traceId with
  | none => rfl
  | some id => rfl

/-- What a payload made of the first `n` bytes of a report says: what they still say of the crash,
and what is filled in at the upload. -/
def Told (config : Configuration) (user : List (Bytes × Option Bytes)) (now n : Nat)
    (text : Bytes) : Prop :=
  ∃ occurredAt breadcrumbs, (crash.remains n).crumbs.map Json.parse = breadcrumbs.map some ∧
    Calendar.readTimestamp occurredAt = some ((now : Int) * 1000) ∧
    Json.parse text = some (.object (crashFields config (crash.nameUpTo n) (crash.remains n).frames
      (crash.remains n).traceId occurredAt user breadcrumbs))

theorem completeJson_told {n : Nat} {config : Configuration}
    (h : config.strictPrivacy = true ∨ ¬ crash.EndsBehindInnerBrace ((writeReport crash).take n))
    (now : Nat) (user : List (Bytes × Option Bytes)) :
    crash.Told config user now n (completeJson config ((writeReport crash).take n) now user) := by
  obtain ⟨breadcrumbs, hreads, hparses⟩ := Json.exists_reads_all fun e he =>
    entry_wellFormed ((crash.remains_sound n).crumbs e he)
  refine ⟨_, breadcrumbs, hparses, Calendar.readTimestamp_timestamp now, ?_⟩
  rw [crash.completeJson_remains h]
  exact payload_parse (crash.nameUpTo_ascii n) (crash.remains_sound n).traceId now user hreads

end Crash

end ForgeOps.SignalReport

namespace ForgeOps.Reporter
open Client CrashStore SignalReport

/-- Among entries whose keys differ one key picks one entry. -/
theorem filter_key {entries : List (Bytes × Bytes)} (h : (entries.map Prod.fst).Nodup)
    {entry : Bytes × Bytes} (hentry : entry ∈ entries) :
    entries.filter (fun other => other.1 = entry.1) = [entry] := by
  induction entries with
  | nil => exact absurd hentry List.not_mem_nil
  | cons first rest ih =>
    obtain ⟨hfirst, hrest⟩ := List.nodup_cons.mp h
    rcases List.mem_cons.mp hentry with rfl | hin
    · rw [List.filter_cons_of_pos (by simp), List.filter_eq_nil_iff.mpr]
      intro other hother
      have hne : other.1 ≠ entry.1 := fun heq => hfirst (heq ▸ List.mem_map_of_mem hother)
      simpa using hne
    · have hne : first.1 ≠ entry.1 := fun heq => hfirst (heq ▸ List.mem_map_of_mem hin)
      rw [List.filter_cons_of_neg (by simpa using hne), ih hrest hin]

/-- The next launch sends what is left of a crash, once, and keeps the file only when that failed
for now. -/
theorem upload_told {config : Configuration} (henabled : config.isEnabled = true)
    (user : List (Bytes × Option Bytes)) (disk : Disk) {reports : List Listed}
    (hdistinct : (reports.map Listed.path).Nodup) {report : Listed} (hreport : report ∈ reports)
    (htxt : hasSuffix report.path (ascii ".txt") = true) (crash : Crash) (n : Nat)
    (hcontent : contentOf disk report = some ((writeReport crash).take n))
    (hwhole : config.strictPrivacy = true ∨
      ¬ crash.EndsBehindInnerBrace ((writeReport crash).take n)) :
    let result := uploadPendingReportsUntilFailure config user false (some reports) disk
    ∃ text, crash.Told config user report.now n text ∧
      result.attempts.filter (fun attempt => attempt.1 = report.path) = [(report.path, text)] ∧
      result.disk.lookup report.path =
        if deliveryOutcomeForStatus report.status = .failed then disk.lookup report.path
        else none := by
  intro result
  have hattempts : result.attempts = reports.filterMap (Listed.attempt config user disk) :=
    attempts_upload henabled user disk hdistinct
  have honce : (result.attempts.map Prod.fst).Nodup := by
    rw [hattempts]
    exact (attempts_sublist disk reports).nodup hdistinct
  have hpayload : payloadOf config user disk report =
      some (completeJson config ((writeReport crash).take n) report.now user) := by
    rw [payloadOf, if_pos htxt, signalHandlerCompleteJson, hcontent, Option.map_some]
  refine ⟨_, crash.completeJson_told hwhole report.now user, ?_, ?_⟩
  · have hattempt : report.attempt config user disk =
        some (report.path, completeJson config ((writeReport crash).take n) report.now user) := by
      rw [Listed.attempt, hpayload, Option.map_some]
    exact filter_key honce (hattempts ▸ List.mem_filterMap.mpr ⟨report, hreport, hattempt⟩)
  · have hverdict : report.verdict config user disk =
        .answered (deliveryOutcomeForStatus report.status) := by
      rw [Listed.verdict, hpayload]
      rfl
    rw [show result.disk.lookup report.path =
      _ from lookup_upload henabled user disk hdistinct hreport, hverdict]
    simp only [Verdict.answered.injEq]

/-- Of a crash the file is left up to its forty-fifth byte, inside the mark of its breadcrumb. -/
def cutReport : Listed := ⟨ascii "/tmp/r/signal-6-0.txt", true, 86400, 503⟩

def cutFiles : Disk where
  files := [⟨(writeReport tracedCrash).take 45, 0, 0⟩]
  entries := [(cutReport.path, 0)]

def careful : Configuration := { dsn := some (ascii "https://k@h"), strictPrivacy := true }

theorem upload_told_cut :
    let result := uploadPendingReportsUntilFailure careful [] false (some [cutReport]) cutFiles
    ∃ text, tracedCrash.Told careful [] 86400 45 text ∧
      result.attempts.filter (fun attempt => attempt.1 = cutReport.path) =
      [(cutReport.path, text)] ∧ result.disk.lookup cutReport.path = some 0 := by
  have hdistinct : ([cutReport].map Listed.path).Nodup := List.nodup_singleton _
  have hcontent : contentOf cutFiles cutReport = some ((writeReport tracedCrash).take 45) := by
    simp [contentOf, cutFiles, cutReport, Disk.lookup]
  have hlookup : cutFiles.lookup cutReport.path = some 0 := by simp [cutFiles, Disk.lookup]
  have htold := upload_told (by decide) [] cutFiles hdistinct List.mem_cons_self
    (by decide) tracedCrash 45 hcontent
    (.inl rfl : careful.strictPrivacy = true ∨ _)
  rw [hlookup, if_pos (by decide)] at htold
  exact htold

end ForgeOps.Reporter
