import ForgeOpsTracker.Spans

/-! A recorded change (`changes.c`): the body that is built for it, and what a reader finds in it.
Allocations succeed. -/

namespace ForgeOps.Changes
open JsonText

/-- `FORGEOPS_CHANGES_MAX_TITLE_CHARS` -/
def maxTitleChars : Nat := 200

/-- `KINDS` -/
def kinds : List Bytes :=
  ["feature_flag", "config", "migration", "dependency", "infrastructure", "other"].map ascii

/-- `normalize_kind` -/
def normalizeKind : Option Bytes → Bytes
  | none => ascii "other"
  | some kind => if kinds.contains kind then kind else ascii "other"

/-- `append_timestamp`, the same as that of the spans. -/
def timestamp (unixMs : Int) : Bytes := Spans.timestamp unixMs

/-- `append_json_string`, which takes NULL for an empty text. -/
def jsonText (value : Option Bytes) : Bytes := jsonString (value.getD [])

/-- `append_optional_field` -/
def optionalField (key : Bytes) : Option Bytes → Bytes
  | none => []
  | some value => ascii ",\"" ++ key ++ ascii "\":" ++ jsonString value

/-- The loop of `utf8_prefix_length`, when `chars` characters have begun. -/
def prefixLengthFrom (maxChars chars : Nat) : Bytes → Nat
  | [] => 0
  | c :: text =>
    if Byte.isContinuation c then prefixLengthFrom maxChars chars text + 1
    else if chars = maxChars then 0
    else prefixLengthFrom maxChars (chars + 1) text + 1

/-- `utf8_prefix_length` -/
def utf8PrefixLength (text : Bytes) (maxChars : Nat) : Nat := prefixLengthFrom maxChars 0 text

/-- `forgeops_change_options_t`; an `occurredAtUnixMs` of 0 means now. -/
structure Options where
  environment : Option Bytes := none
  service : Option Bytes := none
  actor : Option Bytes := none
  url : Option Bytes := none
  id : Option Bytes := none
  occurredAtUnixMs : Int := 0

/-- The pairs of the details as they are passed; missing arrays are an empty list. -/
abbrev Details := List (Option Bytes × Option Bytes)

def detailsField (details : Details) : Bytes :=
  if details = [] then []
  else
    ascii ",\"details\":\x7b" ++
      commaSeparated (details.map fun pair => jsonText pair.1 ++ ascii ":" ++
        jsonText pair.2) ++ ascii "\x7d"

/-- The title as it is sent. -/
def sentTitle (title : Bytes) : Bytes :=
  let start := TraceParent.trimmed title
  start.take (utf8PrefixLength start maxTitleChars)

def sentEnvironment (config : Configuration) (options : Options) : Bytes :=
  (options.environment.or config.environment).getD []

def occurredAt (options : Options) (now : Int) : Int :=
  if options.occurredAtUnixMs ≠ 0 then options.occurredAtUnixMs else now

/-- `forgeops_changes_build`; `now` is what `now_unix_ms` answers. -/
def build (config : Option Configuration) (kind title : Option Bytes) (details : Details)
    (options : Option Options) (now : Int) : Option Bytes :=
  match config, title with
  | some config, some title =>
    if TraceParent.trimmed title = [] then none
    else
      let options := options.getD {}
      some (ascii "\x7b\"kind\":" ++ jsonString (normalizeKind kind) ++
        ascii ",\"title\":" ++ jsonString (sentTitle title) ++
        ascii ",\"environment\":" ++ jsonString (sentEnvironment config options) ++
        ascii ",\"occurred_at\":" ++ jsonString (timestamp (occurredAt options now)) ++
        detailsField details ++
        optionalField (ascii "service") options.service ++
        optionalField (ascii "actor") options.actor ++
        optionalField (ascii "url") options.url ++
        optionalField (ascii "id") options.id ++ ascii "\x7d")
  | _, _ => none

theorem normalizeKind_mem (kind : Option Bytes) : normalizeKind kind ∈ kinds := by
  cases kind with
  | none => decide
  | some kind =>
    rw [normalizeKind]
    split
    · rename_i h
      exact List.contains_iff_mem.mp h
    · decide

/-! ## The title -/

theorem prefixLengthFrom_continued (maxChars chars : Nat) {s : Bytes}
    (h : ∀ c ∈ s, Byte.isContinuation c = true) (t : Bytes) :
    prefixLengthFrom maxChars chars (s ++ t) = prefixLengthFrom maxChars chars t + s.length := by
  induction s with
  | nil => rfl
  | cons c s ih =>
    obtain ⟨hc, hs⟩ := List.forall_mem_cons.mp h
    rw [List.cons_append, prefixLengthFrom, if_pos hc, ih hs, List.length_cons, Nat.add_assoc]

theorem exists_lead (c : Char) : ∃ b tail, String.utf8EncodeChar c = b :: tail ∧
    Byte.isContinuation b = false ∧ ∀ d ∈ tail, Byte.isContinuation d = true := by
  rcases encodeChar_cases c with ⟨b, hb, hascii⟩ | ⟨b, tail, hb, -, hlead, htail⟩
  · exact ⟨b, [], hb, isContinuation_of_isAscii hascii, fun d hd => absurd hd List.not_mem_nil⟩
  · exact ⟨b, tail, hb, hlead, htail⟩

/-- The prefix ends where the first character begins that it has no room for. -/
theorem prefixLengthFrom_encode {maxChars chars : Nat} (h : chars ≤ maxChars) (cs : List Char) :
    prefixLengthFrom maxChars chars (encode cs) = (encode (cs.take (maxChars - chars))).length := by
  induction cs generalizing chars with
  | nil => rw [List.take_nil]; rfl
  | cons c cs ih =>
    obtain ⟨b, tail, hc, hlead, htail⟩ := exists_lead c
    rw [encode_cons, hc, List.cons_append, prefixLengthFrom, if_neg (by simp [hlead])]
    by_cases hfull : chars = maxChars
    · rw [if_pos hfull, hfull, Nat.sub_self]
      rfl
    · have hroom : maxChars - chars = maxChars - (chars + 1) + 1 := by omega
      rw [if_neg hfull, prefixLengthFrom_continued _ _ htail, ih (by omega), hroom,
        List.take_succ_cons, encode_cons, hc, List.length_append, List.length_cons]
      omega

/-- The title is its first characters, whatever they take in bytes. -/
theorem sentTitle_encode {title : Bytes} {cs : List Char}
    (h : TraceParent.trimmed title = encode cs) :
    sentTitle title = encode (cs.take maxTitleChars) := by
  have hlength := prefixLengthFrom_encode (Nat.zero_le maxTitleChars) cs
  have hsplit : encode cs = encode (cs.take maxTitleChars) ++ encode (cs.drop maxTitleChars) := by
    simp only [encode, ← List.flatMap_append, List.take_append_drop]
  rw [sentTitle, h, utf8PrefixLength, hlength, Nat.sub_zero]
  conv_lhs => rw [hsplit]
  rw [List.take_left]

theorem trimmed_utf8 {title : Bytes} (h : Utf8 title) : Utf8 (TraceParent.trimmed title) := by
  have hdropped : Utf8 (title.dropWhile Byte.isSpace) := h.dropWhile fun _ => isAscii_of_isSpace
  have hsplit := List.takeWhile_append_dropWhile (p := Byte.isSpace)
    (l := (title.dropWhile Byte.isSpace).reverse)
  rw [← List.reverse_inj, List.reverse_append, List.reverse_reverse] at hsplit
  rw [← hsplit] at hdropped
  refine (hdropped.split (boundary_of_all_isAscii
    (List.all_eq_true.mpr fun c hc => isAscii_of_isSpace ?_))).1
  exact List.all_eq_true.mp List.all_takeWhile c (List.mem_reverse.mp hc)

/-! ## The body as a JSON object -/

def optionalMember (key : Bytes) (value : Option Bytes) : List Json.Member :=
  (value.map fun value => ⟨key, jsonString value⟩).toList

def detailMember (pair : Option Bytes × Option Bytes) : Json.Member :=
  ⟨(pair.1.getD []).flatMap escapeByte, jsonText pair.2⟩

def detailsMembers (details : Details) : List Json.Member :=
  if details = [] then [] else [⟨ascii "details", Json.object (details.map detailMember)⟩]

/-- The members behind the first. -/
def furtherMembers (config : Configuration) (title : Bytes) (details : Details)
    (options : Options) (now : Int) : List Json.Member :=
  [⟨ascii "title", jsonString (sentTitle title)⟩,
    ⟨ascii "environment", jsonString (sentEnvironment config options)⟩,
    ⟨ascii "occurred_at", jsonString (timestamp (occurredAt options now))⟩] ++
    detailsMembers details ++ optionalMember (ascii "service") options.service ++
    optionalMember (ascii "actor") options.actor ++ optionalMember (ascii "url") options.url ++
    optionalMember (ascii "id") options.id

def kindMember (kind : Option Bytes) : Json.Member :=
  ⟨ascii "kind", jsonString (normalizeKind kind)⟩

theorem optionalField_eq (key : Bytes) (value : Option Bytes) :
    optionalField key value = Json.further (optionalMember key value) := by
  cases value with
  | none => rfl
  | some value => exact Json.further_label key _ _ (by simp [Json.quoted, ascii])

theorem detailsField_eq (details : Details) :
    detailsField details = Json.further (detailsMembers details) := by
  unfold detailsField detailsMembers
  split
  · rfl
  · have hpairs : details.map (fun pair => jsonText pair.1 ++ ascii ":" ++ jsonText pair.2) =
        (details.map detailMember).map Json.Member.text := by
      rw [List.map_map]
      exact List.map_congr_left fun pair _ => pair_text _ _
    rw [hpairs, commaSeparated_eq_joined]
    have hlabel := Json.further_label (ascii "details") (ascii ",\"details\":")
      (Json.object (details.map detailMember)) rfl
    rw [← hlabel]
    simp [Json.object, ascii]

theorem build_eq (config : Configuration) (kind : Option Bytes) {title : Bytes}
    (h : TraceParent.trimmed title ≠ []) (details : Details)
    (options : Option Options) (now : Int) :
    build (some config) kind (some title) details options now =
      some (Json.object (kindMember kind ::
      furtherMembers config title details (options.getD {}) now)) := by
  have hkind : ascii "\x7b\"kind\":" ++ jsonString (normalizeKind kind) =
      123 :: (kindMember kind).text := rfl
  have htitle := Json.further_label (ascii "title") (ascii ",\"title\":")
    (jsonString (sentTitle title)) rfl
  have henvironment := Json.further_label (ascii "environment") (ascii ",\"environment\":")
    (jsonString (sentEnvironment config (options.getD {}))) rfl
  have hoccurred := Json.further_label (ascii "occurred_at") (ascii ",\"occurred_at\":")
    (jsonString (timestamp (occurredAt (options.getD {}) now))) rfl
  have hthree : ∀ a b c : Json.Member, [a, b, c] = [a] ++ [b] ++ [c] := fun _ _ _ => rfl
  have hbrace : ascii "\x7d" = [125] := rfl
  simp only [build, if_neg h]
  rw [Json.object_cons, furtherMembers, hthree]
  simp only [Json.further_append]
  simp only [← htitle, ← henvironment, ← hoccurred, ← detailsField_eq,
    ← optionalField_eq, hkind, hbrace, List.append_assoc, List.cons_append]

/-! ## What a reader finds -/

def optionalValue (key : Bytes) (value : Option Bytes) : List (Bytes × Json.Value) :=
  (value.map fun value => (key, Json.Value.string value)).toList

def detailValue (pair : Option Bytes × Option Bytes) : Bytes × Json.Value :=
  (pair.1.getD [], .string (pair.2.getD []))

/-- A change as it was recorded. -/
def recordedFields (config : Configuration) (kind : Option Bytes) (title : Bytes)
    (details : Details) (options : Options) (now : Int) : List (Bytes × Json.Value) :=
  [(ascii "kind", .string (normalizeKind kind)), (ascii "title", .string (sentTitle title)),
    (ascii "environment", .string (sentEnvironment config options)),
    (ascii "occurred_at", .string (timestamp (occurredAt options now)))] ++
    (if details = [] then [] else [(ascii "details", .object (details.map detailValue))]) ++
    optionalValue (ascii "service") options.service ++
    optionalValue (ascii "actor") options.actor ++ optionalValue (ascii "url") options.url ++
    optionalValue (ascii "id") options.id

def ReadAs (members : List Json.Member) (fields : List (Bytes × Json.Value)) : Prop :=
  List.Forall₂ (fun n m => Json.ReadsMember n.name n.value m) members fields

theorem optionalMember_reads {key : Bytes} (h : key.all Json.isPlain = true)
    (value : Option Bytes) : ReadAs (optionalMember key value) (optionalValue key value) := by
  cases value with
  | none => exact .nil
  | some value => exact .cons (readsMember_string h value) .nil

theorem detailsMembers_read (details : Details) : ReadAs (detailsMembers details)
    (if details = [] then [] else [(ascii "details", .object (details.map detailValue))]) := by
  unfold detailsMembers
  split
  · exact .nil
  · refine .cons (readsMember_plain rfl (Json.reads_object ?_)) .nil
    clear * -
    induction details with
    | nil => exact .nil
    | cons pair details ih => exact .cons (readsMember_escaped _ (reads_jsonString _)) ih

theorem members_read (config : Configuration) (kind : Option Bytes) (title : Bytes)
    (details : Details) (options : Options) (now : Int) :
    ReadAs (kindMember kind :: furtherMembers config title details options now)
      (recordedFields config kind title details options now) := by
  have hfour : ReadAs [kindMember kind, ⟨ascii "title", jsonString (sentTitle title)⟩,
      ⟨ascii "environment", jsonString (sentEnvironment config options)⟩,
      ⟨ascii "occurred_at", jsonString (timestamp (occurredAt options now))⟩]
      [(ascii "kind", .string (normalizeKind kind)), (ascii "title", .string (sentTitle title)),
        (ascii "environment", .string (sentEnvironment config options)),
        (ascii "occurred_at", .string (timestamp (occurredAt options now)))] :=
    .cons (readsMember_string rfl _) (.cons (readsMember_string rfl _)
      (.cons (readsMember_string rfl _) (.cons (readsMember_string rfl _) .nil)))
  exact List.rel_append (List.rel_append (List.rel_append (List.rel_append (List.rel_append hfour
      (detailsMembers_read details)) (optionalMember_reads rfl options.service))
      (optionalMember_reads rfl options.actor)) (optionalMember_reads rfl options.url))
      (optionalMember_reads rfl options.id)

/-! ## Valid texts -/

/-- The texts a change is recorded with are valid UTF-8. -/
structure Utf8Change (config : Configuration) (title : Bytes) (details : Details)
    (options : Options) : Prop where
  title : Utf8 title
  configured : ∀ text ∈ config.environment, Utf8 text
  details : ∀ pair ∈ details, (∀ text ∈ pair.1, Utf8 text) ∧ ∀ text ∈ pair.2, Utf8 text
  environment : ∀ text ∈ options.environment, Utf8 text
  service : ∀ text ∈ options.service, Utf8 text
  actor : ∀ text ∈ options.actor, Utf8 text
  url : ∀ text ∈ options.url, Utf8 text
  id : ∀ text ∈ options.id, Utf8 text

theorem utf8_getD {value : Option Bytes} (h : ∀ text ∈ value, Utf8 text) :
    Utf8 (value.getD []) := by
  cases value with
  | none => exact utf8_nil
  | some text => exact h text rfl

theorem utf8_timestamp (unixMs : Int) : Utf8 (timestamp unixMs) := by
  have hdigits : ∀ {ds : Bytes}, ds.all Byte.isDigit = true → Utf8 ds := fun h =>
    utf8_of_isAscii (List.all_eq_true.mpr fun c hc => isAscii_of_isDigit
      (List.all_eq_true.mp h c hc))
  have hdecimal : ∀ n, Utf8 (decimal n) := fun n =>
    hdigits (List.all_eq_true.mpr (decimal_isDigit n))
  have hpadded : ∀ width n, Utf8 (decimalPadded width n) := fun width n =>
    hdigits (Printf.decimalPadded_isDigit width n)
  have hmark : ∀ {mark : Bytes}, mark.all Byte.isAscii = true → Utf8 mark := utf8_of_isAscii
  unfold timestamp Spans.timestamp Calendar.signedDateTime
  refine (((Utf8.append ?_ (hmark rfl)).append (hpadded _ _)).append (hmark rfl))
  refine ((((((((((Utf8.append ?_ (hdecimal _)).append (hmark rfl)).append (hpadded _ _)).append
    (hmark rfl)).append (hpadded _ _)).append (hmark rfl)).append (hpadded _ _)).append
    (hmark rfl)).append (hpadded _ _)).append (hmark rfl)).append (hpadded _ _)
  split
  · exact hmark rfl
  · exact utf8_nil

def Utf8Member (m : Json.Member) : Prop := Utf8 m.name ∧ Utf8 m.value

theorem optionalMember_utf8 {key : Bytes} (hkey : key.all Byte.isAscii = true)
    {value : Option Bytes} (h : ∀ text ∈ value, Utf8 text) :
    ∀ m ∈ optionalMember key value, Utf8Member m := by
  cases value with
  | none => exact fun m hm => absurd hm List.not_mem_nil
  | some text =>
    exact List.forall_mem_singleton.mpr ⟨utf8_of_isAscii hkey, utf8_jsonString (h text rfl)⟩

theorem detailsMembers_utf8 {details : Details}
    (h : ∀ pair ∈ details, (∀ text ∈ pair.1, Utf8 text) ∧ ∀ text ∈ pair.2, Utf8 text) :
    ∀ m ∈ detailsMembers details, Utf8Member m := by
  unfold detailsMembers
  split
  · exact fun m hm => absurd hm List.not_mem_nil
  · refine List.forall_mem_singleton.mpr ⟨utf8_of_isAscii rfl, utf8_object fun m hm => ?_⟩
    obtain ⟨pair, hpair, rfl⟩ := List.mem_map.mp hm
    exact ⟨utf8_escaped (utf8_getD (h pair hpair).1), utf8_jsonString (utf8_getD (h pair hpair).2)⟩

theorem sentTitle_utf8 {title : Bytes} (h : Utf8 title) : Utf8 (sentTitle title) := by
  obtain ⟨cs, hcs⟩ := trimmed_utf8 h
  exact ⟨_, sentTitle_encode hcs⟩

theorem members_utf8 {config : Configuration} {title : Bytes} {details : Details}
    {options : Options} (h : Utf8Change config title details options)
    (kind : Option Bytes) (now : Int) :
    ∀ m ∈ kindMember kind :: furtherMembers config title details options now, Utf8Member m := by
  have hstring : ∀ {name text : Bytes}, name.all Byte.isAscii = true → Utf8 text →
      Utf8Member ⟨name, jsonString text⟩ :=
    fun hname htext => ⟨utf8_of_isAscii hname, utf8_jsonString htext⟩
  have hkind : Utf8 (normalizeKind kind) := by
    have hkinds : ∀ known ∈ kinds, known.all Byte.isAscii = true := by decide
    exact utf8_of_isAscii (hkinds _ (normalizeKind_mem kind))
  have henvironment : Utf8 (sentEnvironment config options) := by
    refine utf8_getD fun text htext => ?_
    cases hgiven : options.environment with
    | none => exact h.configured text (by rwa [hgiven] at htext)
    | some given => exact h.environment text (by rwa [hgiven] at htext ⊢)
  simp only [furtherMembers, List.forall_mem_cons, List.forall_mem_append]
  exact ⟨hstring rfl hkind, ⟨⟨⟨⟨⟨hstring rfl (sentTitle_utf8 h.title), hstring rfl henvironment,
    hstring rfl (utf8_timestamp _), List.forall_mem_nil _⟩, detailsMembers_utf8 h.details⟩,
    optionalMember_utf8 rfl h.service⟩, optionalMember_utf8 rfl h.actor⟩,
    optionalMember_utf8 rfl h.url⟩, optionalMember_utf8 rfl h.id⟩

/-- The body of a change that was recorded under a title that is not blank. -/
structure BodyOf (config : Configuration) (kind : Option Bytes) (title : Bytes) (details : Details)
    (options : Options) (now : Int) (body : Bytes) : Prop where
  known : normalizeKind kind ∈ kinds ∧ ∀ known ∈ kind, known ∈ kinds → normalizeKind kind = known
  cut : ∀ cs, TraceParent.trimmed title = encode cs →
    sentTitle title = encode (cs.take maxTitleChars)
  utf8 : Utf8Change config title details options → Utf8 body
  fields : Json.parse body = some (.object (recordedFields config kind title details options now))
  instant : Calendar.readTimestamp (timestamp (occurredAt options now)) =
    some (Spans.sentInstant (occurredAt options now))

/-- A change with a title is a JSON object that says what was recorded, the title cut to its first
characters; one without a title is none. -/
theorem build_body (config : Configuration) (kind : Option Bytes) (title : Bytes)
    (details : Details) (options : Option Options) (now : Int) :
    if TraceParent.trimmed title = [] then
      build (some config) kind (some title) details options now = none
    else ∃ body, build (some config) kind (some title) details options now = some body ∧
      BodyOf config kind title details (options.getD {}) now body := by
  split
  · rename_i hblank
    exact if_pos hblank
  · rename_i htitle
    refine ⟨_, build_eq config kind htitle details options now,
      ⟨normalizeKind_mem kind, ?_⟩, ?_, ?_, ?_, Spans.timestamp_instant _⟩
    · rintro known rfl hknown
      exact if_pos (List.contains_iff_mem.mpr hknown)
    · exact fun cs hcs => sentTitle_encode hcs
    · exact fun h => utf8_object (members_utf8 h kind now)
    · exact (Json.reads_object (members_read config kind title details _ now)).parse

end ForgeOps.Changes
