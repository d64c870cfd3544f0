import ForgeOpsTracker.BreadcrumbTrail
import ForgeOpsTracker.ScrubCharacters

/-! What `forgeops_breadcrumb_add` stores, read back: the message and the data pairs of the call,
scrubbed where the configuration says so, cut at characters and, at the end, left out. -/

namespace ForgeOps.Breadcrumbs

/-! ## An entry read back -/

def pairValue (pair : Bytes × Bytes) : Bytes × Json.Value :=
  (cutAtCharacter maxTagBytes pair.1, .string (cutAtCharacter maxMessageBytes pair.2))

def entryValue (message category level timestamp : Bytes)
    (members : List (Bytes × Json.Value)) : Json.Value :=
  .object [(ascii "category", .string category), (ascii "message", .string message),
    (ascii "level", .string level), (ascii "timestamp", .string timestamp),
    (ascii "data", .object members)]

theorem reads_jsonAppendEscaped (value : Bytes) (maxBytes : Nat) :
    Json.Reads (jsonAppendEscaped value maxBytes) (.string (cutAtCharacter maxBytes value)) :=
  JsonText.reads_jsonString _

theorem reads_data (pairs : List (Bytes × Bytes)) :
    Json.Reads (Json.object (pairs.map dataMember)) (.object (pairs.map pairValue)) := by
  apply Json.reads_object
  induction pairs with
  | nil => exact .nil
  | cons pair pairs ih =>
    exact .cons (JsonText.readsMember_escaped _ (reads_jsonAppendEscaped pair.2 maxMessageBytes)) ih

theorem reads_encodeEntry (message : Bytes) (messageBytes : Nat) (category level timestamp : Bytes)
    (pairs : List (Bytes × Bytes)) :
    Json.Reads (encodeEntry message messageBytes category level timestamp pairs)
      (entryValue (cutAtCharacter messageBytes message) (cutAtCharacter maxTagBytes category)
        (cutAtCharacter maxTagBytes level) (cutAtCharacter maxTimestampBytes timestamp)
        (pairs.map pairValue)) := by
  rw [encodeEntry_eq]
  apply Json.reads_object
  refine .cons (JsonText.readsMember_plain rfl (reads_jsonAppendEscaped _ _)) ?_
  refine .cons (JsonText.readsMember_plain rfl (reads_jsonAppendEscaped _ _)) ?_
  refine .cons (JsonText.readsMember_plain rfl (reads_jsonAppendEscaped _ _)) ?_
  refine .cons (JsonText.readsMember_plain rfl (reads_jsonAppendEscaped _ _)) ?_
  exact .cons (JsonText.readsMember_plain rfl (reads_data pairs)) .nil

/-! ## UTF-8 -/

theorem utf8_jsonAppendEscaped {value : Bytes} (h : Utf8 value) (maxBytes : Nat) :
    Utf8 (jsonAppendEscaped value maxBytes) :=
    JsonText.utf8_jsonString (h.cutAtCharacter maxBytes).utf8

theorem utf8_encodeEntry {message category level timestamp : Bytes} {pairs : List (Bytes × Bytes)}
    (messageBytes : Nat) (hmessage : Utf8 message) (hcategory : Utf8 category) (hlevel : Utf8 level)
    (htimestamp : Utf8 timestamp) (hpairs : ∀ pair ∈ pairs, Utf8 pair.1 ∧ Utf8 pair.2) :
    Utf8 (encodeEntry message messageBytes category level timestamp pairs) := by
  have hdata : Utf8 (Json.object (pairs.map dataMember)) := by
    apply JsonText.utf8_object
    intro m hm
    obtain ⟨pair, hpair, rfl⟩ := List.mem_map.mp hm
    obtain ⟨hkey, hvalue⟩ := hpairs pair hpair
    exact ⟨JsonText.utf8_escaped (hkey.cutAtCharacter _).utf8, utf8_jsonAppendEscaped hvalue _⟩
  rw [encodeEntry_eq]
  apply JsonText.utf8_object
  simp only [entryMembers, List.forall_mem_cons]
  exact ⟨⟨utf8_of_isAscii rfl, utf8_jsonAppendEscaped hcategory _⟩,
    ⟨utf8_of_isAscii rfl, utf8_jsonAppendEscaped hmessage _⟩,
    ⟨utf8_of_isAscii rfl, utf8_jsonAppendEscaped hlevel _⟩,
    ⟨utf8_of_isAscii rfl, utf8_jsonAppendEscaped htimestamp _⟩, ⟨utf8_of_isAscii rfl, hdata⟩,
    List.forall_mem_nil _⟩

/-! ## The entry of a call -/

/-- The message or a value as it is written, before it is cut. -/
def Call.scrubbed (call : Call) (text : Bytes) : Bytes :=
  if call.config.scrubPii then PiiScrubber.scrubString text else text

def Call.value (call : Call) (pair : Bytes × Bytes) : Bytes :=
  if call.config.scrubPii && PiiScrubber.isSensitiveKey (some pair.1) then PiiScrubber.redacted
    else call.scrubbed pair.2

theorem copyPairs_eq (call : Call) (i : Nat) (pairs : List (Bytes × Bytes)) :
    copyPairs call.config (fun _ => {}) i pairs = pairs.map fun pair =>
      (pair.1, call.value pair) := by
  have hcopy : ∀ pair, copyPair call.config {} pair = some (pair.1, call.value pair) := by
    intro pair
    unfold copyPair Call.value Call.scrubbed
    generalize PiiScrubber.isSensitiveKey (some pair.1) = sensitive
    generalize PiiScrubber.scrubString pair.2 = scrubbed
    cases call.config.scrubPii with
    | false => rfl
    | true => cases sensitive <;> rfl
  induction pairs generalizing i with
  | nil => rfl
  | cons pair pairs ih => rw [copyPairs, hcopy, ih, List.map_cons]

theorem encoded_eq_some {call : Call} {message entry : Bytes}
    (h : call.encoded {} message = some entry) :
    entry.length < slotSize ∧ ∃ n k, entry = encodeEntry (call.scrubbed message) n
      (call.category.getD (ascii "custom")) (call.level.getD (ascii "info"))
      (Calendar.timestamp call.now)
      ((call.data.take k).map fun pair => (pair.1, call.value pair)) := by
  have hscrubbed : (if call.config.scrubPii && true then PiiScrubber.scrubString message
      else message) = call.scrubbed message := by rw [Bool.and_true, Call.scrubbed]
  obtain ⟨hfits, n, k, rfl⟩ := fitEntry_eq_some h
  refine ⟨hfits, n, k, ?_⟩
  simp only [if_true, hscrubbed, copyPairs_eq, List.map_take]

theorem Call.utf8_scrubbed (call : Call) {text : Bytes} (h : Utf8 text) :
    Utf8 (call.scrubbed text) := by
  unfold Call.scrubbed
  split
  · exact PiiScrubber.scrubString_utf8 h
  · exact h

theorem Call.utf8_value (call : Call) {pair : Bytes × Bytes} (h : Utf8 pair.2) :
    Utf8 (call.value pair) := by
  unfold Call.value
  split
  · exact utf8_of_isAscii rfl
  · exact call.utf8_scrubbed h

/-- A member of an entry's data: the pair's key and its value, scrubbed or redacted, cut between
characters. -/
def KeptPair (call : Call) (member : Bytes × Json.Value) (pair : Bytes × Bytes) : Prop :=
  CharPrefix member.1 pair.1 ∧ ∃ value, member.2 = .string value ∧
    CharPrefix value (call.value pair)

/-- What a stored entry says of its call. -/
structure EntryOf (call : Call) (message entry : Bytes) : Prop where
  fits : entry.length < slotSize
  wellFormed : Json.WellFormed entry
  utf8 : Utf8 entry
  line : 10 ∉ entry
  value : ∃ m category level members k,
    Json.parse entry = some (entryValue m category level
      (cutAtCharacter maxTimestampBytes (Calendar.timestamp call.now)) members) ∧
      CharPrefix m (call.scrubbed message) ∧
      CharPrefix category (call.category.getD (ascii "custom")) ∧
        CharPrefix level (call.level.getD (ascii "info")) ∧
        List.Forall₂ (KeptPair call) members (call.data.take k)

theorem entryOf_of_encoded {call : Call} {message entry : Bytes}
    (h : call.encoded {} message = some entry) (hmessage : Utf8 message)
    (hcategory : ∀ c ∈ call.category, Utf8 c) (hlevel : ∀ l ∈ call.level, Utf8 l)
    (hdata : ∀ pair ∈ call.data, Utf8 pair.1 ∧ Utf8 pair.2) : EntryOf call message entry := by
  have hor : ∀ {text : Option Bytes} {other : Bytes}, (∀ t ∈ text, Utf8 t) →
      other.all Byte.isAscii = true → Utf8 (text.getD other) := by
    intro text other htext hother
    cases text with
    | none => exact utf8_of_isAscii hother
    | some t => exact htext t rfl
  have hwritten := call.utf8_scrubbed hmessage
  have hcategory : Utf8 (call.category.getD (ascii "custom")) := hor hcategory rfl
  have hlevel : Utf8 (call.level.getD (ascii "info")) := hor hlevel rfl
  have hkept : ∀ pair ∈ call.data, KeptPair call
      (pairValue (pair.1, call.value pair)) pair := fun pair hpair =>
    ⟨(hdata pair hpair).1.cutAtCharacter _, _, rfl,
      (call.utf8_value (hdata pair hpair).2).cutAtCharacter _⟩
  have hentry := fitEntry_isEntry h
  obtain ⟨hfits, n, k, rfl⟩ := encoded_eq_some h
  obtain ⟨members, hmembers, heq⟩ := hentry.object
  have hread := (reads_encodeEntry (call.scrubbed message) n (call.category.getD (ascii "custom"))
    (call.level.getD (ascii "info")) (Calendar.timestamp call.now)
    ((call.data.take k).map fun pair => (pair.1, call.value pair))).parse
  refine ⟨hfits, heq ▸ Json.object_wellFormed hmembers, ?_, fun hline => ?_, ?_⟩
  · refine utf8_encodeEntry n hwritten hcategory hlevel ?_ fun pair hpair => ?_
    · exact utf8_of_isAscii (Calendar.timestamp_all (fun _ => isAscii_of_isDigit) rfl call.now)
    · obtain ⟨source, hsource, rfl⟩ := List.mem_map.mp hpair
      obtain ⟨hkey, hvalue⟩ := hdata source (List.mem_of_mem_take hsource)
      exact ⟨hkey, call.utf8_value hvalue⟩
  · exact absurd (List.all_eq_true.mp hentry.printable 10 hline) (by decide)
  · refine ⟨_, _, _, _, k, hread, hwritten.cutAtCharacter n, hcategory.cutAtCharacter _,
      hlevel.cutAtCharacter _, ?_⟩
    rw [List.map_map, List.forall₂_map_left_iff]
    exact List.forall₂_same.mpr fun pair hpair => hkept pair (List.mem_of_mem_take hpair)

/-- An enabled call, its allocations succeeding, always stores one entry of its own. -/
theorem add_stores_entry (call : Call) {message : Bytes} (trail : Trail)
    (hmessage : call.message = some message) (henabled : call.enabled ∧ 0 < call.maxEntries)
    (htext : Utf8 message) (hcategory : ∀ c ∈ call.category, Utf8 c)
    (hlevel : ∀ l ∈ call.level, Utf8 l) (hdata : ∀ pair ∈ call.data, Utf8 pair.1 ∧ Utf8 pair.2) :
    ∃ k entry, entries (add call {} trail) = (entries trail).drop k ++ [entry] ∧
      EntryOf call message entry := by
  have hplain : Represents trail ⟨trail.map Ring.capacity, entries trail⟩ := ⟨rfl, rfl⟩
  obtain ⟨entry, hnew, hencoded⟩ := newEntry_isSome hmessage henabled
  have hentries := (hplain.add call).entries
  rw [PlainTrail.add, hnew] at hentries
  exact ⟨_, entry, hentries, entryOf_of_encoded hencoded htext hcategory hlevel hdata⟩

/-- One character of two bytes in the message, a password in the data. -/
def loginCall : Call where
  config := { trackBreadcrumbs := true, maxBreadcrumbs := 30 }
  message := some (encode ['c', 'a', 'f', 'é'])
  data := [(ascii "password", ascii "secret"), (ascii "user", ascii "jane@example.com")]
  now := 0

theorem add_stores_entry_login : ∃ k entry,
    entries (add loginCall {} none) = (entries none).drop k ++ [entry] ∧
      EntryOf loginCall (encode ['c', 'a', 'f', 'é']) entry := by
  have henabled : loginCall.enabled ∧ 0 < loginCall.maxEntries := by decide
  have hdata : ∀ pair ∈ loginCall.data, Utf8 pair.1 ∧ Utf8 pair.2 := by
    simp only [loginCall, List.forall_mem_cons]
    exact ⟨⟨utf8_of_isAscii rfl, utf8_of_isAscii rfl⟩, ⟨utf8_of_isAscii rfl, utf8_of_isAscii rfl⟩,
      List.forall_mem_nil _⟩
  exact add_stores_entry loginCall none rfl henabled ⟨_, rfl⟩
    (fun _ h => absurd h (by simp [loginCall]))
    (fun _ h => absurd h (by simp [loginCall])) hdata

end ForgeOps.Breadcrumbs
