import ForgeOpsTracker.Lib.Ring
import ForgeOpsTracker.Lib.Runs
import ForgeOpsTracker.Lib.Lines
import ForgeOpsTracker.Lib.Calendar
import ForgeOpsTracker.JsonText
import ForgeOpsTracker.PiiScrubber
import ForgeOpsTracker.Configuration

/-! The breadcrumb trail of one thread (`breadcrumbs.c`): entries already encoded as
JSON objects, in the slots of a ring the signal handler can dump as they are. -/

namespace ForgeOps.Breadcrumbs

/-- `FORGEOPS_BREADCRUMB_SLOT_SIZE`, the NUL included. -/
def slotSize : Nat := 1024
/-- `FORGEOPS_BREADCRUMB_RING_LIMIT` -/
def ringLimit : Nat := 100
def maxMessageBytes : Nat := 300
def maxTagBytes : Nat := 64
def maxTimestampBytes : Nat := 32

/-! ## One entry -/

def jsonAppendEscaped (value : Bytes) (maxBytes : Nat) : Bytes :=
  JsonText.jsonString (cutAtCharacter maxBytes value)

def encodePair (pair : Bytes × Bytes) : Bytes :=
  jsonAppendEscaped pair.1 maxTagBytes ++ ascii ":" ++ jsonAppendEscaped pair.2 maxMessageBytes

def encodeEntry (message : Bytes) (messageBytes : Nat) (category level timestamp : Bytes)
    (pairs : List (Bytes × Bytes)) : Bytes :=
  ascii "\x7b\"category\":" ++ jsonAppendEscaped category maxTagBytes ++
    ascii ",\"message\":" ++ jsonAppendEscaped message messageBytes ++
    ascii ",\"level\":" ++ jsonAppendEscaped level maxTagBytes ++
    ascii ",\"timestamp\":" ++ jsonAppendEscaped timestamp maxTimestampBytes ++
    ascii ",\"data\":\x7b" ++ JsonText.commaSeparated (pairs.map encodePair) ++ ascii "\x7d\x7d"

/-- What a pair's three allocations answer: the key's copy, the scrubbed value, the value's copy. -/
structure PairAllocations where
  key : Bool := true
  scrubbed : Bool := true
  value : Bool := true
  deriving DecidableEq, Repr

/-- Which allocations of one call of `forgeops_breadcrumb_add` succeed. -/
structure Allocations where
  ring : Bool := true
  message : Bool := true
  arrays : Bool := true
  pair : Nat → PairAllocations := fun _ => {}
  encoded : Nat → Bool := fun _ => true

/-- The copy of one pair, or `none` when its key or its value could not be had. -/
def copyPair (config : Configuration) (a : PairAllocations) (pair : Bytes × Bytes) :
    Option (Bytes × Bytes) :=
  let key := if a.key then some pair.1 else none
  let value :=
    if config.scrubPii && PiiScrubber.isSensitiveKey (some pair.1) then
      if a.value then some PiiScrubber.redacted else none
    else if config.scrubPii && a.scrubbed then some (PiiScrubber.scrubString pair.2)
    else if a.value then some pair.2
    else none
  match key, value with
  | some key, some value => some (key, value)
  | _, _ => none

/-- The pairs from the `i`-th on, up to the first that could not be copied. -/
def copyPairs (config : Configuration) (a : Nat → PairAllocations) (i : Nat) :
    List (Bytes × Bytes) → List (Bytes × Bytes)
  | [] => []
  | pair :: pairs =>
    match copyPair config (a i) pair with
    | none => []
    | some copy => copy :: copyPairs config a (i + 1) pairs

/-- The loop that fits the entry to its slot: pairs go from the end first, then the
message is shortened. -/
def fitEntry (encoded : Nat → Bool) (message category level timestamp : Bytes)
    (pairs : List (Bytes × Bytes)) (attempt messageBytes pairCount : Nat) : Option Bytes :=
  if encoded attempt then
    let entry := encodeEntry message messageBytes category level timestamp (pairs.take pairCount)
    if entry.length < slotSize then some entry
    else if pairCount > 0 then
      fitEntry encoded message category level timestamp pairs (attempt + 1) messageBytes
        (pairCount - 1)
    else if messageBytes > 16 then
      fitEntry encoded message category level timestamp pairs (attempt + 1)
        (messageBytes / 2) pairCount
    else none
  else none
termination_by messageBytes + pairCount

/-! ## The trail -/

/-- The ring of a thread, once it has one. -/
abbrev Trail := Option (Ring Bytes)

/-- `ring_for_this_thread` -/
def ringForThisThread (allocated : Bool) (wantedCapacity : Nat) (h : 0 < wantedCapacity) :
    Trail → Trail
  | some ring => some ring
  | none => if allocated then some (Ring.create wantedCapacity [] h) else none

structure Call where
  config : Configuration
  message : Option Bytes
  category : Option Bytes := none
  level : Option Bytes := none
  data : List (Bytes × Bytes) := []
  now : Nat

def Call.enabled (call : Call) : Bool := call.config.trackBreadcrumbs && !call.config.strictPrivacy

/-- `max_breadcrumbs`, 0 when it is not positive, and never above the limit of a ring. -/
def Call.maxEntries (call : Call) : Nat := min call.config.maxBreadcrumbs.toNat ringLimit

/-- The encoded entry of a call, or `none` when there is none to store. -/
def Call.encoded (call : Call) (a : Allocations) (message : Bytes) : Option Bytes :=
  let messageToEncode :=
    if call.config.scrubPii && a.message then PiiScrubber.scrubString message else message
  let pairs := if a.arrays then copyPairs call.config a.pair 0 call.data else []
  fitEntry a.encoded messageToEncode (call.category.getD (ascii "custom"))
    (call.level.getD (ascii "info")) (Calendar.timestamp call.now) pairs 0
      maxMessageBytes pairs.length

/-- `forgeops_breadcrumb_add` -/
def add (call : Call) (a : Allocations) (trail : Trail) : Trail :=
  match call.message with
  | none => trail
  | some message =>
    if h : call.enabled ∧ 0 < call.maxEntries then
      match ringForThisThread a.ring call.maxEntries h.2 trail with
      | none => none
      | some ring =>
        match call.encoded a message with
        | none => some ring
        | some entry => some ((ring.trim (min call.maxEntries ring.capacity)).push entry)
    else trail

/-- `forgeops_breadcrumbs_clear` -/
def clear (trail : Trail) : Trail := trail.map Ring.clear

/-- What the dump and the snapshot walk: the entries, oldest first. -/
def entries (trail : Trail) : List Bytes := (trail.map Ring.toList).getD []

def rawLine (entry : Bytes) : Bytes := ascii "#breadcrumb " ++ entry

/-- `forgeops_breadcrumbs_write_raw_to_fd` -/
def writeRawToFd (trail : Trail) : Bytes := unlines ((entries trail).map rawLine)

inductive Action
  | add (call : Call) (a : Allocations)
  | clear

def step (trail : Trail) : Action → Option Trail
  | .add call a => some (add call a trail)
  | .clear => some (clear trail)

/-! ## Every stored entry is a JSON object that fits its slot -/

structure IsEntry (entry : Bytes) : Prop where
  object : ∃ ms : List Json.Member, (∀ m ∈ ms, m.Valid) ∧ entry = Json.object ms
  fits : entry.length < slotSize
  printable : entry.all JsonText.isPrintable

/-- A data pair as a member of the entry's `data` object. -/
def dataMember (pair : Bytes × Bytes) : Json.Member :=
  ⟨(cutAtCharacter maxTagBytes pair.1).flatMap JsonText.escapeByte,
    jsonAppendEscaped pair.2 maxMessageBytes⟩

theorem encodePair_eq : encodePair = Json.Member.text ∘ dataMember :=
  funext fun _ => JsonText.pair_text _ _

theorem dataMember_valid (pair : Bytes × Bytes) : (dataMember pair).Valid :=
  ⟨JsonText.chars_escaped _, JsonText.jsonString_wellFormed _⟩

theorem data_eq (pairs : List (Bytes × Bytes)) :
    ascii "\x7b" ++ JsonText.commaSeparated (pairs.map encodePair) ++ ascii "\x7d" =
      Json.object (pairs.map dataMember) := by
  rw [Json.object, List.map_map, ← encodePair_eq, ← JsonText.commaSeparated_eq_joined]
  rfl

/-- The members of an entry, in order. -/
def entryMembers (message : Bytes) (messageBytes : Nat) (category level timestamp : Bytes)
    (pairs : List (Bytes × Bytes)) : List Json.Member :=
  [⟨ascii "category", jsonAppendEscaped category maxTagBytes⟩,
    ⟨ascii "message", jsonAppendEscaped message messageBytes⟩,
    ⟨ascii "level", jsonAppendEscaped level maxTagBytes⟩,
    ⟨ascii "timestamp", jsonAppendEscaped timestamp maxTimestampBytes⟩,
    ⟨ascii "data", Json.object (pairs.map dataMember)⟩]

theorem encodeEntry_eq (message : Bytes) (messageBytes : Nat) (category level timestamp : Bytes)
    (pairs : List (Bytes × Bytes)) :
    encodeEntry message messageBytes category level timestamp pairs =
      Json.object (entryMembers message messageBytes category level timestamp pairs) := by
  have hfirst : ascii "\x7b\"category\":" ++ jsonAppendEscaped category maxTagBytes =
      Json.opening [⟨ascii "category", jsonAppendEscaped category maxTagBytes⟩] := rfl
  have hdata : ∀ t, t ++ ascii ",\"data\":\x7b" ++ JsonText.commaSeparated (pairs.map encodePair) ++
      ascii "\x7d\x7d" = t ++ ascii ",\"data\":" ++
      Json.object (pairs.map dataMember) ++ [125] := by
    intro t
    rw [← data_eq, show ascii ",\"data\":\x7b" = ascii ",\"data\":" ++ ascii "\x7b" from rfl,
      show ascii "\x7d\x7d" = ascii "\x7d" ++ [125] from rfl]
    simp only [List.append_assoc]
  rw [encodeEntry, hfirst, Json.opening_concat _ _ (ascii "message") (ascii ",\"message\":") _ rfl,
    Json.opening_concat _ _ (ascii "level") (ascii ",\"level\":") _ rfl,
    Json.opening_concat _ _ (ascii "timestamp") (ascii ",\"timestamp\":") _ rfl, hdata,
    Json.opening_concat _ _ (ascii "data") (ascii ",\"data\":") _ rfl, Json.object_eq]
  rfl

theorem entryMembers_valid (message : Bytes) (messageBytes : Nat) (category level timestamp : Bytes)
    (pairs : List (Bytes × Bytes)) :
    ∀ m ∈ entryMembers message messageBytes category level timestamp pairs, m.Valid := by
  have hstring : ∀ (name value : Bytes) (most : Nat), name.all Json.isPlain →
      (⟨name, jsonAppendEscaped value most⟩ : Json.Member).Valid := fun name value most hname =>
    ⟨Json.chars_of_plain hname, JsonText.jsonString_wellFormed _⟩
  have hdata : ∀ m ∈ pairs.map dataMember, m.Valid := by
    intro m hm
    obtain ⟨pair, -, rfl⟩ := List.mem_map.mp hm
    exact dataMember_valid pair
  simp only [entryMembers, List.forall_mem_cons]
  exact ⟨hstring _ _ _ rfl, hstring _ _ _ rfl, hstring _ _ _ rfl, hstring _ _ _ rfl,
    ⟨Json.chars_of_plain rfl, Json.object_wellFormed hdata⟩, List.forall_mem_nil _⟩

theorem encodeEntry_printable (message : Bytes) (messageBytes : Nat)
    (category level timestamp : Bytes) (pairs : List (Bytes × Bytes)) :
    (encodeEntry message messageBytes category level timestamp pairs).all JsonText.isPrintable := by
  have hpair : ∀ pair, (encodePair pair).all JsonText.isPrintable = true := by
    intro pair
    simp only [encodePair, jsonAppendEscaped, List.all_append, JsonText.jsonString_printable]
    rfl
  have hpairs : (JsonText.commaSeparated (pairs.map encodePair)).all
      JsonText.isPrintable = true := by
    induction pairs with
    | nil => rfl
    | cons pair pairs ih =>
      cases pairs with
      | nil => exact hpair pair
      | cons next pairs =>
        simp only [List.map_cons, JsonText.commaSeparated, List.all_append, hpair] at ih ⊢
        rw [ih]
        rfl
  simp only [encodeEntry, jsonAppendEscaped, List.all_append, JsonText.jsonString_printable, hpairs]
  rfl

/-- What is stored has some of the message's bytes and some of the pairs. -/
theorem fitEntry_eq_some {encoded : Nat → Bool} {message category level timestamp : Bytes}
    {pairs : List (Bytes × Bytes)} {attempt messageBytes pairCount : Nat} {entry : Bytes}
    (h : fitEntry encoded message category level timestamp pairs attempt messageBytes pairCount =
      some entry) :
    entry.length < slotSize ∧
      ∃ n k, entry = encodeEntry message n category level timestamp (pairs.take k) := by
  induction attempt, messageBytes, pairCount using fitEntry.induct encoded message category level
    timestamp pairs with
  | case1 attempt messageBytes pairCount halloc e hfits =>
    rw [fitEntry, if_pos halloc, if_pos hfits] at h
    obtain rfl := Option.some.inj h
    exact ⟨hfits, messageBytes, pairCount, rfl⟩
  | case2 attempt messageBytes pairCount halloc e hlong hpairs ih =>
    rw [fitEntry, if_pos halloc, if_neg hlong, if_pos hpairs] at h
    exact ih h
  | case3 attempt messageBytes pairCount halloc e hlong hpairs hbytes ih =>
    rw [fitEntry, if_pos halloc, if_neg hlong, if_neg hpairs, if_pos hbytes] at h
    exact ih h
  | case4 attempt messageBytes pairCount halloc e hlong hpairs hbytes =>
    rw [fitEntry, if_pos halloc, if_neg hlong, if_neg hpairs, if_neg hbytes] at h
    exact absurd h (by simp)
  | case5 attempt messageBytes pairCount halloc =>
    rw [fitEntry, if_neg halloc] at h
    exact absurd h (by simp)

theorem fitEntry_isEntry {encoded : Nat → Bool} {message category level timestamp : Bytes}
    {pairs : List (Bytes × Bytes)} {attempt messageBytes pairCount : Nat} {entry : Bytes}
    (h : fitEntry encoded message category level timestamp pairs attempt messageBytes pairCount =
      some entry) :
    IsEntry entry := by
  obtain ⟨hfits, n, k, rfl⟩ := fitEntry_eq_some h
  exact ⟨⟨_, entryMembers_valid _ _ _ _ _ _, encodeEntry_eq _ _ _ _ _ _⟩, hfits,
    encodeEntry_printable _ _ _ _ _ _⟩

/-! ## What a call does to the trail -/

/-- A call stores nothing, or keeps the newest entries and puts one after them. -/
theorem entries_add (call : Call) (a : Allocations) (trail : Trail) :
    entries (add call a trail) = entries trail ∨
      ∃ k entry, IsEntry entry ∧
        entries (add call a trail) = (entries trail).drop k ++ [entry] := by
  unfold add
  split
  · exact .inl rfl
  rename_i message _
  split
  swap
  · exact .inl rfl
  rename_i h
  have hring : entries (ringForThisThread a.ring call.maxEntries h.2 trail) = entries trail := by
    cases trail with
    | some ring => rfl
    | none =>
      simp only [ringForThisThread]
      split <;> rfl
  split
  · rename_i hnone
    rw [hnone] at hring
    exact .inl hring
  rename_i ring hsome
  rw [hsome] at hring
  split
  · exact .inl hring
  rename_i entry hentry
  have hcapacity := Nat.zero_lt_of_lt ring.start_lt
  have hmost : 0 < min call.maxEntries ring.capacity := Nat.lt_min.mpr ⟨h.2, hcapacity⟩
  have hroom := Ring.count_trim_lt hmost ring
  refine .inr ⟨ring.count + 1 - min call.maxEntries ring.capacity, entry,
    fitEntry_isEntry hentry, ?_⟩
  rw [← hring]
  show ((ring.trim _).push entry).toList = ring.toList.drop _ ++ [entry]
  rw [Ring.toList_push, Ring.toList_trim hmost]
  rw [Ring.capacity_trim]
  exact Nat.lt_of_lt_of_le hroom (Nat.min_le_right _ _)

/-- The first entry of a thread stands alone in its new ring. -/
theorem entries_add_first {call : Call} {a : Allocations} {message entry : Bytes}
    (hmessage : call.message = some message) (h : call.enabled ∧ 0 < call.maxEntries)
    (hring : a.ring = true) (hentry : call.encoded a message = some entry) :
    entries (add call a none) = [entry] := by
  simp only [add, hmessage, dif_pos h, ringForThisThread, hring, if_true, hentry]
  show (((Ring.create call.maxEntries [] h.2).trim _).push entry).toList = [entry]
  have hmost : 0 < min call.maxEntries call.maxEntries := Nat.lt_min.mpr ⟨h.2, h.2⟩
  rw [Ring.trim_of_lt hmost, Ring.toList_push h.2, Ring.toList_create, List.nil_append]

def Sound (trail : Trail) : Prop := ∀ entry ∈ entries trail, IsEntry entry

theorem Sound.step {trail trail' : Trail} {action : Action} (h : Sound trail)
    (hstep : step trail action = some trail') : Sound trail' := by
  cases action with
  | clear =>
    obtain rfl := Option.some.inj hstep
    cases trail <;> exact fun _ hentry => absurd hentry (List.not_mem_nil)
  | add call a =>
    obtain rfl := Option.some.inj hstep
    rcases entries_add call a trail with heq | ⟨k, entry, hentry, heq⟩
    · intro e he
      rw [heq] at he
      exact h e he
    · intro e he
      rw [heq, List.mem_append, List.mem_singleton] at he
      rcases he with he | rfl
      · exact h e (List.mem_of_mem_drop he)
      · exact hentry

/-- Every trail a thread can have holds entries only. -/
theorem sound_of_reachable {trail : Trail} (h : Runs.Reachable step none trail) : Sound trail :=
  Runs.reachable_invariant (fun _ _ _ hs ht => Sound.step hs ht)
    (fun _ hentry => absurd hentry (List.not_mem_nil)) h

end ForgeOps.Breadcrumbs
