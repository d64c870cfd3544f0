import ForgeOpsTracker.Breadcrumbs

/-! The trail of a thread as a plain list: what `forgeops_breadcrumb_add` and
`forgeops_breadcrumbs_clear` make of the ring is what keeping the newest entries of a
list makes of that list, whatever limits the calls come with. -/

namespace ForgeOps.Breadcrumbs

/-! ## An entry always fits its slot -/

theorem timestamp_plain (now : Nat) : (Calendar.timestamp now).all Json.isPlain = true := by
  refine Calendar.timestamp_all (fun c hdigit => ?_) rfl now
  simp only [Byte.isDigit, Bool.and_eq_true, decide_eq_true_eq] at hdigit
  simp only [Json.isPlain, Bool.and_eq_true, bne_iff_ne, decide_eq_true_eq]
  grind

theorem length_cutAtCharacter_le (most : Nat) (value : Bytes) :
    (cutAtCharacter most value).length ≤ most := by
  have hcut := cutBack_le value most
  unfold cutAtCharacter
  split
  · rw [List.length_take]
    omega
  · omega

theorem jsonAppendEscaped_length_le (value : Bytes) (maxBytes : Nat) :
    (jsonAppendEscaped value maxBytes).length ≤ 6 * maxBytes + 2 := by
  have hcut := length_cutAtCharacter_le maxBytes value
  have hjson := JsonText.jsonString_length_le (cutAtCharacter maxBytes value)
  rw [jsonAppendEscaped]
  omega

/-- Plain text is not escaped. -/
theorem jsonAppendEscaped_plain_length_le {value : Bytes} (h : value.all Json.isPlain = true)
    (maxBytes : Nat) : (jsonAppendEscaped value maxBytes).length ≤ maxBytes + 2 := by
  have hcut := length_cutAtCharacter_le maxBytes value
  have hplain : (cutAtCharacter maxBytes value).all Json.isPlain = true := by
    unfold cutAtCharacter
    split
    · exact List.all_eq_true.mpr fun c hc => List.all_eq_true.mp h c (List.mem_of_mem_take hc)
    · exact h
  rw [jsonAppendEscaped, JsonText.jsonString_plain hplain]
  simp only [List.length_cons, List.length_append, List.length_nil]
  omega

/-- Without data and with the shortest message an entry is below 1024 bytes. -/
theorem encodeEntry_fits (message category level : Bytes) {timestamp : Bytes} {messageBytes : Nat}
    (hplain : timestamp.all Json.isPlain = true) (h : messageBytes ≤ 16) :
    (encodeEntry message messageBytes category level timestamp []).length < slotSize := by
  have hmessage := jsonAppendEscaped_length_le message messageBytes
  have hcategory := jsonAppendEscaped_length_le category maxTagBytes
  have hlevel := jsonAppendEscaped_length_le level maxTagBytes
  have htimestamp := jsonAppendEscaped_plain_length_le hplain maxTimestampBytes
  have hlabels : (ascii "\x7b\"category\":").length + (ascii ",\"message\":").length +
      (ascii ",\"level\":").length + (ascii ",\"timestamp\":").length +
      (ascii ",\"data\":\x7b").length + (ascii "\x7d\x7d").length = 56 := by decide
  simp only [maxTagBytes, maxTimestampBytes] at hcategory hlevel htimestamp
  simp only [encodeEntry, List.length_append, List.map_nil, JsonText.commaSeparated,
    List.length_nil, slotSize, maxTagBytes, maxTimestampBytes]
  omega

theorem fitEntry_isSome {encoded : Nat → Bool} (halloc : ∀ attempt, encoded attempt = true)
    (message category level : Bytes) {timestamp : Bytes}
    (hplain : timestamp.all Json.isPlain = true) (pairs : List (Bytes × Bytes))
    (attempt messageBytes pairCount : Nat) :
    (fitEntry encoded message category level timestamp pairs attempt messageBytes
      pairCount).isSome = true := by
  induction attempt, messageBytes, pairCount using fitEntry.induct encoded message category level
    timestamp pairs with
  | case1 attempt messageBytes pairCount hok e hfits =>
    rw [fitEntry, if_pos hok, if_pos hfits]
    rfl
  | case2 attempt messageBytes pairCount hok e hlong hpairs ih =>
    rw [fitEntry, if_pos hok, if_neg hlong, if_pos hpairs]
    exact ih
  | case3 attempt messageBytes pairCount hok e hlong hpairs hbytes ih =>
    rw [fitEntry, if_pos hok, if_neg hlong, if_neg hpairs, if_pos hbytes]
    exact ih
  | case4 attempt messageBytes pairCount hok e hlong hpairs hbytes =>
    obtain rfl : pairCount = 0 := Nat.le_zero.mp (Nat.le_of_not_lt hpairs)
    exact absurd (encodeEntry_fits message category level hplain (Nat.le_of_not_lt hbytes)) hlong
  | case5 attempt messageBytes pairCount hfailed => exact absurd (halloc attempt) hfailed

/-! ## The plain list -/

/-- The entry an enabled call stores. -/
def Call.newEntry (call : Call) : Option Bytes :=
  match call.message with
  | none => none
  | some message =>
    if call.enabled ∧ 0 < call.maxEntries then call.encoded {} message else none

/-- The entries, oldest first, and the capacity the first enabled call fixed. -/
structure PlainTrail where
  capacity : Option Nat
  entries : List Bytes
  deriving DecidableEq, Repr

/-- The newest entries of a list, at most `n`. -/
def newest (n : Nat) (entries : List Bytes) : List Bytes := entries.drop (entries.length - n)

def PlainTrail.add (call : Call) (p : PlainTrail) : PlainTrail :=
  match call.newEntry with
  | none => p
  | some entry =>
    let capacity := p.capacity.getD call.maxEntries
    let limit := min call.maxEntries capacity
    ⟨some capacity, newest (limit - 1) p.entries ++ [entry]⟩

inductive Event
  | add (call : Call)
  | clear

/-- What a call leaves of a trail, its allocations succeeding. -/
def handle (trail : Trail) : Event → Trail
  | .add call => add call {} trail
  | .clear => clear trail

def PlainTrail.handle (p : PlainTrail) : Event → PlainTrail
  | .add call => p.add call
  | .clear => { p with entries := [] }

/-- `forgeops_breadcrumbs_snapshot`: NULL when there is nothing. -/
def snapshot (trail : Trail) : Option (List Bytes) :=
  match trail with
  | none => none
  | some ring => if ring.count = 0 then none else some ring.toList

/-! ## The ring is that list -/

/-- A trail stands for a plain one. -/
structure Represents (trail : Trail) (p : PlainTrail) : Prop where
  capacity : trail.map Ring.capacity = p.capacity
  entries : Breadcrumbs.entries trail = p.entries

/-- An enabled call always has an entry to store. -/
theorem newEntry_isSome {call : Call} {message : Bytes} (hmessage : call.message = some message)
    (h : call.enabled ∧ 0 < call.maxEntries) :
    ∃ entry, call.newEntry = some entry ∧ call.encoded {} message = some entry := by
  have hsome : (call.encoded {} message).isSome = true :=
    fitEntry_isSome (fun _ => rfl) _ _ _ (timestamp_plain call.now) _ _ _ _
  obtain ⟨entry, hentry⟩ := Option.isSome_iff_exists.mp hsome
  refine ⟨entry, ?_, hentry⟩
  rw [Call.newEntry, hmessage]
  exact (if_pos h).trans hentry

theorem newEntry_of_disabled {call : Call} {message : Bytes}
    (hmessage : call.message = some message) (h : ¬ (call.enabled ∧ 0 < call.maxEntries)) :
    call.newEntry = none := by
  rw [Call.newEntry, hmessage]
  exact if_neg h

/-- Trimming a ring to the limit and storing behind the newest entry. -/
theorem toList_trim_push {ring : Ring Bytes} {limit : Nat} (hpos : 0 < limit)
    (hle : limit ≤ ring.capacity) (entry : Bytes) :
    ((ring.trim limit).push entry).toList = newest (limit - 1) ring.toList ++ [entry] := by
  have hroom := Ring.count_trim_lt hpos ring
  rw [Ring.toList_push, Ring.toList_trim hpos, newest, Ring.length_toList]
  · congr 2
    omega
  · rw [Ring.capacity_trim]
    exact Nat.lt_of_lt_of_le hroom hle

theorem capacity_push (ring : Ring Bytes) (entry : Bytes) :
    (ring.push entry).capacity = ring.capacity := by
  unfold Ring.push
  split <;> rfl

theorem Represents.add {trail : Trail} {p : PlainTrail} (h : Represents trail p) (call : Call) :
    Represents (Breadcrumbs.add call {} trail) (p.add call) := by
  cases hmessage : call.message with
  | none =>
    have hnew : call.newEntry = none := by rw [Call.newEntry, hmessage]
    rw [Breadcrumbs.add, PlainTrail.add, hmessage, hnew]
    exact h
  | some message =>
    by_cases henabled : call.enabled ∧ 0 < call.maxEntries
    swap
    · rw [Breadcrumbs.add, PlainTrail.add, hmessage, newEntry_of_disabled hmessage henabled]
      simp only [dif_neg henabled]
      exact h
    obtain ⟨entry, hnew, hencoded⟩ := newEntry_isSome hmessage henabled
    -- the ring the entry goes to, made by this call when there was none
    obtain ⟨ring, hring, hcapacity, hentries⟩ : ∃ ring : Ring Bytes,
        ringForThisThread true call.maxEntries henabled.2 trail = some ring ∧
        ring.capacity = p.capacity.getD call.maxEntries ∧ ring.toList = p.entries := by
      cases trail with
      | none =>
        refine ⟨_, rfl, ?_, h.entries⟩
        rw [← h.capacity]
        rfl
      | some ring =>
        refine ⟨ring, rfl, ?_, h.entries⟩
        rw [← h.capacity]
        rfl
    have hpos : 0 < min call.maxEntries ring.capacity :=
      Nat.lt_min.mpr ⟨henabled.2, Nat.zero_lt_of_lt ring.start_lt⟩
    have hadd : Breadcrumbs.add call {} trail =
        some ((ring.trim (min call.maxEntries ring.capacity)).push entry) := by
      simp only [Breadcrumbs.add, hmessage, dif_pos henabled, hring, hencoded]
    rw [hadd, PlainTrail.add, hnew]
    constructor
    · show some ((ring.trim _).push entry).capacity = _
      rw [capacity_push, Ring.capacity_trim, hcapacity]
    · show ((ring.trim _).push entry).toList = _
      rw [toList_trim_push hpos (Nat.min_le_right _ _), hcapacity, hentries]

theorem Represents.handle {trail : Trail} {p : PlainTrail} (h : Represents trail p)
    (event : Event) : Represents (Breadcrumbs.handle trail event) (p.handle event) := by
  cases event with
  | add call => exact h.add call
  | clear =>
    constructor
    · rw [PlainTrail.handle, ← h.capacity]
      cases trail <;> rfl
    · cases trail <;> rfl

theorem represents_run (events : List Event) {trail : Trail} {p : PlainTrail}
    (h : Represents trail p) :
    Represents (events.foldl handle trail) (events.foldl PlainTrail.handle p) := by
  induction events generalizing trail p with
  | nil => exact h
  | cons event events ih => exact ih (h.handle event)

theorem snapshot_eq (trail : Trail) :
    snapshot trail = if entries trail = [] then none else some (entries trail) := by
  cases trail with
  | none => rfl
  | some ring =>
    have hempty : ring.toList = [] ↔ ring.count = 0 := by
      rw [← Ring.length_toList, List.length_eq_zero_iff]
    show (if ring.count = 0 then none else some ring.toList) =
      if ring.toList = [] then none else some ring.toList
    simp only [hempty]

end ForgeOps.Breadcrumbs
