import ForgeOpsTracker.EventJson

/-! The configuration a program starts with (`configuration.c`): what its environment variables say,
the list of the context keys that strict privacy still sends, and what is left of that when memory
is short. -/

namespace ForgeOps.Configuration

/-! ## Reading the environment -/

/-- `dup_env_or` -/
def dupEnvOr (getenv : Bytes → Option Bytes) (name : Bytes) (fallback : Option Bytes) :
    Option Bytes :=
  match getenv name with
  | none => fallback
  | some value => if value = [] then fallback else some value

/-- What `calloc` and `malloc` give for a list of texts: the array, and the copy of its `i`-th
entry. -/
structure Memory where
  array : Bool
  copy : Nat → Bool

/-- `privacy_allowed_fields` and `privacy_allowed_field_count`. -/
structure AllowedFields where
  fields : List (Option Bytes)
  count : Nat

/-- `fields[count++] = field`; `none` when that would be behind the array. -/
def AllowedFields.store (a : AllowedFields) (field : Bytes) : Option AllowedFields :=
  if a.count < a.fields.length then some ⟨a.fields.set a.count (some field), a.count + 1⟩ else none

def isBlank (c : UInt8) : Bool := c == 32 || c == 9

/-- What is left between `from` and `to`. -/
def trimBlanks (piece : Bytes) : Bytes :=
  ((piece.dropWhile isBlank).reverse.dropWhile isBlank).reverse

/-- The loop over the pieces, the `i`-th of them beginning at `start`. -/
def readPieces (copy : Nat → Bool) (i : Nat) (start : Bytes) (a : AllowedFields) :
    Option AllowedFields :=
  let field := trimBlanks (start.takeWhile (· ≠ 44))
  match if field ≠ [] ∧ copy i then a.store field else some a with
  | none => none
  | some a =>
    match h : start.dropWhile (· ≠ 44) with
    | [] => some a
    | _ :: behind => readPieces copy (i + 1) behind a
termination_by start.length
decreasing_by
  have := List.length_dropWhile_le (· ≠ (44 : UInt8)) start
  rw [h, List.length_cons] at this
  omega

/-- `set_privacy_allowed_fields_from_list` on a new configuration. -/
def allowedFieldsFromList (memory : Memory) (list : Option Bytes) : Option AllowedFields :=
  match list with
  | none => some ⟨[], 0⟩
  | some list =>
    if list = [] ∨ ¬ memory.array then some ⟨[], 0⟩
    else readPieces memory.copy 0 list ⟨List.replicate (1 + list.count 44) none, 0⟩

/-- `forgeops_configuration_create`, `hostname` being what `safe_hostname` gives; every allocation
but those of the list succeeds. `none` when the list is written behind its array. -/
def create (getenv : Bytes → Option Bytes) (hostname : Option Bytes) (memory : Memory) :
    Option Configuration :=
  (allowedFieldsFromList memory
      (getenv (ascii "FORGE_OPS_PRIVACY_ALLOWED_FIELDS"))).map fun allowed =>
    { dsn := dupEnvOr getenv (ascii "FORGE_OPS_DSN") none
      environment := dupEnvOr getenv (ascii "FORGE_OPS_ENVIRONMENT") (some (ascii "production"))
      release := dupEnvOr getenv (ascii "FORGE_OPS_RELEASE") none
      serverName := hostname
      crashReportsDirectory :=
        (dupEnvOr getenv (ascii "TMPDIR") (some (ascii "/tmp"))).map fun directory =>
          directory ++ ascii "/forgeops-tracker/pending-crash-reports"
      scrubPii := true
      captureSourceContext := true
      captureSqlObjects := true
      captureSqlStatement := false
      trackBreadcrumbs := true
      maxBreadcrumbs := 30
      trackPerformance := true
      trackTracing := true
      traceCaptureThresholdMs := 1000
      enabledEnvironments := [ascii "production", ascii "staging"]
      strictPrivacy :=
        match getenv (ascii "FORGE_OPS_STRICT_PRIVACY") with
        | none => false
        | some value => equalsIgnoringCase value (ascii "true") || value == ascii "1"
      privacyAllowedFields := allowed.fields.take allowed.count }

/-! ## The array is never written past its end -/

/-- The array holds these fields and nothing else yet. -/
structure AllowedFields.Holds (a : AllowedFields) (kept : List Bytes) (capacity : Nat) : Prop where
  fields : a.fields = kept.map some ++ List.replicate (capacity - kept.length) none
  count : a.count = kept.length

theorem AllowedFields.Holds.store {a : AllowedFields} {kept : List Bytes} {capacity : Nat}
    (h : a.Holds kept capacity) (hroom : kept.length < capacity) (field : Bytes) :
    ∃ b, a.store field = some b ∧ b.Holds (kept ++ [field]) capacity := by
  obtain ⟨room, rfl⟩ : ∃ room, capacity = kept.length + (room + 1) :=
    ⟨capacity - kept.length - 1, by omega⟩
  have hbehind : List.replicate (kept.length + (room + 1) - kept.length) (none : Option Bytes) =
      none :: List.replicate room none := by
    rw [Nat.add_sub_cancel_left, List.replicate_succ]
  have hlength : a.count < a.fields.length := by
    rw [h.fields, hbehind, h.count]
    simp
  refine ⟨_, if_pos hlength, ?_, ?_⟩
  · rw [h.fields, hbehind, h.count, List.set_append_right _ _ (by simp)]
    simp [show kept.length + (room + 1) - (kept.length + 1) = room by omega]
  · rw [h.count, List.length_append, List.length_singleton]

/-- The pieces that become fields, the first of them being the `i`-th of the list. -/
def keptFields (copy : Nat → Bool) (i : Nat) : List Bytes → List Bytes
  | [] => []
  | piece :: pieces =>
    (if trimBlanks piece ≠ [] ∧ copy i then [trimBlanks piece] else []) ++
    keptFields copy (i + 1) pieces

example : keptFields (fun i => i ≠ 1) 0 ((ascii "error_code,\tshop , ,feature ").splitOn 44) =
    [ascii "error_code", ascii "feature"] := by decide

theorem splitOn_comma (start : Bytes) : start.splitOn 44 = start.takeWhile (· ≠ 44) ::
    match start.dropWhile (· ≠ 44) with
    | [] => []
    | _ :: behind => behind.splitOn 44 := by
  have hpiece : (44 : UInt8) ∉ start.takeWhile (· ≠ 44) := fun h =>
    by simpa using List.mem_takeWhile_imp h
  have hsplit := List.takeWhile_append_dropWhile
    (p := fun c : UInt8 => decide (c ≠ 44)) (l := start)
  cases hrest : start.dropWhile (· ≠ 44) with
  | nil =>
    rw [hrest, List.append_nil] at hsplit
    rw [hsplit] at hpiece ⊢
    exact List.splitOn_eq_singleton hpiece
  | cons c behind =>
    have hcomma : c = 44 := by
      have hnot := List.head?_dropWhile_not (fun c : UInt8 => decide (c ≠ 44)) start
      rw [hrest] at hnot
      simpa using hnot
    rw [hrest, hcomma] at hsplit
    conv_lhs => rw [← hsplit]
    exact List.splitOn_append_cons_self_of_not_mem hpiece behind

theorem length_splitOn_comma (list : Bytes) : (list.splitOn 44).length = 1 + list.count 44 := by
  induction list with
  | nil => rfl
  | cons c list ih =>
    rw [List.splitOn_cons_eq_if_modifyHead, List.count_cons]
    split
    · rw [List.length_cons, ih]
      omega
    · rw [List.length_modifyHead, ih]
      rfl

/-- Reading the rest of a list adds the fields of its pieces, when there is room for all of them. -/
theorem readPieces_holds (copy : Nat → Bool) {capacity : Nat} {pieces : List Bytes} (i : Nat)
    {start : Bytes} (hpieces : start.splitOn 44 = pieces) {a : AllowedFields} {kept : List Bytes}
    (h : a.Holds kept capacity) (hroom : kept.length + pieces.length ≤ capacity) :
    ∃ b,
      readPieces copy i start a = some b ∧ b.Holds (kept ++ keptFields copy i pieces) capacity := by
  induction pieces generalizing i start a kept with
  | nil => exact absurd hpieces (List.splitOn_ne_nil _ _)
  | cons piece pieces ih =>
    rw [splitOn_comma] at hpieces
    obtain ⟨hpiece, hrest⟩ := List.cons.inj hpieces
    rw [List.length_cons] at hroom
    -- the piece itself, whether or not it is stored
    have hstored : ∃ b,
        (if trimBlanks piece ≠ [] ∧ copy i = true then a.store (trimBlanks piece) else some a) =
          some b ∧
        b.Holds (kept ++ if trimBlanks piece ≠ [] ∧ copy i then [trimBlanks piece] else [])
          capacity := by
      split
      · exact h.store (by omega) _
      · exact ⟨a, rfl, (List.append_nil kept).symm ▸ h⟩
    obtain ⟨b, hb, hholds⟩ := hstored
    rw [readPieces, hpiece, hb, keptFields, ← List.append_assoc]
    cases hbehind : start.dropWhile (· ≠ 44) with
    | nil =>
      rw [hbehind] at hrest
      rw [← hrest, keptFields, List.append_nil]
      exact ⟨b, rfl, hholds⟩
    | cons c behind =>
      rw [hbehind] at hrest
      have hroom' : (kept ++ if trimBlanks piece ≠ [] ∧ copy i = true then [trimBlanks piece]
          else []).length + pieces.length ≤ capacity := by
        rw [List.length_append]
        split
        · rw [List.length_singleton]
          omega
        · rw [List.length_nil]
          omega
      obtain ⟨d, hd, hholds'⟩ := ih (i + 1) hrest hholds hroom'
      exact ⟨d, hd, hholds'⟩

/-- The fields of a list, as many of them as there is memory for. -/
def fieldsOf (memory : Memory) (list : Option Bytes) : List Bytes :=
  match list with
  | none => []
  | some list => if memory.array then keptFields memory.copy 0 (list.splitOn 44) else []

theorem allowedFieldsFromList_eq (memory : Memory) (list : Option Bytes) :
    ∃ a, allowedFieldsFromList memory list = some a ∧ a.fields.take a.count =
      (fieldsOf memory list).map some := by
  cases list with
  | none => exact ⟨_, rfl, rfl⟩
  | some list =>
    rw [allowedFieldsFromList, fieldsOf]
    by_cases hempty : list = []
    · refine ⟨_, if_pos (.inl hempty), ?_⟩
      rw [hempty]
      cases memory.array with
      | false => rfl
      | true => simp [keptFields, trimBlanks]
    · by_cases harray : memory.array = true
      · have hnew : AllowedFields.Holds ⟨List.replicate (1 + list.count 44) none, 0⟩ []
            (1 + list.count 44) := ⟨rfl, rfl⟩
        obtain ⟨a, ha, hholds⟩ := readPieces_holds memory.copy 0 rfl hnew (by
          rw [length_splitOn_comma, List.length_nil, Nat.zero_add])
        rw [List.nil_append] at hholds
        refine ⟨a, (if_neg (by simp [hempty, harray])).trans ha, ?_⟩
        rw [if_pos harray, hholds.fields, hholds.count, List.take_left' (List.length_map _)]
      · exact ⟨_, if_pos (.inr harray), by rw [if_neg harray]; rfl⟩

/-! ## The keys a list names -/

/-- The list has the key between two of its commas, with blanks around it or none. -/
structure Names (list key : Bytes) : Prop where
  entry : ∃ before behind, before ++ key ++ behind ∈ list.splitOn 44 ∧
    (∀ c ∈ before, isBlank c = true) ∧ ∀ c ∈ behind, isBlank c = true
  first : ∃ c ∈ key.head?, isBlank c = false
  last : ∃ c ∈ key.getLast?, isBlank c = false

theorem dropWhile_padded {before key : Bytes} (hbefore : ∀ c ∈ before, isBlank c = true)
    (hfirst : ∃ c ∈ key.head?, isBlank c = false) : (before ++ key).dropWhile isBlank = key := by
  rw [List.dropWhile_append_of_pos hbefore]
  obtain ⟨c, hc, hplain⟩ := hfirst
  cases key with
  | nil => exact absurd hc (Option.not_mem_none c)
  | cons d key =>
    obtain rfl : d = c := Option.some.inj hc
    exact List.dropWhile_cons_of_neg (by rw [hplain]; exact Bool.false_ne_true)

theorem trimBlanks_padded {before key behind : Bytes} (hbefore : ∀ c ∈ before, isBlank c = true)
    (hbehind : ∀ c ∈ behind, isBlank c = true) (hfirst : ∃ c ∈ key.head?, isBlank c = false)
    (hlast : ∃ c ∈ key.getLast?, isBlank c = false) :
    trimBlanks (before ++ key ++ behind) = key := by
  have hfront : ∃ c ∈ (key ++ behind).head?, isBlank c = false := by
    obtain ⟨c, hc, hplain⟩ := hfirst
    refine ⟨c, ?_, hplain⟩
    cases key with
    | nil => exact absurd hc (Option.not_mem_none c)
    | cons d key => exact hc
  rw [trimBlanks, List.append_assoc, dropWhile_padded hbefore hfront, List.reverse_append,
    dropWhile_padded (fun c hc => hbehind c (List.mem_reverse.mp hc)) (by rwa [List.head?_reverse]),
    List.reverse_reverse]

theorem dropWhile_first {s : Bytes} (h : s.dropWhile isBlank ≠ []) :
    ∃ c ∈ (s.dropWhile isBlank).head?, isBlank c = false := by
  obtain ⟨c, rest, hrest⟩ := List.exists_cons_of_ne_nil h
  have hnot := List.head?_dropWhile_not isBlank s
  rw [hrest] at hnot ⊢
  exact ⟨c, rfl, by simpa using hnot⟩

/-- A piece is its field with blanks around it. -/
theorem names_of_trimBlanks {list piece : Bytes} (hpiece : piece ∈ list.splitOn 44)
    (h : trimBlanks piece ≠ []) : Names list (trimBlanks piece) := by
  have hback : (piece.dropWhile isBlank).reverse.dropWhile isBlank ≠ [] := fun heq =>
    h (by rw [trimBlanks, heq]; rfl)
  have hsplit : trimBlanks piece ++ ((piece.dropWhile isBlank).reverse.takeWhile isBlank).reverse =
      piece.dropWhile isBlank := by
    rw [trimBlanks, ← List.reverse_append, List.takeWhile_append_dropWhile, List.reverse_reverse]
  have hfront : piece.dropWhile isBlank ≠ [] := fun heq => hback (by rw [heq]; rfl)
  constructor
  case entry =>
    refine ⟨piece.takeWhile isBlank,
      ((piece.dropWhile isBlank).reverse.takeWhile isBlank).reverse, ?_, ?_, ?_⟩
    · rw [List.append_assoc, hsplit, List.takeWhile_append_dropWhile]
      exact hpiece
    · exact fun c hc => List.mem_takeWhile_imp hc
    · exact fun c hc => List.mem_takeWhile_imp (List.mem_reverse.mp hc)
  case first =>
    obtain ⟨c, hc, hplain⟩ := dropWhile_first hfront
    refine ⟨c, ?_, hplain⟩
    rwa [← hsplit, List.head?_append_of_ne_nil _ h] at hc
  case last =>
    obtain ⟨c, hc, hplain⟩ := dropWhile_first hback
    refine ⟨c, ?_, hplain⟩
    rwa [trimBlanks, List.getLast?_reverse]

theorem mem_keptFields {copy : Nat → Bool} {pieces : List Bytes} {i : Nat} {field : Bytes}
    (h : field ∈ keptFields copy i pieces) :
    field ≠ [] ∧ ∃ piece ∈ pieces, trimBlanks piece = field := by
  induction pieces generalizing i with
  | nil => exact absurd h List.not_mem_nil
  | cons piece pieces ih =>
    rcases List.mem_append.mp h with h | h
    · split at h
      · rename_i hkept
        obtain rfl := List.mem_singleton.mp h
        exact ⟨hkept.1, piece, List.mem_cons_self, rfl⟩
      · exact absurd h List.not_mem_nil
    · obtain ⟨hne, other, hother, htrim⟩ := ih h
      exact ⟨hne, other, List.mem_cons_of_mem _ hother, htrim⟩

theorem mem_keptFields_of_piece {copy : Nat → Bool} (hcopy : ∀ i, copy i = true)
    {pieces : List Bytes} (i : Nat) {piece : Bytes} (hpiece : piece ∈ pieces)
    (hne : trimBlanks piece ≠ []) : trimBlanks piece ∈ keptFields copy i pieces := by
  induction pieces generalizing i with
  | nil => exact absurd hpiece List.not_mem_nil
  | cons first pieces ih =>
    rcases List.mem_cons.mp hpiece with rfl | hin
    · exact List.mem_append_left _ (by rw [if_pos ⟨hne, hcopy i⟩]; exact List.mem_cons_self)
    · exact List.mem_append_right _ (ih (i + 1) hin)

theorem allowsField_iff (config : Configuration) (key : Bytes) :
    StrictPrivacy.allowsField config key = true ↔ some key ∈ config.privacyAllowedFields := by
  simp [StrictPrivacy.allowsField]

/-- Whether the variable turns strict privacy on. -/
def turnsOn : Option Bytes → Bool
  | none => false
  | some value => equalsIgnoringCase value (ascii "true") || value == ascii "1"

theorem turnsOn_iff (value : Option Bytes) : turnsOn value = true ↔
    ∃ text, value = some text ∧ (text.map Byte.toLower = ascii "true" ∨ text = ascii "1") := by
  have hlower : (ascii "true").map Byte.toLower = ascii "true" := by decide
  cases value with
  | none => simp [turnsOn]
  | some text => simp [turnsOn, equalsIgnoringCase, hlower]

theorem create_eq (getenv : Bytes → Option Bytes) (hostname : Option Bytes) (memory : Memory) :
    ∃ config, create getenv hostname memory = some config ∧
      config.strictPrivacy = turnsOn (getenv (ascii "FORGE_OPS_STRICT_PRIVACY")) ∧
      config.privacyAllowedFields =
        (fieldsOf memory (getenv (ascii "FORGE_OPS_PRIVACY_ALLOWED_FIELDS"))).map some := by
  obtain ⟨a, ha, hfields⟩ := allowedFieldsFromList_eq memory
    (getenv (ascii "FORGE_OPS_PRIVACY_ALLOWED_FIELDS"))
  refine ⟨_, by rw [create, ha]; rfl, ?_, hfields⟩
  cases getenv (ascii "FORGE_OPS_STRICT_PRIVACY") <;> rfl

theorem names_of_mem {memory : Memory} {list : Option Bytes} {key : Bytes}
    (h : key ∈ fieldsOf memory list) : ∃ text, list = some text ∧ Names text key := by
  cases list with
  | none => exact absurd h List.not_mem_nil
  | some text =>
    rw [fieldsOf] at h
    split at h
    · obtain ⟨hne, piece, hpiece, rfl⟩ := mem_keptFields h
      exact ⟨text, rfl, names_of_trimBlanks hpiece hne⟩
    · exact absurd h List.not_mem_nil

theorem mem_of_names {memory : Memory} (harray : memory.array = true)
    (hcopy : ∀ i, memory.copy i = true) {list key : Bytes} (h : Names list key) :
    key ∈ fieldsOf memory (some list) := by
  obtain ⟨before, behind, hpiece, hbefore, hbehind⟩ := h.entry
  have htrim := trimBlanks_padded hbefore hbehind h.first h.last
  have hne : key ≠ [] := by
    rintro rfl
    obtain ⟨c, hc, -⟩ := h.first
    exact absurd hc (Option.not_mem_none c)
  rw [fieldsOf, if_pos harray]
  rw [← htrim] at hne
  exact htrim ▸ mem_keptFields_of_piece hcopy 0 hpiece hne

/-- Every program gets its configuration, however short memory is. Strict privacy is on when its
variable says so, and then no pair of a context is sent but under a key that the list of the other
variable names; with memory for the list, all of these are sent. -/
theorem create_allows (getenv : Bytes → Option Bytes) (hostname : Option Bytes) (memory : Memory) :
    ∃ config, create getenv hostname memory = some config ∧
      (config.strictPrivacy = true ↔ ∃ value,
        getenv (ascii "FORGE_OPS_STRICT_PRIVACY") = some value ∧
        (value.map Byte.toLower = ascii "true" ∨ value = ascii "1")) ∧
      (config.strictPrivacy = true → ∀ context, ∀ pair ∈ EventBuilder.keptPairs config context,
        pair ∈ context ∧ ∃ list key value,
          getenv (ascii "FORGE_OPS_PRIVACY_ALLOWED_FIELDS") = some list ∧
          pair = (some key, some value) ∧ Names list key) ∧
      (memory.array = true → (∀ i, memory.copy i = true) → ∀ context list,
        getenv (ascii "FORGE_OPS_PRIVACY_ALLOWED_FIELDS") = some list →
        ∀ key value, Names list key → (some key, some value) ∈ context →
          (some key, some value) ∈ EventBuilder.keptPairs config context) := by
  obtain ⟨config, hcreate, hstrict, hfields⟩ := create_eq getenv hostname memory
  have hallows : ∀ key, StrictPrivacy.allowsField config key = true ↔
      key ∈ fieldsOf memory (getenv (ascii "FORGE_OPS_PRIVACY_ALLOWED_FIELDS")) := by
    intro key
    rw [allowsField_iff, hfields, List.mem_map_of_injective (Option.some_injective _)]
  refine ⟨config, hcreate, by rw [hstrict, turnsOn_iff], ?_, ?_⟩
  · intro hon context pair hpair
    obtain ⟨hin, hkept⟩ := List.mem_filter.mp hpair
    refine ⟨hin, ?_⟩
    rw [hon, Bool.true_and, Bool.not_not] at hkept
    obtain ⟨_ | key, _ | value⟩ := pair
    · exact absurd hkept Bool.false_ne_true
    · exact absurd hkept Bool.false_ne_true
    · exact absurd hkept Bool.false_ne_true
    · obtain ⟨list, hlist, hnames⟩ := names_of_mem ((hallows key).mp hkept)
      exact ⟨list, key, value, hlist, rfl, hnames⟩
  · intro harray hcopy context list hlist key value hnames hin
    have hkept : EventBuilder.keepsPair config (some key, some value) = true :=
      (hallows key).mpr (hlist ▸ mem_of_names harray hcopy hnames)
    refine List.mem_filter.mpr ⟨hin, ?_⟩
    rw [hkept]
    simp

end ForgeOps.Configuration
