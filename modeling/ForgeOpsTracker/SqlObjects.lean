import ForgeOpsTracker.SqlMaskText

/-! What `forgeops_sql_objects_json` answers: an operation of its table, and names that are whole
identifiers and stand in the statement as such. -/

namespace ForgeOps.SqlStatement

/-! ## Where a name starts and ends -/

/-- No blank, and no part of a longer character. -/
def isEdge (c : UInt8) : Bool := !isSpaceChar c && Byte.isAscii c

theorem isEdge_of_isBareChar {c : UInt8} (h : isBareChar c = true) : isEdge c = true := by
  simp only [isBareChar, Bool.or_eq_true, beq_iff_eq] at h
  rcases h with ((h | rfl) | rfl) | rfl
  · have hascii := isAscii_of_isWord h
    have hspace : isSpaceChar c = false := by
      by_contra hspace
      rw [Bool.not_eq_false] at hspace
      simp only [isSpaceChar, Byte.isSpace, Bool.or_eq_true, Bool.and_eq_true, beq_iff_eq,
        decide_eq_true_eq] at hspace
      simp only [isWord, Byte.isWord, Byte.isAlnum, Byte.isAlpha, Byte.isUpper,
        Byte.isLower, Byte.isDigit, Bool.or_eq_true, Bool.and_eq_true, decide_eq_true_eq,
        beq_iff_eq] at h
      grind
    rw [isEdge, hspace, hascii]
    rfl
  · rfl
  · rfl
  · rfl

/-- The byte before position `n` is the last of a name. -/
def EndsAt (s : Bytes) (n : Nat) : Prop := 0 < n ∧ ∃ b ∈ s[n - 1]?, isEdge b = true

theorem EndsAt.le {s : Bytes} {n : Nat} (h : EndsAt s n) : n ≤ s.length := by
  obtain ⟨hpos, b, hb, -⟩ := h
  have hlt := (List.getElem?_eq_some_iff.mp (Option.mem_def.mp hb)).1
  omega

theorem EndsAt.drop {s : Bytes} {n k : Nat} (h : EndsAt (s.drop k) n) : EndsAt s (k + n) := by
  obtain ⟨hpos, b, hb, hedge⟩ := h
  rw [List.getElem?_drop] at hb
  exact ⟨by omega, b, by rwa [Nat.add_sub_assoc hpos], hedge⟩

theorem namePartEnd_spec {s : Bytes} {n : Nat} (h : namePartEnd s = some n) :
    (∃ c ∈ s.head?, isEdge c = true) ∧ EndsAt s n := by
  cases s with
  | nil => exact absurd h (by simp [namePartEnd])
  | cons c s =>
    rw [namePartEnd] at h
    split at h
    · rename_i hbare
      obtain rfl := Option.some.inj h
      refine ⟨⟨c, rfl, isEdge_of_isBareChar hbare⟩, by omega, ?_⟩
      have hrun : ((c :: s).takeWhile isBareChar).length = 1 + (s.takeWhile isBareChar).length := by
        rw [List.takeWhile_cons_of_pos hbare, List.length_cons, Nat.add_comm]
      obtain ⟨b, hb, hbare⟩ := exists_of_lt_takeWhile (p := isBareChar) (s := c :: s)
        (i := 1 + (s.takeWhile isBareChar).length - 1) (by omega)
      exact ⟨b, hb, isEdge_of_isBareChar hbare⟩
    · split at h
      · rename_i hquote
        have hedge : isEdge c = true ∧ isEdge (if c = 91 then 93 else c) = true := by
          rcases hquote with rfl | rfl | rfl <;> exact ⟨rfl, rfl⟩
        dsimp only at h
        generalize (if c = 91 then 93 else c) = closer at h hedge
        split at h
        · rename_i hinside
          obtain rfl := Option.some.inj h
          obtain ⟨b, hb, hcloser⟩ := getElem?_takeWhile_length hinside.1
          obtain rfl : b = closer := by simpa using hcloser
          exact ⟨⟨c, rfl, hedge.1⟩, by omega, b, hb, hedge.2⟩
        · exact absurd h (by simp)
      · exact absurd h (by simp)

theorem nameEndFrom_spec {s : Bytes} (turns : Nat) {last : Nat} (h : EndsAt s last) :
    EndsAt s (nameEndFrom s turns last) := by
  induction turns generalizing last with
  | zero => exact h
  | succ turns ih =>
    rw [nameEndFrom]
    split
    · split
      · rename_i n hn
        exact ih (namePartEnd_spec hn).2.drop
      · exact h
    · exact h

theorem nameEnd_spec {s : Bytes} {n : Nat} (h : nameEnd s = some n) :
    (∃ c ∈ s.head?, isEdge c = true) ∧ EndsAt s n := by
  obtain ⟨m, hm, rfl⟩ := Option.map_eq_some_iff.mp h
  obtain ⟨hhead, hend⟩ := namePartEnd_spec hm
  exact ⟨hhead, nameEndFrom_spec s.length hend⟩

/-! ## Name tokens -/

/-- A name that the tokenizer finds in a text. -/
def IsNameToken (text name : Bytes) : Prop :=
  ∃ token ∈ tokenize text, token.isName = true ∧ token.text = name

theorem IsNameToken.spec {text name : Bytes} (h : IsNameToken text name) :
    (∃ c ∈ name.head?, isEdge c = true) ∧ EndsAt name name.length ∧ (Utf8 text → Utf8 name) := by
  obtain ⟨token, htoken, hname, rfl⟩ := h
  obtain ⟨found, hfound, hsome⟩ := List.mem_filterMap.mp htoken
  obtain ⟨before, c, rest, htext, rfl⟩ := mem_scan hfound
  unfold nextToken at hsome
  split at hsome
  · exact absurd hsome (by simp)
  split at hsome
  swap
  · obtain rfl := Option.some.inj hsome
    exact absurd hname (by simp)
  rename_i n hn
  obtain rfl := Option.some.inj hsome
  obtain ⟨⟨d, hd, hedge⟩, hend⟩ := nameEnd_spec hn
  obtain rfl : c = d := Option.some.inj hd
  have hle := hend.le
  obtain ⟨hpos, b, hb, hlast⟩ := hend
  dsimp only
  rw [List.length_take_of_le hle]
  refine ⟨⟨c, ?_, hedge⟩, ⟨hpos, b, ?_, hlast⟩, fun hutf8 => ?_⟩
  · rw [List.head?_take, if_neg (by omega)]
    rfl
  · rw [List.getElem?_take, if_pos (by omega)]
    exact hb
  · simp only [isEdge, Bool.and_eq_true] at hedge hlast
    rw [htext] at hutf8
    have hsuffix := (hutf8.split (boundary_of_isAscii hedge.2 rest)).2
    have htake := hsuffix.take_succ hb hlast.2
    rwa [Nat.sub_add_cancel hpos] at htake

/-- Nothing is trimmed off a name. -/
theorem trimmedName_eq {name : Bytes} (hhead : ∃ c ∈ name.head?, isEdge c = true)
    (hend : EndsAt name name.length) : trimmedName name = name.take maxNameLength := by
  have hspace : ∀ {c : UInt8}, isEdge c = true → isSpaceChar c = false := by
    intro c hc
    simp only [isEdge, Bool.and_eq_true, Bool.not_eq_true'] at hc
    exact hc.1
  have hfirst : name.dropWhile isSpaceChar = name := by
    obtain ⟨c, hc, hedge⟩ := hhead
    obtain ⟨rest, rfl⟩ := List.head?_eq_some_iff.mp hc
    exact List.dropWhile_cons_of_neg (by simp [hspace hedge])
  have hlast : name.reverse.dropWhile isSpaceChar = name.reverse := by
    obtain ⟨-, b, hb, hedge⟩ := hend
    rw [← List.getLast?_eq_getElem?, ← List.head?_reverse] at hb
    obtain ⟨rest, hrest⟩ := List.head?_eq_some_iff.mp hb
    rw [hrest]
    exact List.dropWhile_cons_of_neg (by simp [hspace hedge])
  rw [trimmedName, hfirst, hlast, List.reverse_reverse]

/-! ## The collectors -/

theorem mem_keptTokens {n : Nat} {ts : List Token} {t : Token}
    (h : t ∈ keptTokens n ts) : t ∈ ts := by
  induction ts generalizing n with
  | nil => cases n <;> exact absurd h List.not_mem_nil
  | cons u ts ih =>
    cases n with
    | succ n => exact List.mem_cons_of_mem u (ih h)
    | zero =>
      rw [keptTokens] at h
      split at h
      · exact List.mem_cons_of_mem u (ih h)
      · rcases List.mem_cons.mp h with rfl | h
        · exact List.mem_cons_self
        · exact List.mem_cons_of_mem u (ih h)

/-- A name of one of these tokens. -/
def NameOf (ts : List Token) (name : Bytes) : Prop := ∃ t ∈ ts, t.isName = true ∧ t.text = name

theorem NameOf.mono {ts us : List Token} {name : Bytes} (h : NameOf ts name)
    (hsub : ∀ t ∈ ts, t ∈ us) : NameOf us name := by
  obtain ⟨t, ht, hname⟩ := h
  exact ⟨t, hsub t ht, hname⟩

theorem mem_procedureNames {ts : List Token} {name : Bytes} (h : name ∈ procedureNames ts) :
    NameOf ts name := by
  fun_induction procedureNames ts with
  | case1 keyword t ts hcall firstPart hnot ih =>
    exact (ih h).mono fun _ => List.mem_cons_of_mem keyword
  | case2 keyword t ts hcall firstPart hnot ih =>
    rcases List.mem_cons.mp h with rfl | h
    · exact ⟨t, List.mem_cons_of_mem _ List.mem_cons_self, hcall.2.2, rfl⟩
    · exact (ih h).mono fun u hu => List.mem_cons_of_mem _ (List.mem_cons_of_mem _ hu)
  | case3 keyword t ts hcall ih => exact (ih h).mono fun _ => List.mem_cons_of_mem keyword
  | case4 => exact absurd h List.not_mem_nil

theorem mem_relationNames {ts : List Token} {name : Bytes × Bool} (h : name ∈ relationNames ts) :
    NameOf ts name.1 := by
  fun_induction relationNames ts with
  | case1 keyword t ts hkeyword hnot ih =>
    exact (ih h).mono fun u hu => List.mem_cons_of_mem _ (List.mem_cons_of_mem _ hu)
  | case2 keyword t ts hkeyword hnot paren ih =>
    rcases List.mem_cons.mp h with rfl | h
    · exact ⟨t, List.mem_cons_of_mem _ List.mem_cons_self, hkeyword.2.2, rfl⟩
    · exact (ih h).mono fun u hu => List.mem_cons_of_mem _ (List.mem_cons_of_mem _ hu)
  | case3 keyword t ts hkeyword ih => exact (ih h).mono fun _ => List.mem_cons_of_mem keyword
  | case4 => exact absurd h List.not_mem_nil

theorem mem_selectedFunction {ts : List Token} {name : Bytes} (h : name ∈ selectedFunction ts) :
    NameOf ts name := by
  unfold selectedFunction at h
  split at h
  · rename_i select t paren rest
    split at h
    · rename_i hselect
      obtain rfl := List.mem_singleton.mp h
      exact ⟨t, List.mem_cons_of_mem _ List.mem_cons_self, hselect.2.2.1, rfl⟩
    · exact absurd h List.not_mem_nil
  · exact absurd h List.not_mem_nil

/-! ## The lists -/

/-- What a list of names is cut down to. -/
structure IsCleaned (names cleaned : List Bytes) : Prop where
  count : cleaned.length ≤ maxNames
  distinct : cleaned.Nodup
  full : ∀ name ∈ cleaned, isFullName name = true
  source : ∀ name ∈ cleaned, ∃ source ∈ names, name = trimmedName source

theorem cleanList_isCleaned (names : List Bytes) : IsCleaned names (cleanList names) := by
  have hfold : ∀ (rest : List Bytes) (kept : List Bytes), (∀ name ∈ rest, name ∈ names) →
      IsCleaned names kept → IsCleaned names (rest.foldl (fun kept name =>
        let name := trimmedName name
        if ¬ isFullName name ∨ name ∈ kept ∨ kept.length ≥ maxNames then kept
        else kept ++ [name]) kept) := by
    intro rest
    induction rest with
    | nil => exact fun kept _ h => h
    | cons source rest ih =>
      intro kept hrest h
      obtain ⟨hsource, hrest⟩ := List.forall_mem_cons.mp hrest
      refine ih _ hrest ?_
      dsimp only
      split
      · exact h
      · rename_i hnew
        simp only [not_or, not_not] at hnew
        obtain ⟨hfull, hfresh, hroom⟩ := hnew
        constructor
        · rw [List.length_append, List.length_singleton]
          omega
        · exact List.nodup_append.mpr ⟨h.distinct, List.nodup_singleton _, fun a ha b hb =>
            fun heq => hfresh (List.mem_singleton.mp hb ▸ heq ▸ ha)⟩
        · intro name hname
          rcases List.mem_append.mp hname with hname | hname
          · exact h.full name hname
          · exact List.mem_singleton.mp hname ▸ hfull
        · intro name hname
          rcases List.mem_append.mp hname with hname | hname
          · exact h.source name hname
          · exact ⟨source, hsource, List.mem_singleton.mp hname⟩
  exact hfold names [] (fun _ h => h) ⟨Nat.zero_le _, List.nodup_nil, by simp, by simp⟩

/-! ## The operation -/

theorem toUpper_toLower (c : UInt8) : Byte.toUpper (Byte.toLower c) = Byte.toUpper c := by
  have hall : ∀ n < 256, Byte.toUpper (Byte.toLower (UInt8.ofNat n)) =
      Byte.toUpper (UInt8.ofNat n) := by decide +kernel
  have hc := hall c.toNat c.toNat_lt
  rwa [UInt8.ofNat_toNat] at hc

theorem map_toUpper_of_inSet {word : Bytes} (h : inSet word operations = true) :
    word.map Byte.toUpper ∈ operations.map ascii := by
  obtain ⟨entry, hentry, heq⟩ := List.any_eq_true.mp h
  have hlower : word.map Byte.toLower = (ascii entry).map Byte.toLower :=
    by simpa [equalsIgnoringCase] using heq
  have hcapital : ∀ entry ∈ operations, (ascii entry).map Byte.toUpper = ascii entry := by decide
  have hupper : word.map Byte.toUpper = (ascii entry).map Byte.toUpper := by
    calc word.map Byte.toUpper
      _ = (word.map Byte.toLower).map Byte.toUpper := by
        rw [List.map_map]
        exact List.map_congr_left fun c _ => (toUpper_toLower c).symm
      _ = ((ascii entry).map Byte.toLower).map Byte.toUpper := by rw [hlower]
      _ = (ascii entry).map Byte.toUpper := by
        rw [List.map_map]
        exact List.map_congr_left fun c _ => toUpper_toLower c
  rw [hupper, hcapital entry hentry]
  exact List.mem_map_of_mem hentry

theorem operationOf_mem (ts : List Token) :
    operationOf ts = [] ∨ operationOf ts ∈ operations.map ascii := by
  cases ts with
  | nil => exact .inl rfl
  | cons t ts =>
    rw [operationOf]
    split
    · rename_i h
      exact .inr (map_toUpper_of_inSet h.2.2)
    · exact .inl rfl

/-! ## The object -/

def objectsMembers (operation : Bytes) (procedures relations : List Bytes) : List Json.Member :=
  (if operation ≠ [] then [⟨ascii "operation", JsonText.jsonString operation⟩] else []) ++
    [⟨ascii "procedures", jsonList procedures⟩, ⟨ascii "relations", jsonList relations⟩]

theorem jsonList_eq (names : List Bytes) :
    jsonList names = Json.array (names.map JsonText.jsonString) := by
  rw [jsonList, JsonText.commaSeparated_eq_joined]
  rfl

theorem objectsText_eq (operation : Bytes) (procedures relations : List Bytes) :
    ascii "\x7b" ++ (if operation ≠ [] then ascii "\"operation\":" ++
      JsonText.jsonString operation ++ ascii "," else []) ++ ascii "\"procedures\":" ++
      jsonList procedures ++ ascii ",\"relations\":" ++ jsonList relations ++ ascii "\x7d" =
        Json.object (objectsMembers operation procedures relations) := by
  rw [objectsMembers]
  split
  · simp [Json.object, Json.joined, Json.Member.text, Json.quoted, ascii]
  · simp [Json.object, Json.joined, Json.Member.text, Json.quoted, ascii]

theorem jsonList_wellFormed (names : List Bytes) : Json.WellFormed (jsonList names) := by
  rw [jsonList_eq]
  apply Json.array_wellFormed
  intro v hv
  obtain ⟨name, -, rfl⟩ := List.mem_map.mp hv
  exact JsonText.jsonString_wellFormed name

theorem reads_jsonList (names : List Bytes) :
    Json.Reads (jsonList names) (.array (names.map .string)) := by
  rw [jsonList_eq]
  apply Json.reads_array
  induction names with
  | nil => exact .nil
  | cons name names ih => exact .cons (JsonText.reads_jsonString name) ih

theorem objectsMembers_valid (operation : Bytes) (procedures relations : List Bytes) :
    ∀ m ∈ objectsMembers operation procedures relations, m.Valid := by
  intro m hm
  rw [objectsMembers] at hm
  rcases List.mem_append.mp hm with hm | hm
  · split at hm
    · obtain rfl := List.mem_singleton.mp hm
      exact ⟨Json.chars_of_plain rfl, JsonText.jsonString_wellFormed operation⟩
    · exact absurd hm List.not_mem_nil
  · simp only [List.mem_cons, List.not_mem_nil, or_false] at hm
    rcases hm with rfl | rfl
    · exact ⟨Json.chars_of_plain rfl, jsonList_wellFormed procedures⟩
    · exact ⟨Json.chars_of_plain rfl, jsonList_wellFormed relations⟩

/-- The answer as a reader sees it. -/
def objectsValue (operation : Option Bytes) (procedures relations : List Bytes) : Json.Value :=
  .object ((operation.map fun word => (ascii "operation", Json.Value.string word)).toList ++
    [(ascii "procedures", .array (procedures.map .string)),
      (ascii "relations", .array (relations.map .string))])

theorem reads_objects (operation : Bytes) (procedures relations : List Bytes) :
    Json.Reads (Json.object (objectsMembers operation procedures relations))
      (objectsValue (if operation ≠ [] then some operation else none) procedures relations) := by
  apply Json.reads_object
  have hlists :
      List.Forall₂
        (fun (n : Json.Member) (m : Bytes × Json.Value) => Json.ReadsMember n.name n.value m)
      [⟨ascii "procedures", jsonList procedures⟩, ⟨ascii "relations", jsonList relations⟩]
      [(ascii "procedures", .array (procedures.map .string)),
        (ascii "relations", .array (relations.map .string))] :=
    .cons (JsonText.readsMember_plain rfl (reads_jsonList procedures))
      (.cons (JsonText.readsMember_plain rfl (reads_jsonList relations)) .nil)
  rw [objectsMembers]
  split
  · exact .cons (JsonText.readsMember_string rfl operation) hlists
  · exact hlists

theorem objectsMembers_utf8 {operation : Bytes} {procedures relations : List Bytes}
    (hoperation : operation = [] ∨ operation ∈ operations.map ascii)
    (hprocedures : ∀ name ∈ procedures, Utf8 name) (hrelations : ∀ name ∈ relations, Utf8 name) :
    Utf8 (Json.object (objectsMembers operation procedures relations)) := by
  have hlist : ∀ {names : List Bytes}, (∀ name ∈ names, Utf8 name) → Utf8 (jsonList names) := by
    intro names hnames
    refine ((utf8_of_isAscii rfl).append (JsonText.utf8_commaSeparated fun text htext => ?_)).append
      (utf8_of_isAscii rfl)
    obtain ⟨name, hname, rfl⟩ := List.mem_map.mp htext
    exact JsonText.utf8_jsonString (hnames name hname)
  have hword : Utf8 operation := by
    rcases hoperation with rfl | hmem
    · exact utf8_nil
    · have hall : (operations.map ascii).all (fun word => word.all Byte.isAscii) = true := by decide
      exact utf8_of_isAscii (List.all_eq_true.mp hall operation hmem)
  apply JsonText.utf8_object
  intro m hm
  rw [objectsMembers] at hm
  rcases List.mem_append.mp hm with hm | hm
  · split at hm
    · obtain rfl := List.mem_singleton.mp hm
      exact ⟨utf8_of_isAscii rfl, JsonText.utf8_jsonString hword⟩
    · exact absurd hm List.not_mem_nil
  · simp only [List.mem_cons, List.not_mem_nil, or_false] at hm
    rcases hm with rfl | rfl
    · exact ⟨utf8_of_isAscii rfl, hlist hprocedures⟩
    · exact ⟨utf8_of_isAscii rfl, hlist hrelations⟩

/-! ## What is answered -/

/-- A list of names as it is sent. -/
structure IsNameList (text : Bytes) (names : List Bytes) : Prop where
  count : names.length ≤ 10
  distinct : names.Nodup
  length : ∀ name ∈ names, name.length ≤ 200
  full : ∀ name ∈ names, nameEnd name = some name.length
  token : ∀ name ∈ names, ∃ source, IsNameToken text source ∧
    (name = source ∨ name = source.take 200)

theorem IsCleaned.isNameList {text : Bytes} {names cleaned : List Bytes}
    (h : IsCleaned names cleaned) (hnames : ∀ name ∈ names, IsNameToken text name) :
    IsNameList text cleaned := by
  have hsource : ∀ name ∈ cleaned, ∃ source, IsNameToken text source ∧ name = source.take 200 := by
    intro name hname
    obtain ⟨source, hsource, rfl⟩ := h.source name hname
    obtain ⟨hhead, hend, -⟩ := (hnames source hsource).spec
    exact ⟨source, hnames source hsource, trimmedName_eq hhead hend⟩
  refine ⟨h.count, h.distinct, fun name hname => ?_, fun name hname => ?_, fun name hname => ?_⟩
  · obtain ⟨source, -, rfl⟩ := hsource name hname
    exact List.length_take_le 200 source
  · have hfull := h.full name hname
    simp only [isFullName, Bool.and_eq_true, decide_eq_true_eq] at hfull
    exact hfull.2
  · obtain ⟨source, htoken, heq⟩ := hsource name hname
    exact ⟨source, htoken, .inr heq⟩

/-- The names and the operation of an answer. -/
theorem objectsJson_eq_some {text json : Bytes} (h : objectsJson (some text) = some json) :
    ∃ operation procedures relations,
      json = Json.object (objectsMembers operation procedures relations) ∧
      (operation = [] ∨ operation ∈ operations.map ascii) ∧ IsNameList text procedures ∧
      IsNameList text relations := by
  have hkept : ∀ {name}, NameOf (keptTokens 0 (tokenize text)) name →
      IsNameToken text name := fun hname =>
    hname.mono fun t => mem_keptTokens
  simp only [objectsJson] at h
  split at h
  · exact absurd h (by simp)
  split at h
  swap
  · exact absurd h (by simp)
  obtain rfl := Option.some.inj h
  refine ⟨_, _, _, objectsText_eq _ _ _, operationOf_mem _, (cleanList_isCleaned _).isNameList
    fun name hname => ?_, (cleanList_isCleaned _).isNameList fun name hname => ?_⟩
  · rcases List.mem_append.mp hname with hname | hname
    · rcases List.mem_append.mp hname with hname | hname
      · exact hkept (mem_procedureNames hname)
      · obtain ⟨found, hfound, rfl⟩ := List.mem_map.mp hname
        exact hkept (mem_relationNames (List.mem_of_mem_filter hfound))
    · exact hkept (mem_selectedFunction hname)
  · obtain ⟨found, hfound, rfl⟩ := List.mem_map.mp hname
    exact hkept (mem_relationNames (List.mem_of_mem_filter hfound))

/-- Whatever the text, an answer is an object that names an operation of the table and whole
identifiers of the text. -/
theorem objectsJson_names {text json : Bytes} (h : objectsJson (some text) = some json) :
    Json.WellFormed json ∧ ∃ operation procedures relations,
      Json.parse json = some (objectsValue operation procedures relations) ∧
        (∀ word ∈ operation, word ∈ operations.map ascii) ∧
        IsNameList text procedures ∧ IsNameList text relations := by
  obtain ⟨operation, procedures, relations, rfl, hoperation, hprocedures, hrelations⟩ :=
    objectsJson_eq_some h
  refine ⟨Json.object_wellFormed (objectsMembers_valid operation procedures relations), _,
    procedures, relations, (reads_objects operation procedures relations).parse,
    fun word hword => ?_, hprocedures, hrelations⟩
  split at hword
  · obtain rfl := Option.some.inj hword
    exact hoperation.resolve_left ‹_›
  · exact absurd hword (by simp)

theorem objectsJson_names_call :
    ∃ json, objectsJson (some (ascii "EXEC [dbo].[close month] ?")) = some json ∧
      Json.WellFormed json ∧ ∃ operation procedures relations,
        Json.parse json = some (objectsValue operation procedures relations) ∧
        (∀ word ∈ operation, word ∈ operations.map ascii) ∧
        IsNameList (ascii "EXEC [dbo].[close month] ?") procedures ∧
        IsNameList (ascii "EXEC [dbo].[close month] ?") relations := by
  have hjson : objectsJson (some (ascii "EXEC [dbo].[close month] ?")) =
      some (ascii "\x7b\"operation\":\"EXEC\",\"procedures\":[\"[dbo].[close month]\"]" ++
        ascii ",\"relations\":[]\x7d") := by
    decide
  exact ⟨_, hjson, objectsJson_names hjson⟩

/-- What is taken out of valid text is valid text. -/
theorem objectsJson_utf8 {text json : Bytes} (h : objectsJson (some text) = some json)
    (hutf8 : Utf8 text) : Utf8 json := by
  obtain ⟨operation, procedures, relations, rfl, hoperation, hprocedures, hrelations⟩ :=
    objectsJson_eq_some h
  have hnames : ∀ {names}, IsNameList text names → ∀ name ∈ names, Utf8 name := by
    intro names hnames name hname
    obtain ⟨source, htoken, heq⟩ := hnames.token name hname
    have hsource := htoken.spec.2.2 hutf8
    rcases heq with rfl | rfl
    · exact hsource
    · -- a name that was cut ends with the last byte of an identifier
      obtain ⟨-, b, hb, hedge⟩ := (nameEnd_spec (hnames.full _ hname)).2
      rcases Nat.lt_or_ge 200 source.length with hlong | hshort
      · rw [List.length_take_of_le hlong.le, List.getElem?_take, if_pos (by decide)] at hb
        simp only [isEdge, Bool.and_eq_true] at hedge
        exact hsource.take_succ hb hedge.2
      · rwa [List.take_of_length_le hshort]
  exact objectsMembers_utf8 hoperation (hnames hprocedures) (hnames hrelations)

end ForgeOps.SqlStatement
