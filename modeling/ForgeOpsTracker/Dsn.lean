import ForgeOpsTracker.Lib.Lines
import ForgeOpsTracker.Configuration

/-! What a DSN says (`configuration.c`): the key to send under and the URL to send to, against the
parts it is written from. The split looks for an at sign up to the end of the text, so one in the
path or the query of a DSN without userinfo is taken for the end of a userinfo. -/

namespace ForgeOps.Configuration

/-- `forgeops_configuration_ingestion_url` -/
def ingestionUrl (config : Configuration) : Option Bytes :=
  match config.dsn with
  | none => none
  | some dsn =>
    if dsn = [] then none
    else (splitDsn dsn).map fun parts => parts.scheme ++ ascii "://" ++ parts.host

/-! ## Splitting at the first occurrence -/

theorem splitAtFirst_text {needle text before after : Bytes}
    (h : splitAtFirst needle text = some (before, after)) : text = before ++ needle ++ after := by
  induction text generalizing before after with
  | nil =>
    rw [splitAtFirst] at h
    split at h
    · rename_i hneedle
      obtain ⟨rfl, rfl⟩ := Prod.mk.inj (Option.some.inj h)
      rw [hneedle]
      rfl
    · cases h
  | cons c text ih =>
    rw [splitAtFirst] at h
    split at h
    · rename_i hprefix
      obtain ⟨rest, hrest⟩ := List.isPrefixOf_iff_prefix.mp hprefix
      obtain ⟨rfl, rfl⟩ := Prod.mk.inj (Option.some.inj h)
      rw [← hrest, List.nil_append, List.drop_left]
    · obtain ⟨⟨inner, later⟩, hinner, hpair⟩ := Option.map_eq_some_iff.mp h
      obtain ⟨rfl, rfl⟩ := Prod.mk.inj hpair
      rw [List.cons_append, List.cons_append, ← ih hinner]

/-- What stands before the needle's first byte is passed over. -/
theorem splitAtFirst_append {c : UInt8} {needle before : Bytes} (hbefore : c ∉ before)
    (after : Bytes) :
    splitAtFirst (c :: needle) (before ++ (c :: needle) ++ after) = some (before, after) := by
  induction before with
  | nil =>
    have hprefix : (c :: needle).isPrefixOf (c :: needle ++ after) = true :=
      List.isPrefixOf_iff_prefix.mpr (List.prefix_append _ _)
    rw [List.cons_append] at hprefix
    rw [List.nil_append, List.cons_append, splitAtFirst, if_pos hprefix, ← List.cons_append,
      List.drop_left]
  | cons d before ih =>
    obtain ⟨hd, hrest⟩ := not_or.mp (List.mem_cons.not.mp hbefore)
    rw [List.cons_append, List.cons_append, splitAtFirst, if_neg, ih hrest]
    · rfl
    · simp [hd]

theorem splitAtFirst_eq_none_iff {c : UInt8} {text : Bytes} :
    splitAtFirst [c] text = none ↔ c ∉ text := by
  induction text with
  | nil => simp [splitAtFirst]
  | cons d text ih =>
    rw [splitAtFirst]
    split
    · rename_i hprefix
      have hcd : c = d := by simpa using hprefix
      simp [hcd]
    · rename_i hprefix
      have hcd : c ≠ d := by simpa using hprefix
      rw [Option.map_eq_none_iff, ih, List.mem_cons, not_or]
      exact ⟨fun h => ⟨hcd, h⟩, And.right⟩

/-! ## Percent-decoding -/

/-- `digit` is the hexadecimal digit, of either case, for `value`. -/
def IsHexDigit (digit : UInt8) (value : Nat) : Prop :=
  value < 16 ∧ Byte.toLower digit = ForgeOps.hexDigit value

/-- The text with every percent sign that two hexadecimal digits follow decoded, and any other
kept. -/
inductive PercentDecoded : Bytes → Bytes → Prop
  | nil : PercentDecoded [] []
  | escape {a b : UInt8} {hi lo : Nat} {text decoded : Bytes} (ha : IsHexDigit a hi)
      (hb : IsHexDigit b lo) (h : PercentDecoded text decoded) :
      PercentDecoded (37 :: a :: b :: text) (UInt8.ofNat (hi * 16 + lo) :: decoded)
  | kept {c : UInt8} {text decoded : Bytes}
      (hc : c = 37 → ¬∃ a b hi lo rest, text = a :: b :: rest ∧ IsHexDigit a hi ∧ IsHexDigit b lo)
      (h : PercentDecoded text decoded) : PercentDecoded (c :: text) (c :: decoded)

theorem hexDigit_iff (digit : UInt8) (value : Nat) :
    hexDigit digit = some value ↔ IsHexDigit digit value := by
  have hbyte := UInt8.toNat_lt digit
  rw [IsHexDigit, ← UInt8.toNat_inj]
  unfold hexDigit Byte.toLower Byte.isUpper Byte.isDigit ForgeOps.hexDigit
  simp only [UInt8.le_iff_toNat_le, Bool.and_eq_true, decide_eq_true_eq, apply_ite UInt8.toNat,
    UInt8.toNat_add, UInt8.toNat_ofNat', UInt8.reduceToNat]
  split_ifs <;> simp only [Option.some.injEq, false_iff] <;> omega

/-- A percent sign that does not begin an escape. -/
theorem not_escape {a b : UInt8} {rest : Bytes}
    (h : ∀ hi lo, hexDigit a = some hi → hexDigit b = some lo → False) :
    ¬∃ a' b' hi lo rest', a :: b :: rest = a' :: b' :: rest' ∧ IsHexDigit a' hi ∧
    IsHexDigit b' lo := by
  rintro ⟨a', b', hi, lo, rest', heq, ha, hb⟩
  obtain ⟨rfl, rfl, -⟩ : a = a' ∧ b = b' ∧ rest = rest' := by simpa using heq
  exact h hi lo ((hexDigit_iff _ _).mpr ha) ((hexDigit_iff _ _).mpr hb)

theorem percentDecode_kept {a b : UInt8} {rest : Bytes}
    (h : ∀ hi lo, hexDigit a = some hi → hexDigit b = some lo → False) :
    percentDecode (37 :: a :: b :: rest) = 37 :: percentDecode (a :: b :: rest) := by
  rw [percentDecode]
  split
  · rename_i hi lo ha hb
    exact (h hi lo ha hb).elim
  · rfl

theorem percentDecoded_percentDecode (text : Bytes) : PercentDecoded text (percentDecode text) := by
  induction text using percentDecode.induct with
  | case1 a b rest hi lo hb ha ih =>
    rw [percentDecode, ha, hb]
    exact .escape ((hexDigit_iff _ _).mp ha) ((hexDigit_iff _ _).mp hb) ih
  | case2 a b rest h ih =>
    rw [percentDecode_kept h]
    exact .kept (fun _ => not_escape h) ih
  | case3 c rest h ih =>
    rw [percentDecode.eq_2 c rest h]
    refine .kept ?_ ih
    rintro hc ⟨a, b, hi, lo, rest', hrest, -, -⟩
    exact h a b rest' hc hrest
  | case4 => exact .nil

theorem IsHexDigit.unique {digit : UInt8} {a b : Nat} (ha : IsHexDigit digit a)
    (hb : IsHexDigit digit b) : a = b :=
  Option.some.inj (((hexDigit_iff digit a).mpr ha).symm.trans ((hexDigit_iff digit b).mpr hb))

/-- A text is decoded in one way. -/
theorem PercentDecoded.unique {text a b : Bytes} (ha : PercentDecoded text a)
    (hb : PercentDecoded text b) : a = b := by
  induction ha generalizing b with
  | nil =>
    cases hb
    rfl
  | escape hhi hlo _ ih =>
    cases hb with
    | escape hhi' hlo' hrest => rw [hhi.unique hhi', hlo.unique hlo', ih hrest]
    | kept hc _ => exact absurd ⟨_, _, _, _, _, rfl, hhi, hlo⟩ (hc rfl)
  | kept hc _ ih =>
    cases hb with
    | escape hhi hlo _ => exact absurd ⟨_, _, _, _, _, rfl, hhi, hlo⟩ (hc rfl)
    | kept _ hrest => rw [ih hrest]

theorem hexDigit_eq_zero {digit : UInt8} (h : hexDigit digit = some 0) : digit = 48 := by
  have hdigit := ((hexDigit_iff digit 0).mp h).2
  have hbyte := UInt8.toNat_lt digit
  rw [← UInt8.toNat_inj] at hdigit ⊢
  unfold Byte.toLower Byte.isUpper ForgeOps.hexDigit at hdigit
  simp only [UInt8.le_iff_toNat_le, Bool.and_eq_true, decide_eq_true_eq, apply_ite UInt8.toNat,
    UInt8.toNat_add, UInt8.toNat_ofNat', UInt8.reduceToNat] at hdigit ⊢
  split_ifs at hdigit <;> omega

/-- No NUL, written plainly or as an escape. -/
def NoNul (text : Bytes) : Prop := 0 ∉ text ∧ ¬ascii "%00" <:+: text

theorem NoNul.suffix {text rest : Bytes} (h : NoNul text) (hrest : rest <:+ text) : NoNul rest :=
  ⟨fun hin => h.1 (hrest.subset hin), fun hin => h.2 (hin.trans hrest.isInfix)⟩

theorem zero_notMem_percentDecode {text : Bytes} (hnul : NoNul text) : 0 ∉ percentDecode text := by
  induction text using percentDecode.induct with
  | case1 a b rest hi lo hb ha ih =>
    rw [percentDecode, ha, hb]
    refine List.not_mem_cons_of_ne_of_not_mem ?_
      (ih (hnul.suffix (List.suffix_append [37, a, b] rest)))
    intro hzero
    have hsum : hi = 0 ∧ lo = 0 := by
      have hhi := ((hexDigit_iff _ _).mp ha).1
      have hlo := ((hexDigit_iff _ _).mp hb).1
      have htoNat := congrArg UInt8.toNat hzero
      rw [UInt8.toNat_ofNat', UInt8.toNat_zero] at htoNat
      omega
    obtain ⟨rfl, rfl⟩ := hsum
    rw [hexDigit_eq_zero ha, hexDigit_eq_zero hb] at hnul
    exact hnul.2 (List.prefix_append (ascii "%00") rest).isInfix
  | case2 a b rest h ih =>
    rw [percentDecode_kept h]
    exact List.not_mem_cons_of_ne_of_not_mem (by decide) (ih (hnul.suffix (List.suffix_cons 37 _)))
  | case3 c rest h ih =>
    rw [percentDecode.eq_2 c rest h]
    exact List.not_mem_cons_of_ne_of_not_mem (fun hc => hnul.1 (hc ▸ List.mem_cons_self))
      (ih (hnul.suffix (List.suffix_cons c rest)))
  | case4 => simp [percentDecode]

theorem percentDecode_ne_nil {text : Bytes} (h : text ≠ []) : percentDecode text ≠ [] := by
  cases text using percentDecode.fun_cases_unfolding with
  | case1 => simp
  | case2 => simp
  | case3 => simp
  | case4 => exact absurd rfl h

/-! ## A DSN and its parts -/

def isDelimiter (c : UInt8) : Bool := c = 47 ∨ c = 63 ∨ c = 35 ∨ c = 64

/-- `scheme://[userinfo@]authority` and what follows it. -/
structure Dsn where
  scheme : Bytes
  userinfo : Option Bytes
  authority : Bytes
  tail : Bytes
  scheme_nonempty : scheme ≠ []
  scheme_no_colon : 58 ∉ scheme
  userinfo_plain : ∀ userinfo' ∈ userinfo, ∀ c ∈ userinfo', isDelimiter c = false
  userinfo_no_nul : ∀ userinfo' ∈ userinfo, NoNul userinfo'
  authority_nonempty : authority ≠ []
  authority_plain : ∀ c ∈ authority, isDelimiter c = false
  tail_start : ∀ c ∈ tail.head?, c = 47 ∨ c = 63 ∨ c = 35

namespace Dsn

/-- What comes before the authority. -/
def login (dsn : Dsn) : Bytes := (dsn.userinfo.map fun userinfo => userinfo ++ ascii "@").getD []

def text (dsn : Dsn) : Bytes := dsn.scheme ++ ascii "://" ++ dsn.login ++ dsn.authority ++ dsn.tail

/-- The DSN without its userinfo and the at sign behind it. -/
def url (dsn : Dsn) : Bytes := dsn.scheme ++ ascii "://" ++ dsn.authority ++ dsn.tail

/-- What is to be the key: the decoded userinfo if there is one. -/
def IsKey (dsn : Dsn) (key : Option Bytes) : Prop :=
  match dsn.userinfo with
  | none | some [] => key = none
  | some userinfo => ∃ decoded, key = some decoded ∧ PercentDecoded userinfo decoded

/-- A configuration of that DSN gives its key and its URL. -/
def IsRead (dsn : Dsn) (config : Configuration) : Prop :=
  dsn.IsKey { config with dsn := some dsn.text }.apiKey ∧
    { config with dsn := some dsn.text }.ingestionUrl = some dsn.url

theorem splitDsn_text (dsn : Dsn) : splitDsn dsn.text =
    match splitAtFirst (ascii "@") (dsn.login ++ dsn.authority ++ dsn.tail) with
    | some (userinfo, host) => if host = [] then none else some ⟨dsn.scheme, some userinfo, host⟩
    | none => some ⟨dsn.scheme, none, dsn.login ++ dsn.authority ++ dsn.tail⟩ := by
  have htext : dsn.text = dsn.scheme ++ (58 :: [47, 47]) ++
      (dsn.login ++ dsn.authority ++ dsn.tail) := by
    simp only [text, List.append_assoc]
    rfl
  have hrest : dsn.login ++ dsn.authority ++ dsn.tail ≠ [] := by simp [dsn.authority_nonempty]
  rw [splitDsn, htext, show ascii "://" = 58 :: [47, 47] from rfl,
    splitAtFirst_append dsn.scheme_no_colon]
  simp only [if_neg dsn.scheme_nonempty]
  cases splitAtFirst (ascii "@") (dsn.login ++ dsn.authority ++ dsn.tail) with
  | none => simp only [if_neg hrest]
  | some pair => rfl

theorem text_ne_nil (dsn : Dsn) : dsn.text ≠ [] := by simp [text, dsn.scheme_nonempty]

theorem at_notMem_plain {bytes : Bytes} (h : ∀ c ∈ bytes, isDelimiter c = false) : 64 ∉ bytes :=
  fun hin => absurd (h 64 hin) (by decide)

/-- With a userinfo, the first at sign is the one behind it. -/
theorem splitDsn_userinfo {dsn : Dsn} {userinfo : Bytes} (h : dsn.userinfo = some userinfo) :
    splitDsn dsn.text = some ⟨dsn.scheme, some userinfo, dsn.authority ++ dsn.tail⟩ := by
  have hrest : dsn.login ++ dsn.authority ++ dsn.tail =
      userinfo ++ [64] ++ (dsn.authority ++ dsn.tail) := by
    simp only [login, h, Option.map_some, Option.getD_some, List.append_assoc]
    rfl
  have hplain : 64 ∉ userinfo := at_notMem_plain (dsn.userinfo_plain userinfo h)
  have hhost : dsn.authority ++ dsn.tail ≠ [] := by simp [dsn.authority_nonempty]
  rw [splitDsn_text, hrest, show ascii "@" = [64] from rfl, splitAtFirst_append hplain]
  simp only [if_neg hhost]

theorem login_eq_nil {dsn : Dsn} (h : dsn.userinfo = none) : dsn.login = [] := by
  rw [login, h]
  rfl

theorem splitDsn_plain {dsn : Dsn} (h : dsn.userinfo = none) (htail : 64 ∉ dsn.tail) :
    splitDsn dsn.text = some ⟨dsn.scheme, none, dsn.authority ++ dsn.tail⟩ := by
  have hrest : 64 ∉ dsn.authority ++ dsn.tail := by
    rw [List.mem_append]
    exact not_or.mpr ⟨at_notMem_plain dsn.authority_plain, htail⟩
  rw [splitDsn_text, login_eq_nil h, List.nil_append, show ascii "@" = [64] from rfl,
    splitAtFirst_eq_none_iff.mpr hrest]

/-- Without a userinfo an at sign in the tail cuts the host off. -/
theorem ingestionUrl_cut {dsn : Dsn} (config : Configuration) (h : dsn.userinfo = none)
    (htail : 64 ∈ dsn.tail) : { config with dsn := some dsn.text }.ingestionUrl ≠ some dsn.url := by
  have hin : 64 ∈ dsn.authority ++ dsn.tail := List.mem_append_right _ htail
  rw [ingestionUrl]
  simp only [if_neg dsn.text_ne_nil]
  rw [splitDsn_text, login_eq_nil h, List.nil_append]
  cases hsplit : splitAtFirst (ascii "@") (dsn.authority ++ dsn.tail) with
  | none => exact absurd hin (splitAtFirst_eq_none_iff.mp hsplit)
  | some pair =>
    obtain ⟨userinfo, host⟩ := pair
    have hlength := congrArg List.length (splitAtFirst_text hsplit)
    dsimp only
    split
    · simp
    · intro heq
      have hurl := congrArg List.length (Option.some.inj heq)
      simp only [url, List.length_append] at hlength hurl
      have hone : (ascii "@").length = 1 := rfl
      omega

theorem isRead_of_userinfo {dsn : Dsn} (config : Configuration) {userinfo : Bytes}
    (h : dsn.userinfo = some userinfo) : dsn.IsRead config := by
  have hsplit := splitDsn_userinfo h
  constructor
  · rw [IsKey, h, apiKey]
    simp only [if_neg dsn.text_ne_nil, hsplit]
    cases userinfo with
    | nil => rfl
    | cons c rest =>
      have hdecoded := takeWhile_no_nul (zero_notMem_percentDecode (dsn.userinfo_no_nul _ h))
      have hne : percentDecode (c :: rest) ≠ [] := percentDecode_ne_nil (List.cons_ne_nil c rest)
      rw [if_neg (List.cons_ne_nil c rest), hdecoded, if_neg hne]
      exact ⟨_, rfl, percentDecoded_percentDecode _⟩
  · rw [ingestionUrl]
    simp only [if_neg dsn.text_ne_nil, hsplit, Option.map_some, url, List.append_assoc]

theorem isRead_of_plain {dsn : Dsn} (config : Configuration) (h : dsn.userinfo = none)
    (htail : 64 ∉ dsn.tail) : dsn.IsRead config := by
  have hsplit := splitDsn_plain h htail
  constructor
  · rw [IsKey, h, apiKey]
    simp only [if_neg dsn.text_ne_nil, hsplit]
  · rw [ingestionUrl]
    simp only [if_neg dsn.text_ne_nil, hsplit, Option.map_some, url, List.append_assoc]

/-- A DSN is read as it was written unless it has no userinfo and an at sign behind the
authority. -/
theorem isRead_iff (dsn : Dsn) (config : Configuration) :
    dsn.IsRead config ↔ dsn.userinfo ≠ none ∨ 64 ∉ dsn.tail := by
  cases h : dsn.userinfo with
  | some userinfo =>
    exact iff_of_true (isRead_of_userinfo config h) (.inl (Option.some_ne_none userinfo))
  | none =>
    by_cases htail : 64 ∈ dsn.tail
    · refine iff_of_false (fun hread => ingestionUrl_cut config h htail hread.2) ?_
      simp [htail]
    · exact iff_of_true (isRead_of_plain config h htail) (.inr htail)

/-- `https://h/a@b` -/
def pathWithAt : Dsn where
  scheme := ascii "https"
  userinfo := none
  authority := ascii "h"
  tail := ascii "/a@b"
  scheme_nonempty := by decide
  scheme_no_colon := by decide
  userinfo_plain := by simp
  userinfo_no_nul := by simp
  authority_nonempty := by decide
  authority_plain := List.forall_mem_singleton.mpr rfl
  tail_start := fun _ hc => .inl (Option.some.inj hc).symm

theorem pathWithAt_misread :
    ¬pathWithAt.IsRead {} ∧
      { dsn := some pathWithAt.text : Configuration }.apiKey = some (ascii "h/a") ∧
      { dsn := some pathWithAt.text : Configuration }.ingestionUrl = some (ascii "https://b") := by
  refine ⟨fun h => ?_, by decide, by decide⟩
  exact absurd h.2 (by decide)

end Dsn

end ForgeOps.Configuration
