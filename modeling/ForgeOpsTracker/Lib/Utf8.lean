import ForgeOpsTracker.Lib.Scan

/-! UTF-8. A text is valid when it encodes a list of characters. Between two characters stands
every place at which no continuation byte follows, so a text may be cut there, and a stretch that
starts and ends with ASCII may be replaced. -/

namespace ForgeOps

def Byte.isAscii (c : UInt8) : Bool := c < 0x80

/-- The bytes of these characters. -/
def encode (cs : List Char) : Bytes := cs.flatMap String.utf8EncodeChar

def Utf8 (s : Bytes) : Prop := ∃ cs, s = encode cs

/-- What stands here does not go on with a character that began before. -/
def Boundary (s : Bytes) : Prop := ∀ c ∈ s.head?, Byte.isContinuation c = false

@[simp] theorem encode_nil : encode [] = [] := rfl

@[simp] theorem encode_append (cs ds : List Char) : encode (cs ++ ds) = encode cs ++ encode ds :=
  List.flatMap_append

theorem encode_cons (c : Char) (cs : List Char) :
    encode (c :: cs) = String.utf8EncodeChar c ++ encode cs := rfl

/-! ## One character -/

theorem isContinuation_low {n : Nat} (h : n < 64) :
    Byte.isContinuation (UInt8.ofNat (n + 128)) = true := by
  interval_cases n <;> rfl

theorem isContinuation_high {n : Nat} (hlow : 192 ≤ n) (h : n < 256) :
    Byte.isContinuation (UInt8.ofNat n) = false := by
  interval_cases n <;> rfl

theorem isContinuation_of_isAscii {c : UInt8} (h : Byte.isAscii c = true) :
    Byte.isContinuation c = false := by
  have hlt : c < 0x80 := of_decide_eq_true h
  simp only [Byte.isContinuation, beq_eq_false_iff_ne, ne_eq]
  intro hc
  have hbits := congrArg UInt8.toNat hc
  rw [UInt8.toNat_and] at hbits
  have hle : c.toNat &&& (0xC0 : UInt8).toNat ≤ c.toNat := Nat.and_le_left
  rw [hbits] at hle
  exact absurd (UInt8.lt_iff_toNat_lt.mp hlt) (Nat.not_lt.mpr hle)

/-- A byte that starts a character of several, and its continuation bytes. -/
def IsSequence (s : Bytes) : Prop :=
  ∃ b tail, s = b :: tail ∧ Byte.isAscii b = false ∧ Byte.isContinuation b = false ∧
    ∀ d ∈ tail, Byte.isContinuation d = true

theorem isSequence_of_lead {n : Nat} (hlow : 192 ≤ n) (h : n < 256) {tail : Bytes}
    (htail : ∀ d ∈ tail, Byte.isContinuation d = true) : IsSequence (UInt8.ofNat n :: tail) := by
  refine ⟨UInt8.ofNat n, tail, rfl, ?_, isContinuation_high hlow h, htail⟩
  interval_cases n <;> rfl

theorem encodeChar_cases (c : Char) :
    (∃ b, String.utf8EncodeChar c = [b] ∧ Byte.isAscii b = true) ∨
    IsSequence (String.utf8EncodeChar c) := by
  have hcont : ∀ n, Byte.isContinuation (UInt8.ofNat (n % 64 + 128)) = true := fun n =>
    isContinuation_low (Nat.mod_lt n (by omega))
  have hone : ∀ n, ∀ d ∈ [UInt8.ofNat (n % 64 + 128)], Byte.isContinuation d = true := fun n =>
    List.forall_mem_singleton.mpr (hcont n)
  have hmore : ∀ n tail, (∀ d ∈ tail, Byte.isContinuation d = true) →
      ∀ d ∈ UInt8.ofNat (n % 64 + 128) :: tail, Byte.isContinuation d = true := fun n tail h =>
    List.forall_mem_cons.mpr ⟨hcont n, h⟩
  unfold String.utf8EncodeChar
  generalize c.val.toNat = v
  dsimp only
  by_cases h1 : v ≤ 127
  · rw [if_pos h1]
    refine .inl ⟨UInt8.ofNat v, rfl, ?_⟩
    interval_cases v <;> rfl
  rw [if_neg h1]
  right
  by_cases h2 : v ≤ 2047
  · rw [if_pos h2]
    have := Nat.mod_lt (v / 64) (show 0 < 32 by omega)
    exact isSequence_of_lead (by omega) (by omega) (hone v)
  rw [if_neg h2]
  by_cases h3 : v ≤ 65535
  · rw [if_pos h3]
    have := Nat.mod_lt (v / 4096) (show 0 < 16 by omega)
    exact isSequence_of_lead (by omega) (by omega) (hmore (v / 64) _ (hone v))
  rw [if_neg h3]
  have := Nat.mod_lt (v / 262144) (show 0 < 8 by omega)
  exact isSequence_of_lead (by omega) (by omega) (hmore (v / 4096) _ (hmore (v / 64) _ (hone v)))

/-- How many characters begin in a text. -/
def characters (s : Bytes) : Nat := (s.filter fun c => ¬ Byte.isContinuation c).length

theorem characters_encode (cs : List Char) : characters (encode cs) = cs.length := by
  induction cs with
  | nil => rfl
  | cons c cs ih =>
    have hone : characters (String.utf8EncodeChar c) = 1 := by
      rcases encodeChar_cases c with ⟨b, hb, hascii⟩ | ⟨b, tail, hb, -, hstart, htail⟩
      · simp [characters, hb, isContinuation_of_isAscii hascii]
      · simpa [characters, hb, hstart] using htail
    rw [encode_cons, characters, List.filter_append, List.length_append, List.length_cons,
      Nat.add_comm cs.length]
    exact congrArg₂ (· + ·) hone ih

theorem encodeChar_ascii {b : UInt8} (h : Byte.isAscii b = true) :
    ∃ c, String.utf8EncodeChar c = [b] := by
  have hlt : b.toNat < 128 := UInt8.lt_iff_toNat_lt.mp (of_decide_eq_true h)
  have hvalid : b.toNat.isValidChar := .inl (by omega)
  refine ⟨Char.ofNat b.toNat, ?_⟩
  have hval : (Char.ofNat b.toNat).val.toNat = b.toNat := by
    rw [Char.ofNat, dif_pos hvalid]
    rfl
  unfold String.utf8EncodeChar
  simp only [hval]
  rw [if_pos (by omega), UInt8.ofNat_toNat]

/-- Only the first byte of a character can stand behind a boundary. -/
theorem continuation_of_encodeChar {c : Char} {p q : Bytes} {b : UInt8}
    (h : String.utf8EncodeChar c = p ++ b :: q) (hp : p ≠ []) : Byte.isContinuation b = true := by
  obtain ⟨a, p, rfl⟩ := List.exists_cons_of_ne_nil hp
  rcases encodeChar_cases c with ⟨d, hd, -⟩ | ⟨d, tail, hd, -, -, htail⟩
  · rw [hd, List.cons_append, List.cons.injEq] at h
    exact absurd h.2.symm (by simp)
  · rw [hd, List.cons_append, List.cons.injEq] at h
    exact htail b (h.2 ▸ by simp)

/-! ## ASCII -/

theorem isAscii_of_le {c d : UInt8} (h : c ≤ d) (hd : Byte.isAscii d = true) :
    Byte.isAscii c = true :=
  decide_eq_true (UInt8.lt_of_le_of_lt h (of_decide_eq_true hd))

theorem isAscii_of_isWord {c : UInt8} (h : Byte.isWord c = true) : Byte.isAscii c = true := by
  simp only [Byte.isWord, Byte.isAlnum, Byte.isAlpha, Byte.isUpper, Byte.isLower, Byte.isDigit,
    Bool.or_eq_true, Bool.and_eq_true, decide_eq_true_eq, beq_iff_eq] at h
  rcases h with ((h | h) | h) | rfl
  · exact isAscii_of_le h.2 rfl
  · exact isAscii_of_le h.2 rfl
  · exact isAscii_of_le h.2 rfl
  · rfl

theorem isAscii_of_isHex {c : UInt8} (h : Byte.isHex c = true) : Byte.isAscii c = true := by
  simp only [Byte.isHex, Byte.isDigit, Bool.or_eq_true, Bool.and_eq_true, decide_eq_true_eq] at h
  rcases h with (h | h) | h
  · exact isAscii_of_le h.2 rfl
  · exact isAscii_of_le h.2 rfl
  · exact isAscii_of_le h.2 rfl

theorem isAscii_of_isDigit {c : UInt8} (h : Byte.isDigit c = true) : Byte.isAscii c = true :=
  isAscii_of_isHex (by rw [Byte.isHex, h, Bool.true_or, Bool.true_or])

theorem isAscii_of_isSpace {c : UInt8} (h : Byte.isSpace c = true) : Byte.isAscii c = true := by
  simp only [Byte.isSpace, Bool.or_eq_true, Bool.and_eq_true, decide_eq_true_eq, beq_iff_eq] at h
  rcases h with rfl | h
  · rfl
  · exact isAscii_of_le h.2 rfl

/-! ## Texts -/

theorem boundary_nil : Boundary [] := fun _ h => absurd h (by simp)

theorem boundary_of_isAscii {c : UInt8} (h : Byte.isAscii c = true) (s : Bytes) :
    Boundary (c :: s) := by
  intro d hd
  obtain rfl := Option.some.inj hd
  exact isContinuation_of_isAscii h

theorem utf8_nil : Utf8 [] := ⟨[], rfl⟩

theorem Utf8.append {s t : Bytes} (hs : Utf8 s) (ht : Utf8 t) : Utf8 (s ++ t) := by
  obtain ⟨cs, rfl⟩ := hs
  obtain ⟨ds, rfl⟩ := ht
  exact ⟨cs ++ ds, (encode_append cs ds).symm⟩

theorem utf8_of_isAscii {s : Bytes} (h : s.all Byte.isAscii = true) : Utf8 s := by
  induction s with
  | nil => exact utf8_nil
  | cons b s ih =>
    rw [List.all_cons, Bool.and_eq_true] at h
    obtain ⟨c, hc⟩ := encodeChar_ascii h.1
    obtain ⟨cs, hcs⟩ := ih h.2
    exact ⟨c :: cs, by rw [encode_cons, hc, hcs]; rfl⟩

theorem boundary_encode (cs : List Char) : Boundary (encode cs) := by
  cases cs with
  | nil => exact boundary_nil
  | cons c cs =>
    rcases encodeChar_cases c with ⟨b, hb, hascii⟩ | ⟨b, tail, hb, -, hstart, -⟩
    · rw [encode_cons, hb]
      exact boundary_of_isAscii hascii _
    · rw [encode_cons, hb]
      intro d hd
      obtain rfl := Option.some.inj hd
      exact hstart

/-- A text cut at a boundary falls into two lists of characters. -/
theorem exists_encode_of_boundary {cs : List Char} {p s : Bytes} (h : encode cs = p ++ s)
    (hs : Boundary s) : ∃ ps ss, cs = ps ++ ss ∧ p = encode ps ∧ s = encode ss := by
  induction cs generalizing p with
  | nil =>
    obtain ⟨rfl, rfl⟩ := List.append_eq_nil_iff.mp h.symm
    exact ⟨[], [], rfl, rfl, rfl⟩
  | cons c cs ih =>
    rw [encode_cons] at h
    rcases List.append_eq_append_iff.mp h with ⟨p', rfl, hrest⟩ | ⟨q, hc, rfl⟩
    · obtain ⟨ps, ss, rfl, rfl, rfl⟩ := ih hrest
      exact ⟨c :: ps, ss, rfl, rfl, rfl⟩
    · cases p with
      | nil =>
        rw [List.nil_append] at hc
        exact ⟨[], c :: cs, rfl, rfl, by rw [encode_cons, hc]⟩
      | cons b p =>
        cases q with
        | nil =>
          rw [List.append_nil] at hc
          exact ⟨[c], cs, rfl, by rw [encode_cons, hc, encode_nil, List.append_nil], rfl⟩
        | cons d q =>
          have hcont := continuation_of_encodeChar hc (List.cons_ne_nil b p)
          exact absurd ((hs d rfl).symm.trans hcont) (by simp)

theorem Utf8.split {p s : Bytes} (h : Utf8 (p ++ s)) (hs : Boundary s) : Utf8 p ∧ Utf8 s := by
  obtain ⟨cs, hcs⟩ := h
  obtain ⟨ps, ss, -, hp, hs⟩ := exists_encode_of_boundary hcs.symm hs
  exact ⟨⟨ps, hp⟩, ⟨ss, hs⟩⟩

theorem Utf8.boundary {s : Bytes} (h : Utf8 s) : Boundary s := by
  obtain ⟨cs, rfl⟩ := h
  exact boundary_encode cs

/-- Behind an ASCII byte a new character begins. -/
theorem Utf8.of_cons {b : UInt8} {s : Bytes} (h : Utf8 (b :: s))
    (hb : Byte.isAscii b = true) : Utf8 s := by
  obtain ⟨cs, hcs⟩ := h
  cases cs with
  | nil => exact absurd hcs (List.cons_ne_nil b s)
  | cons c cs =>
    rw [encode_cons] at hcs
    rcases encodeChar_cases c with ⟨d, hd, -⟩ | ⟨d, tail, hd, hnot, -⟩
    · rw [hd, List.singleton_append, List.cons.injEq] at hcs
      exact ⟨cs, hcs.2⟩
    · rw [hd, List.cons_append, List.cons.injEq] at hcs
      exact absurd (hnot.symm.trans (hcs.1 ▸ hb)) (by simp)

theorem boundary_of_all_isAscii {s : Bytes} (h : s.all Byte.isAscii = true) : Boundary s :=
  (utf8_of_isAscii h).boundary

/-- Behind ASCII a new character begins. -/
theorem Utf8.of_append {p s : Bytes} (h : Utf8 (p ++ s))
    (hp : p.all Byte.isAscii = true) : Utf8 s := by
  induction p with
  | nil => exact h
  | cons b p ih =>
    rw [List.all_cons, Bool.and_eq_true] at hp
    exact ih (h.of_cons hp.1) hp.2

/-- Some of the ASCII at the front of a text may be dropped. -/
theorem Utf8.drop_run {p : UInt8 → Bool} (hp : ∀ c, p c = true → Byte.isAscii c = true) {s : Bytes}
    (h : Utf8 s) {n : Nat} (hn : n ≤ (s.takeWhile p).length) : Utf8 (s.drop n) := by
  have htake : s.take n = (s.takeWhile p).take n := by
    conv_lhs => rw [← List.takeWhile_append_dropWhile (p := p) (l := s)]
    exact List.take_append_of_le_length hn
  rw [← List.take_append_drop n s, htake] at h
  refine h.of_append (List.all_eq_true.mpr fun c hc => hp c ?_)
  exact List.all_eq_true.mp List.all_takeWhile c (List.mem_of_mem_take hc)

theorem Utf8.dropWhile {p : UInt8 → Bool} (hp : ∀ c, p c = true → Byte.isAscii c = true)
    {s : Bytes} (h : Utf8 s) : Utf8 (s.dropWhile p) := by
  rw [← drop_length_takeWhile]
  exact h.drop_run hp (Nat.le_refl _)

/-- A text may be cut before an ASCII byte. -/
theorem Utf8.takeWhile {p : UInt8 → Bool} (hp : ∀ c, p c = false → Byte.isAscii c = true)
    {s : Bytes} (h : Utf8 s) : Utf8 (s.takeWhile p) ∧ Utf8 (s.dropWhile p) := by
  rw [← List.takeWhile_append_dropWhile (p := p) (l := s)] at h
  refine h.split fun c hc => isContinuation_of_isAscii (hp c ?_)
  have hnot := List.head?_dropWhile_not p s
  rw [Option.mem_def.mp hc] at hnot
  exact hnot

/-! ## Cutting -/

/-- The first characters of a text. -/
def CharPrefix (p s : Bytes) : Prop := ∃ ps ss, p = encode ps ∧ s = encode (ps ++ ss)

theorem CharPrefix.utf8 {p s : Bytes} (h : CharPrefix p s) : Utf8 p := by
  obtain ⟨ps, ss, rfl, rfl⟩ := h
  exact ⟨ps, rfl⟩

theorem boundary_cutBack {s : Bytes} (hs : Boundary s) (n : Nat) :
    Boundary (s.drop (cutBack s n)) := by
  induction n with
  | zero => exact hs
  | succ n ih =>
    rw [cutBack]
    split
    · exact ih
    · rename_i h
      intro c hc
      rw [List.head?_drop] at hc
      rw [Option.mem_def.mp hc] at h
      simpa using h

theorem Utf8.charPrefix_take {s : Bytes} (h : Utf8 s) {n : Nat} (hn : Boundary (s.drop n)) :
    CharPrefix (s.take n) s := by
  obtain ⟨cs, hcs⟩ := h
  have hsplit : encode cs = s.take n ++ s.drop n := by rw [List.take_append_drop, hcs]
  obtain ⟨ps, ss, rfl, hp, -⟩ := exists_encode_of_boundary hsplit hn
  exact ⟨ps, ss, hp, hcs⟩

/-- A text may be cut behind an ASCII byte. -/
theorem Utf8.take_succ {s : Bytes} (h : Utf8 s) {n : Nat} {b : UInt8} (hb : s[n]? = some b)
    (hascii : Byte.isAscii b = true) : Utf8 (s.take (n + 1)) := by
  obtain ⟨hlt, hget⟩ := List.getElem?_eq_some_iff.mp hb
  have hsplit : s = s.take n ++ b :: s.drop (n + 1) := by
    rw [← hget, ← List.drop_eq_getElem_cons hlt, List.take_append_drop]
  rw [hsplit] at h
  have hfirst := (h.split (boundary_of_isAscii hascii _)).1
  rw [List.take_add_one, hb]
  exact hfirst.append (utf8_of_isAscii (by rw [Option.toList_some, List.all_cons, hascii]; rfl))

/-- A text cut between characters is some of its characters. -/
theorem Utf8.cutAtCharacter {s : Bytes} (h : Utf8 s) (most : Nat) :
    CharPrefix (cutAtCharacter most s) s := by
  unfold ForgeOps.cutAtCharacter
  split
  · exact h.charPrefix_take (boundary_cutBack h.boundary most)
  · obtain ⟨cs, hcs⟩ := h
    exact ⟨cs, [], hcs, by rw [List.append_nil, hcs]⟩

/-! ## Scanners -/

/-- A step that copies the bytes it takes, or replaces a stretch that starts with ASCII and ends
with it or with the text. -/
def KeepsCharacters (next : Option UInt8 → UInt8 → Bytes → Bytes × Nat) : Prop :=
  ∀ prev c rest, (next prev c rest).1 = (c :: rest).take ((next prev c rest).2 + 1) ∨
    Byte.isAscii c = true ∧ Utf8 (next prev c rest).1 ∧
      ((next prev c rest).2 < rest.length → ∀ d ∈ (c :: rest)[(next prev c rest).2]?,
        Byte.isAscii d = true)

theorem exists_scan_drop {τ : Type*} (next : Option UInt8 → UInt8 → Bytes → τ × Nat) (k : Nat)
    (prev : Option UInt8) (s : Bytes) :
    ∃ prev', scan next k prev s = scan next 0 prev' (s.drop k) := by
  by_cases hs : k ≤ s.length
  · rcases Nat.eq_zero_or_pos k with rfl | hk
    · exact ⟨prev, rfl⟩
    · exact ⟨_, scan_skip_take hk hs prev⟩
  · refine ⟨prev, ?_⟩
    rw [List.drop_eq_nil_of_le (by omega), scan_nil]
    exact scan_skip_all k prev s (by omega)

/-- What stands before the scanner may end within a character. -/
theorem KeepsCharacters.scan {next : Option UInt8 → UInt8 → Bytes → Bytes × Nat}
    (h : KeepsCharacters next) (n : Nat) :
    ∀ (p s : Bytes) (prev : Option UInt8), s.length ≤ n → Utf8 (p ++ s) →
      Utf8 (p ++ (ForgeOps.scan next 0 prev s).flatten) := by
  induction n with
  | zero =>
    intro p s prev hn hs
    obtain rfl := List.eq_nil_of_length_eq_zero (Nat.le_zero.mp hn)
    exact hs
  | succ n ih =>
    intro p s prev hn hs
    cases s with
    | nil => exact hs
    | cons c rest =>
      obtain ⟨prev', hscan⟩ := exists_scan_drop next (next prev c rest).2 (some c) rest
      have hshort : (rest.drop (next prev c rest).2).length ≤ n := by
        rw [List.length_drop]
        rw [List.length_cons] at hn
        omega
      rw [ForgeOps.scan, List.flatten_cons, hscan, ← List.append_assoc]
      refine ih _ _ prev' hshort ?_
      rcases h prev c rest with hcopy | ⟨hc, hout, hlast⟩
      · rw [hcopy, List.append_assoc]
        rwa [show (c :: rest).take ((next prev c rest).2 + 1) ++
          rest.drop (next prev c rest).2 = c :: rest from List.take_append_drop _ (c :: rest)]
      · obtain ⟨hp, htext⟩ := hs.split (boundary_of_isAscii hc rest)
        refine (hp.append hout).append ?_
        generalize (next prev c rest).2 = k at hlast
        rcases Nat.lt_or_ge k rest.length with hk | hk
        · have hlt : k < (c :: rest).length := Nat.lt_succ_of_lt hk
          have hd : Byte.isAscii (c :: rest)[k] = true := hlast hk _ (List.getElem?_eq_getElem hlt)
          have hdrop : (c :: rest).drop k = (c :: rest)[k] :: rest.drop k :=
            List.drop_eq_getElem_cons hlt
          rw [← List.take_append_drop k (c :: rest), hdrop] at htext
          exact (htext.split (boundary_of_isAscii hd _)).2.of_cons hd
        · rw [List.drop_eq_nil_of_le hk]
          exact utf8_nil

theorem KeepsCharacters.pass {next : Option UInt8 → UInt8 → Bytes → Bytes × Nat}
    (h : KeepsCharacters next) {s : Bytes} (hs : Utf8 s) :
    Utf8 (ForgeOps.pass next s) := h.scan s.length [] s none (Nat.le_refl _) hs

/-- Single bytes that are kept, or are ASCII and replaced by valid text. -/
theorem Utf8.flatMap {f : UInt8 → Bytes}
    (h : ∀ c, f c = [c] ∨ Byte.isAscii c = true ∧ Utf8 (f c)) {s : Bytes} (hs : Utf8 s) :
    Utf8 (s.flatMap f) := by
  have hkeeps : KeepsCharacters fun _ c _ => (f c, 0) := fun _ c rest =>
    (h c).imp (fun hcopy => hcopy) fun hc => ⟨hc.1, hc.2, fun _ d hd => Option.some.inj hd ▸ hc.1⟩
  have heq : ∀ prev, (ForgeOps.scan (fun _ c _ => (f c, 0)) 0 prev s).flatten = s.flatMap f := by
    clear hs
    induction s with
    | nil => exact fun prev => rfl
    | cons c s ih =>
      intro prev
      rw [ForgeOps.scan, List.flatten_cons, ih, List.flatMap_cons]
  have hpass := hkeeps.pass hs
  rwa [ForgeOps.pass, heq] at hpass

end ForgeOps
