import ForgeOpsTracker.Lib.Bytes

/-! Well-formed JSON, byte by byte, and how deep a text stands in it.

The grammar is that of RFC 8259 over bytes, white space included; bytes from 0x80 on
are taken as they are inside strings. A scanner that only counts brackets and knows
when it is inside a string comes back from every value where it started, and stays
above that on the way: a text it does not come back from is no value. -/

namespace ForgeOps.Json

/-! ## The grammar -/

def isWhite (c : UInt8) : Bool := c == 32 || c == 9 || c == 10 || c == 13

/-- A byte that stands for itself inside a string. -/
def isPlain (c : UInt8) : Bool := 32 ≤ c && c != 34 && c != 92

/-- What follows the backslash of a short escape. -/
def isEscape (c : UInt8) : Bool :=
  c == 34 || c == 92 || c == 47 || c == 98 || c == 102 || c == 110 || c == 114 || c == 116

/-- What may stand between the quotes of a string. -/
inductive Chars : Bytes → Prop
  | nil : Chars []
  | plain {c : UInt8} {s : Bytes} (hc : isPlain c) (hs : Chars s) : Chars (c :: s)
  | escape {c : UInt8} {s : Bytes} (hc : isEscape c) (hs : Chars s) : Chars (92 :: c :: s)
  | unicode {a b c d : UInt8} {s : Bytes} (ha : Byte.isHex a) (hb : Byte.isHex b)
      (hc : Byte.isHex c) (hd : Byte.isHex d) (hs : Chars s) :
      Chars (92 :: 117 :: a :: b :: c :: d :: s)

def quoted (s : Bytes) : Bytes := 34 :: (s ++ [34])

/-- `-`, the integer part, the fraction and the exponent of a number. -/
def IsNumber (n : Bytes) : Prop :=
  ∃ sign int frac exp : Bytes, n = sign ++ int ++ frac ++ exp ∧ (sign = [] ∨ sign = ascii "-") ∧
    (int = ascii "0" ∨ (int ≠ [] ∧ int.head? ≠ some 48 ∧ int.all Byte.isDigit)) ∧
    (frac = [] ∨ ∃ ds : Bytes, frac = 46 :: ds ∧ ds ≠ [] ∧ ds.all Byte.isDigit) ∧
    (exp = [] ∨ ∃ (e : UInt8) (s ds : Bytes), exp = e :: s ++ ds ∧ (e = 101 ∨ e = 69) ∧
      (s = [] ∨ s = ascii "+" ∨ s = ascii "-") ∧ ds ≠ [] ∧ ds.all Byte.isDigit)

/-- One value, the values of an array, or the members of an object. -/
inductive Kind
  | value
  | values
  | members
  deriving DecidableEq, Repr

inductive Text : Kind → Bytes → Prop
  | null : Text .value (ascii "null")
  | true : Text .value (ascii "true")
  | false : Text .value (ascii "false")
  | number {n : Bytes} (hn : IsNumber n) : Text .value n
  | string {s : Bytes} (hs : Chars s) : Text .value (quoted s)
  | emptyArray : Text .value [91, 93]
  | array {vs : Bytes} (hvs : Text .values vs) : Text .value (91 :: (vs ++ [93]))
  | emptyObject : Text .value [123, 125]
  | object {ms : Bytes} (hms : Text .members ms) : Text .value (123 :: (ms ++ [125]))
  | blankArray {w : Bytes} (hw : w.all isWhite) : Text .value (91 :: (w ++ [93]))
  | blankObject {w : Bytes} (hw : w.all isWhite) : Text .value (123 :: (w ++ [125]))
  | before {c : UInt8} {v : Bytes} (hc : isWhite c) (hv : Text .value v) : Text .value (c :: v)
  | after {c : UInt8} {v : Bytes} (hc : isWhite c) (hv : Text .value v) : Text .value (v ++ [c])
  | last {v : Bytes} (hv : Text .value v) : Text .values v
  | next {v vs : Bytes} (hv : Text .value v) (hvs : Text .values vs) : Text .values (v ++ 44 :: vs)
  | lastMember {w u k v : Bytes} (hw : w.all isWhite) (hk : Chars k) (hu : u.all isWhite)
      (hv : Text .value v) : Text .members (w ++ quoted k ++ u ++ 58 :: v)
  | nextMember {w u k v ms : Bytes} (hw : w.all isWhite) (hk : Chars k) (hu : u.all isWhite)
      (hv : Text .value v) (hms : Text .members ms) :
      Text .members (w ++ quoted k ++ u ++ 58 :: v ++ 44 :: ms)

def WellFormed (doc : Bytes) : Prop := Text .value doc

/-! ## Putting values together -/

theorem Chars.append {s t : Bytes} (hs : Chars s) (ht : Chars t) : Chars (s ++ t) := by
  induction hs with
  | nil => exact ht
  | plain hc _ ih => exact .plain hc ih
  | escape hc _ ih => exact .escape hc ih
  | unicode ha hb hc hd _ ih => exact .unicode ha hb hc hd ih

theorem chars_of_plain {s : Bytes} (h : s.all isPlain) : Chars s := by
  induction s with
  | nil => exact .nil
  | cons c s ih =>
    rw [List.all_cons, Bool.and_eq_true] at h
    exact .plain h.1 (ih h.2)

/-- A name and its value, as an object has them without white space. -/
structure Member where
  name : Bytes
  value : Bytes

def Member.text (m : Member) : Bytes := quoted m.name ++ 58 :: m.value

structure Member.Valid (m : Member) : Prop where
  name : Chars m.name
  value : Text .value m.value

/-- Texts with commas between them. -/
def joined : List Bytes → Bytes
  | [] => []
  | [x] => x
  | x :: y :: rest => x ++ 44 :: joined (y :: rest)

theorem joined_values {vs : List Bytes} (hne : vs ≠ []) (h : ∀ v ∈ vs, Text .value v) :
    Text .values (joined vs) := by
  induction vs with
  | nil => exact absurd rfl hne
  | cons v vs ih =>
    cases vs with
    | nil => exact .last (h v List.mem_cons_self)
    | cons u us =>
      exact .next (h v List.mem_cons_self)
        (ih (List.cons_ne_nil _ _) fun x hx => h x (List.mem_cons_of_mem _ hx))

theorem joined_members {ms : List Member} (hne : ms ≠ []) (h : ∀ m ∈ ms, m.Valid) :
    Text .members (joined (ms.map Member.text)) := by
  induction ms with
  | nil => exact absurd rfl hne
  | cons m ms ih =>
    obtain ⟨hname, hvalue⟩ := h m List.mem_cons_self
    cases ms with
    | nil =>
      simpa [joined, Member.text] using Text.lastMember (w := []) (u := []) rfl hname rfl hvalue
    | cons n ns =>
      have hrest := ih (List.cons_ne_nil _ _) fun x hx => h x (List.mem_cons_of_mem _ hx)
      simpa [joined, Member.text] using
        Text.nextMember (w := []) (u := []) rfl hname rfl hvalue hrest

/-- `{...}` -/
def object (ms : List Member) : Bytes := 123 :: (joined (ms.map Member.text) ++ [125])

/-- `[...]` -/
def array (vs : List Bytes) : Bytes := 91 :: (joined vs ++ [93])

theorem object_wellFormed {ms : List Member} (h : ∀ m ∈ ms, m.Valid) : WellFormed (object ms) := by
  cases ms with
  | nil => exact .emptyObject
  | cons m ms => exact .object (joined_members (List.cons_ne_nil _ _) h)

theorem array_wellFormed {vs : List Bytes} (h : ∀ v ∈ vs, WellFormed v) :
    WellFormed (array vs) := by
  cases vs with
  | nil => exact .emptyArray
  | cons v vs => exact .array (joined_values (List.cons_ne_nil _ _) h)

theorem exists_members {texts : List Bytes} (h : ∀ t ∈ texts, ∃ m : Member, m.Valid ∧ m.text = t) :
    ∃ ms : List Member, (∀ m ∈ ms, m.Valid) ∧ texts = ms.map Member.text := by
  induction texts with
  | nil => exact ⟨[], by simp, rfl⟩
  | cons t texts ih =>
    obtain ⟨⟨m, hm, rfl⟩, hrest⟩ := List.forall_mem_cons.mp h
    obtain ⟨ms, hms, rfl⟩ := ih hrest
    exact ⟨m :: ms, List.forall_mem_cons.mpr ⟨hm, hms⟩, rfl⟩

/-! ## Objects that are still open -/

theorem joined_concat {vs : List Bytes} (hne : vs ≠ []) (v : Bytes) :
    joined (vs ++ [v]) = joined vs ++ 44 :: v := by
  induction vs with
  | nil => exact absurd rfl hne
  | cons u us ih =>
    cases us with
    | nil => rfl
    | cons w ws =>
      show u ++ 44 :: joined (w :: ws ++ [v]) = u ++ 44 :: joined (w :: ws) ++ 44 :: v
      rw [ih (List.cons_ne_nil _ _)]
      simp

/-- Members that follow another one, each after a comma. -/
def further (ms : List Member) : Bytes := ms.flatMap fun m => 44 :: m.text

@[simp] theorem further_nil : further [] = [] := rfl

theorem further_cons (m : Member) (ms : List Member) :
    further (m :: ms) = 44 :: m.text ++ further ms := rfl

theorem further_append (ms ns : List Member) : further (ms ++ ns) = further ms ++ further ns :=
  List.flatMap_append

/-- `label` is a comma, a quoted name and a colon. -/
theorem further_label (name label value : Bytes) (hlabel : label = 44 :: (quoted name ++ [58])) :
    label ++ value = further [⟨name, value⟩] := by
  rw [further_cons, further_nil, List.append_nil, Member.text, hlabel]
  simp

theorem joined_cons (m : Member) (ms : List Member) :
    joined ((m :: ms).map Member.text) = m.text ++ further ms := by
  induction ms generalizing m with
  | nil => simp [joined]
  | cons n ns ih =>
    rw [List.map_cons, List.map_cons, joined, ← List.map_cons, ih, further_cons, List.cons_append]

theorem object_cons (m : Member) (ms : List Member) :
    object (m :: ms) = 123 :: (m.text ++ further ms ++ [125]) := by
  rw [object, joined_cons]

/-- An object up to the last of these members. -/
def opening (ms : List Member) : Bytes := 123 :: joined (ms.map Member.text)

theorem object_eq (ms : List Member) : object ms = opening ms ++ [125] := rfl

/-- `label` is a comma, a quoted name and a colon. -/
theorem opening_concat (m : Member) (ms : List Member) (name label value : Bytes)
    (hlabel : label = 44 :: (quoted name ++ [58])) :
    opening (m :: ms) ++ label ++ value = opening (m :: (ms ++ [⟨name, value⟩])) := by
  rw [opening, opening, joined_cons, joined_cons, further_append,
    ← further_label name label value hlabel]
  simp

/-- An object up to the member that is its last so far. -/
def Opened (t : Bytes) : Prop :=
  ∃ ms : List Member, ms ≠ [] ∧ (∀ m ∈ ms, m.Valid) ∧ t = 123 :: joined (ms.map Member.text)

theorem Opened.first {k v : Bytes} (hk : Chars k) (hv : Text .value v) :
    Opened (123 :: (quoted k ++ 58 :: v)) := by
  refine ⟨[⟨k, v⟩], List.cons_ne_nil _ _, ?_, rfl⟩
  intro m hm
  obtain rfl := List.mem_singleton.mp hm
  exact ⟨hk, hv⟩

theorem Opened.next {t k v : Bytes} (h : Opened t) (hk : Chars k) (hv : Text .value v) :
    Opened (t ++ 44 :: (quoted k ++ 58 :: v)) := by
  obtain ⟨ms, hne, hms, rfl⟩ := h
  refine ⟨ms ++ [⟨k, v⟩], by simp, ?_, ?_⟩
  · intro m hm
    rcases List.mem_append.mp hm with hm | hm
    · exact hms m hm
    · obtain rfl := List.mem_singleton.mp hm
      exact ⟨hk, hv⟩
  · have hne' : ms.map Member.text ≠ [] := by simpa
    rw [List.map_append, List.map_singleton, joined_concat hne']
    rfl

/-- `label` is a comma, a quoted name and a colon. -/
theorem Opened.append {t v : Bytes} (h : Opened t) (k label : Bytes)
    (hlabel : label = 44 :: (quoted k ++ [58])) (hk : k.all isPlain) (hv : Text .value v) :
    Opened (t ++ label ++ v) := by
  have hnext := h.next (chars_of_plain hk) hv
  simpa [hlabel] using hnext

theorem Opened.object {t : Bytes} (h : Opened t) :
    ∃ ms : List Member, (∀ m ∈ ms, m.Valid) ∧ t ++ [125] = Json.object ms := by
  obtain ⟨ms, -, hms, rfl⟩ := h
  exact ⟨ms, hms, rfl⟩

theorem Opened.close {t : Bytes} (h : Opened t) : WellFormed (t ++ [125]) := by
  obtain ⟨ms, hms, heq⟩ := h.object
  rw [heq]
  exact object_wellFormed hms

/-! ## Counting brackets -/

inductive Mode
  | code
  | text
  | escaped
  deriving DecidableEq, Repr

/-- How many brackets are open, and whether the scanner is inside a string. -/
structure Position where
  depth : Nat
  mode : Mode
  deriving DecidableEq, Repr

def advance (p : Position) (c : UInt8) : Position :=
  match p.mode with
  | .code =>
    if c = 34 then { p with mode := .text }
    else if c = 91 ∨ c = 123 then { p with depth := p.depth + 1 }
    else if c = 93 ∨ c = 125 then { p with depth := p.depth - 1 }
    else p
  | .text =>
    if c = 34 then { p with mode := .code }
    else if c = 92 then { p with mode := .escaped }
    else p
  | .escaped => { p with mode := .text }

def scanned (p : Position) (t : Bytes) : Position := t.foldl advance p

/-- The scanner never gets below depth `b` on the way. -/
def Above (b : Nat) : Position → Bytes → Prop
  | p, [] => b ≤ p.depth
  | p, c :: t => b ≤ p.depth ∧ Above b (advance p c) t

theorem scanned_append (p : Position) (s t : Bytes) :
    scanned p (s ++ t) = scanned (scanned p s) t := List.foldl_append

theorem above_append {b : Nat} {p : Position} {s t : Bytes} :
    Above b p (s ++ t) ↔ Above b p s ∧ Above b (scanned p s) t := by
  induction s generalizing p with
  | nil =>
    cases t with
    | nil => exact ⟨fun h => ⟨h, h⟩, fun h => h.1⟩
    | cons c t => exact ⟨fun h => ⟨h.1, h⟩, fun h => h.2⟩
  | cons c s ih =>
    simp only [List.cons_append, Above, ih, and_assoc]
    rfl

theorem Above.mono {a b : Nat} (hab : a ≤ b) {p : Position} {t : Bytes} (h : Above b p t) :
    Above a p t := by
  induction t generalizing p with
  | nil => exact Nat.le_trans hab h
  | cons c t ih => exact ⟨Nat.le_trans hab h.1, ih h.2⟩

theorem Above.last {b : Nat} {p : Position} {t : Bytes} (h : Above b p t) :
    b ≤ (scanned p t).depth := by
  induction t generalizing p with
  | nil => exact h
  | cons c t ih => exact ih h.2

theorem Above.within {b : Nat} {p : Position} {s t : Bytes} (h : Above b p t) (hs : s <+: t) :
    b ≤ (scanned p s).depth := by
  obtain ⟨u, rfl⟩ := hs
  exact (above_append.mp h).1.last

/-- The scanner comes back to where it started, and stays above it. -/
def Balanced (p : Position) (t : Bytes) : Prop := scanned p t = p ∧ Above p.depth p t

theorem Balanced.append {p : Position} {s t : Bytes} (hs : Balanced p s) (ht : Balanced p t) :
    Balanced p (s ++ t) := by
  refine ⟨?_, above_append.mpr ⟨hs.2, ?_⟩⟩
  · rw [scanned_append, hs.1, ht.1]
  · rw [hs.1]
    exact ht.2

/-- A byte the scanner passes over. -/
theorem Balanced.skip {p : Position} {c : UInt8} (h : advance p c = p) : Balanced p [c] := by
  refine ⟨h, Nat.le_refl _, ?_⟩
  rw [h]
  exact Nat.le_refl _

theorem Balanced.nil (p : Position) : Balanced p [] := ⟨rfl, Nat.le_refl _⟩

theorem balanced_of_skipped {p : Position} {t : Bytes} (h : ∀ c ∈ t, advance p c = p) :
    Balanced p t := by
  induction t with
  | nil => exact .nil p
  | cons c t ih =>
    exact (Balanced.skip (h c List.mem_cons_self)).append
      (ih fun d hd => h d (List.mem_cons_of_mem _ hd))

/-- A bracket, something balanced one deeper, and a bracket. -/
theorem Balanced.bracketed {d : Nat} {t : Bytes} {o c : UInt8} (ho : o = 91 ∨ o = 123)
    (hc : c = 93 ∨ c = 125) (ht : Balanced ⟨d + 1, .code⟩ t) :
    Balanced ⟨d, .code⟩ (o :: (t ++ [c])) := by
  have hopen : advance ⟨d, .code⟩ o = ⟨d + 1, .code⟩ := by
    rcases ho with rfl | rfl <;> rfl
  have hclose : advance ⟨d + 1, .code⟩ c = ⟨d, .code⟩ := by
    rcases hc with rfl | rfl <;> rfl
  refine ⟨?_, Nat.le_refl _, ?_⟩
  · show scanned (advance _ o) (t ++ [c]) = _
    rw [hopen, scanned_append, ht.1]
    exact hclose
  · rw [hopen, above_append, ht.1]
    exact ⟨ht.2.mono (Nat.le_succ d), Nat.le_succ d, by rw [hclose]; exact Nat.le_refl _⟩

/-! ## Every value is balanced -/

theorem Chars.balanced {s : Bytes} (hs : Chars s) (d : Nat) : Balanced ⟨d, .text⟩ s := by
  have hpair : ∀ c, Balanced ⟨d, .text⟩ [92, c] := fun c =>
    ⟨rfl, Nat.le_refl _, Nat.le_refl _, Nat.le_refl _⟩
  have hskip : ∀ c : UInt8, c ≠ 34 → c ≠ 92 → Balanced ⟨d, .text⟩ [c] := by
    intro c hquote hback
    apply Balanced.skip
    simp [advance, hquote, hback]
  have hhex : ∀ c, Byte.isHex c → Balanced ⟨d, .text⟩ [c] := by
    intro c hc
    apply hskip
    · rintro rfl
      exact absurd hc (by decide)
    · rintro rfl
      exact absurd hc (by decide)
  induction hs with
  | nil => exact .nil _
  | @plain c s hc _ ih =>
    simp only [isPlain, Bool.and_eq_true, bne_iff_ne, decide_eq_true_eq] at hc
    exact (hskip c hc.1.2 hc.2).append ih
  | @escape c s _ _ ih => exact (hpair c).append ih
  | @unicode a b c e s ha hb hc he _ ih =>
    exact (hpair 117).append ((hhex a ha).append ((hhex b hb).append
      ((hhex c hc).append ((hhex e he).append ih))))

theorem quoted_balanced {s : Bytes} (hs : Chars s) (d : Nat) : Balanced ⟨d, .code⟩ (quoted s) := by
  obtain ⟨hback, habove⟩ := hs.balanced d
  refine ⟨?_, Nat.le_refl _, ?_⟩
  · show scanned ⟨d, .text⟩ (s ++ [34]) = _
    rw [scanned_append, hback]
    rfl
  · show Above d ⟨d, .text⟩ (s ++ [34])
    rw [above_append, hback]
    exact ⟨habove, Nat.le_refl _, Nat.le_refl _⟩

/-- Neither a quote nor a bracket. -/
def isNeutral (c : UInt8) : Bool := c != 34 && c != 91 && c != 93 && c != 123 && c != 125

theorem neutral_balanced {t : Bytes} (d : Nat) (h : t.all isNeutral) : Balanced ⟨d, .code⟩ t := by
  apply balanced_of_skipped
  intro c hc
  have := List.all_eq_true.mp h c hc
  simp only [isNeutral, Bool.and_eq_true, bne_iff_ne] at this
  simp [advance, this]

theorem neutral_of_white {w : Bytes} (hw : w.all isWhite) : w.all isNeutral := by
  apply List.all_eq_true.mpr
  intro c hc
  have := List.all_eq_true.mp hw c hc
  simp only [isWhite, Bool.or_eq_true, beq_iff_eq] at this
  rcases this with ((rfl | rfl) | rfl) | rfl <;> rfl

theorem neutral_of_digits {ds : Bytes} (hds : ds.all Byte.isDigit) : ds.all isNeutral := by
  apply List.all_eq_true.mpr
  intro c hc
  have := List.all_eq_true.mp hds c hc
  simp only [Byte.isDigit, Bool.and_eq_true, decide_eq_true_eq] at this
  simp only [isNeutral, Bool.and_eq_true, bne_iff_ne]
  grind

theorem number_neutral {n : Bytes} (hn : IsNumber n) : n.all isNeutral := by
  obtain ⟨sign, int, frac, exp, rfl, hsign, hint, hfrac, hexp⟩ := hn
  simp only [List.all_append, Bool.and_eq_true, and_assoc]
  refine ⟨?_, ?_, ?_, ?_⟩
  · rcases hsign with rfl | rfl <;> rfl
  · rcases hint with rfl | ⟨-, -, hds⟩
    · rfl
    · exact neutral_of_digits hds
  · rcases hfrac with rfl | ⟨ds, rfl, -, hds⟩
    · rfl
    · rw [List.all_cons, neutral_of_digits hds]
      rfl
  · rcases hexp with rfl | ⟨e, s, ds, rfl, he, hs, -, hds⟩
    · rfl
    · rw [List.all_append, List.all_cons, neutral_of_digits hds]
      rcases he with rfl | rfl <;> rcases hs with rfl | rfl | rfl <;> rfl

theorem Text.balanced {k : Kind} {t : Bytes} (h : Text k t) (d : Nat) : Balanced ⟨d, .code⟩ t := by
  have hbyte : ∀ (d : Nat) (c : UInt8), isNeutral c → Balanced ⟨d, .code⟩ [c] := by
    intro d c hc
    apply neutral_balanced
    rw [List.all_cons, hc]
    rfl
  have hwhite : ∀ (d : Nat) (w : Bytes), w.all isWhite → Balanced ⟨d, .code⟩ w := fun d _ hw =>
    neutral_balanced d (neutral_of_white hw)
  have hone : ∀ (d : Nat) (c : UInt8), isWhite c → Balanced ⟨d, .code⟩ [c] := by
    intro d c hc
    apply hwhite
    rw [List.all_cons, hc]
    rfl
  have hmember : ∀ (d : Nat) {w u k v : Bytes}, w.all isWhite → Chars k → u.all isWhite →
      Balanced ⟨d, .code⟩ v → Balanced ⟨d, .code⟩ (w ++ quoted k ++ u ++ 58 :: v) := by
    intro d w u k v hw hk hu hv
    exact (((hwhite d w hw).append (quoted_balanced hk d)).append (hwhite d u hu)).append
      ((hbyte d 58 rfl).append hv)
  induction h generalizing d with
  | null => exact neutral_balanced d rfl
  | true => exact neutral_balanced d rfl
  | false => exact neutral_balanced d rfl
  | number hn => exact neutral_balanced d (number_neutral hn)
  | string hs => exact quoted_balanced hs d
  | emptyArray => exact Balanced.bracketed (t := []) (.inl rfl) (.inl rfl) (.nil _)
  | array _ ih => exact Balanced.bracketed (.inl rfl) (.inl rfl) (ih (d + 1))
  | emptyObject => exact Balanced.bracketed (t := []) (.inr rfl) (.inr rfl) (.nil _)
  | object _ ih => exact Balanced.bracketed (.inr rfl) (.inr rfl) (ih (d + 1))
  | blankArray hw => exact Balanced.bracketed (.inl rfl) (.inl rfl) (hwhite _ _ hw)
  | blankObject hw => exact Balanced.bracketed (.inr rfl) (.inr rfl) (hwhite _ _ hw)
  | before hc _ ih => exact (hone d _ hc).append (ih d)
  | after hc _ ih => exact (ih d).append (hone d _ hc)
  | last _ ih => exact ih d
  | next _ _ ihv ihvs => exact (ihv d).append ((hbyte d 44 rfl).append (ihvs d))
  | lastMember hw hk hu _ ih => exact hmember d hw hk hu (ih d)
  | nextMember hw hk hu _ _ ihv ihms =>
    exact (hmember d hw hk hu (ihv d)).append ((hbyte d 44 rfl).append (ihms d))

theorem WellFormed.scanned {doc : Bytes} (h : WellFormed doc) :
    scanned ⟨0, .code⟩ doc = ⟨0, .code⟩ :=
  (Text.balanced h 0).1

/-- An object that has been read only in part leaves its bracket open. -/
theorem object_prefix_open {ms : List Member} (h : ∀ m ∈ ms, m.Valid) {q : Bytes}
    (hq : q <+: object ms) (hne : q ≠ object ms) (hnil : q ≠ []) (d : Nat) :
    d + 1 ≤ (Json.scanned ⟨d, .code⟩ q).depth := by
  obtain ⟨c, q, rfl⟩ := List.exists_cons_of_ne_nil hnil
  obtain ⟨rfl, hrest⟩ := List.cons_prefix_cons.mp hq
  show d + 1 ≤ (Json.scanned ⟨d + 1, .code⟩ q).depth
  rcases List.prefix_concat_iff.mp hrest with rfl | hinside
  · exact absurd rfl hne
  · cases ms with
    | nil =>
      obtain rfl := List.prefix_nil.mp hinside
      exact Nat.le_refl _
    | cons m ms =>
      exact ((joined_members (List.cons_ne_nil m ms) h).balanced (d + 1)).2.within hinside

theorem Opened.scanned {t : Bytes} (h : Opened t) (d : Nat) :
    Json.scanned ⟨d, .code⟩ t = ⟨d + 1, .code⟩ := by
  obtain ⟨ms, hne, hms, rfl⟩ := h
  exact ((joined_members hne hms).balanced (d + 1)).1

theorem depth_le_advance (p : Position) (c : UInt8) : p.depth ≤ (advance p c).depth + 1 := by
  unfold advance
  cases p.mode with
  | code => grind
  | text => grind
  | escaped => exact Nat.le_succ _

theorem depth_le_scanned (p : Position) (t : Bytes) :
    p.depth ≤ (Json.scanned p t).depth + t.length := by
  induction t generalizing p with
  | nil => exact Nat.le_refl _
  | cons c t ih =>
    have hstep := depth_le_advance p c
    have hrest := ih (advance p c)
    show p.depth ≤ (Json.scanned (advance p c) t).depth + (t.length + 1)
    omega

/-- What is left is too short to close every bracket that is open. -/
theorem not_wellFormed_of_deep {s t : Bytes} (h : t.length < (Json.scanned ⟨0, .code⟩ s).depth) :
    ¬ WellFormed (s ++ t) := by
  intro hdoc
  have hend := hdoc.scanned
  rw [scanned_append] at hend
  have hdeep := depth_le_scanned (Json.scanned ⟨0, .code⟩ s) t
  rw [hend] at hdeep
  exact absurd h (Nat.not_lt.mpr (by simpa using hdeep))

end ForgeOps.Json
