import ForgeOpsTracker.Lib.Scan

/-! Texts with stretches taken out of them, and what taking more out in stages comes to.

A stage puts a marker in brackets in the place of each stretch it takes, and a bracket is
for it like an end of the text. So stages that leave each other's markers alone work on
what the ones before kept, piece by piece. -/

namespace ForgeOps

variable {μ : Type*}

theorem infix_flatMap {α β : Type*} (f : α → List β) {a : α} {l : List α} (h : a ∈ l) :
    f a <:+: l.flatMap f := by
  rw [List.flatMap_def]
  exact List.infix_of_mem_flatten (List.mem_map_of_mem h)

theorem eq_map_singleton {α : Type*} {l : List (List α)} (h : ∀ a ∈ l, a.length = 1) :
    l = l.flatten.map fun a => [a] := by
  induction l with
  | nil => rfl
  | cons a l ih =>
    obtain ⟨ha, hl⟩ := List.forall_mem_cons.mp h
    obtain ⟨x, rfl⟩ := List.length_eq_one_iff.mp ha
    exact congrArg ([x] :: ·) (ih hl)

/-- What becomes of a stretch. -/
inductive Mark (μ : Type*)
  | kept (s : Bytes)
  | taken (m : μ) (s : Bytes)

namespace Mark

def text : Mark μ → Bytes
  | kept s => s
  | taken _ s => s

def written (write : μ → Bytes) : Mark μ → Bytes
  | kept s => s
  | taken m _ => write m

end Mark

/-- A text, what was kept of it and between that what was taken out. -/
inductive Redaction (μ : Type*)
  | last (kept : Bytes)
  | taken (kept : Bytes) (m : μ) (stretch : Bytes) (rest : Redaction μ)

namespace Redaction

def original : Redaction μ → Bytes
  | last kept => kept
  | taken kept _ stretch rest => kept ++ stretch ++ rest.original

def written (write : μ → Bytes) : Redaction μ → Bytes
  | last kept => kept
  | taken kept m _ rest => kept ++ write m ++ rest.written write

/-- The stretches kept, longest possible. -/
def kept : Redaction μ → List Bytes
  | last kept => [kept]
  | taken kept _ _ rest => kept :: rest.kept

/-- The stretches taken out, each with its marker. -/
def takenOut : Redaction μ → List (μ × Bytes)
  | last _ => []
  | taken _ m stretch rest => (m, stretch) :: rest.takenOut

def prepend (s : Bytes) : Redaction μ → Redaction μ
  | last kept => last (s ++ kept)
  | taken kept m stretch rest => taken (s ++ kept) m stretch rest

def collect : List (Mark μ) → Redaction μ
  | [] => last []
  | .kept s :: marks => (collect marks).prepend s
  | .taken m s :: marks => taken [] m s (collect marks)

def join : Redaction μ → μ → Bytes → Redaction μ → Redaction μ
  | last kept, m, stretch, b => taken kept m stretch b
  | taken kept m' stretch' rest, m, stretch, b => taken kept m' stretch' (rest.join m stretch b)

/-- More taken out of each stretch that was kept. -/
def refine (redact : Bytes → Redaction μ) : Redaction μ → Redaction μ
  | last kept => redact kept
  | taken kept m stretch rest => (redact kept).join m stretch (rest.refine redact)

section
variable (write : μ → Bytes)

@[simp] theorem original_prepend (s : Bytes) (r : Redaction μ) :
    (r.prepend s).original = s ++ r.original := by
  cases r <;> simp [prepend, original]

@[simp] theorem written_prepend (s : Bytes) (r : Redaction μ) :
    (r.prepend s).written write = s ++ r.written write := by
  cases r <;> simp [prepend, written]

@[simp] theorem takenOut_prepend (s : Bytes) (r : Redaction μ) :
    (r.prepend s).takenOut = r.takenOut := by
  cases r <;> rfl

theorem original_collect (marks : List (Mark μ)) :
    (collect marks).original = marks.flatMap Mark.text := by
  induction marks with
  | nil => rfl
  | cons mark marks ih => cases mark <;> simp [collect, original, Mark.text, ih]

theorem written_collect (marks : List (Mark μ)) :
    (collect marks).written write = marks.flatMap (Mark.written write) := by
  induction marks with
  | nil => rfl
  | cons mark marks ih => cases mark <;> simp [collect, written, Mark.written, ih]

theorem mem_takenOut_collect {marks : List (Mark μ)} {t : μ × Bytes} :
    t ∈ (collect marks).takenOut ↔ Mark.taken t.1 t.2 ∈ marks := by
  induction marks with
  | nil => simp [collect, takenOut]
  | cons mark marks ih =>
    obtain ⟨m, s⟩ := t
    cases mark <;> simp [collect, takenOut, ih]

@[simp] theorem original_join (a b : Redaction μ) (m : μ) (s : Bytes) :
    (a.join m s b).original = a.original ++ s ++ b.original := by
  induction a with
  | last kept => rfl
  | taken kept m' stretch rest ih => simp [join, original, ih]

@[simp] theorem written_join (a b : Redaction μ) (m : μ) (s : Bytes) :
    (a.join m s b).written write = a.written write ++ write m ++ b.written write := by
  induction a with
  | last kept => rfl
  | taken kept m' stretch rest ih => simp [join, written, ih]

@[simp] theorem kept_join (a b : Redaction μ) (m : μ) (s : Bytes) :
    (a.join m s b).kept = a.kept ++ b.kept := by
  induction a with
  | last kept => rfl
  | taken _ m' stretch rest ih => simp [join, kept, ih]

@[simp] theorem takenOut_join (a b : Redaction μ) (m : μ) (s : Bytes) :
    (a.join m s b).takenOut = a.takenOut ++ (m, s) :: b.takenOut := by
  induction a with
  | last kept => rfl
  | taken kept m' stretch rest ih => simp [join, takenOut, ih]

end

section
variable {redact : Bytes → Redaction μ}

theorem original_refine (h : ∀ s, (redact s).original = s) (r : Redaction μ) :
    (r.refine redact).original = r.original := by
  induction r with
  | last kept => exact h kept
  | taken kept m stretch rest ih => simp [refine, original, h, ih]

theorem kept_refine (r : Redaction μ) :
    (r.refine redact).kept = r.kept.flatMap fun s => (redact s).kept := by
  induction r with
  | last kept => simp [refine, Redaction.kept]
  | taken kept m stretch rest ih => simp [refine, Redaction.kept, ih]

theorem mem_takenOut_refine {r : Redaction μ} {t : μ × Bytes} :
    t ∈ (r.refine redact).takenOut ↔ t ∈ r.takenOut ∨ ∃ s ∈ r.kept, t ∈ (redact s).takenOut := by
  induction r with
  | last kept => simp [refine, Redaction.kept, takenOut]
  | taken kept m stretch rest ih =>
    simp only [refine, Redaction.kept, takenOut, takenOut_join, List.mem_append, List.mem_cons, ih,
      exists_eq_or_imp]
    tauto

theorem kept_part {r : Redaction μ} {p : Bytes} (h : p ∈ r.kept) : p <:+: r.original := by
  induction r with
  | last kept =>
    obtain rfl := List.mem_singleton.mp h
    exact List.infix_rfl
  | taken kept m stretch rest ih =>
    rcases List.mem_cons.mp h with rfl | h
    · exact (List.prefix_append _ _).isInfix.trans (List.prefix_append _ _).isInfix
    · exact (ih h).trans (List.suffix_append _ _).isInfix

/-- A stretch in front makes the first piece longer. -/
theorem mem_kept_prepend {r : Redaction μ} {s p : Bytes} (h : p ∈ (r.prepend s).kept) :
    p ∈ r.kept ∨ ∃ q ∈ r.kept, q <+: r.original ∧ p = s ++ q := by
  cases r with
  | last kept =>
    obtain rfl := List.mem_singleton.mp h
    exact .inr ⟨kept, List.mem_singleton_self kept, List.prefix_refl kept, rfl⟩
  | taken kept m stretch rest =>
    rcases List.mem_cons.mp h with rfl | h
    · refine .inr ⟨kept, List.mem_cons_self, ?_, rfl⟩
      rw [original, List.append_assoc]
      exact List.prefix_append _ _
    · exact .inl (List.mem_cons_of_mem kept h)

/-- With nothing taken out the text is as it was. -/
theorem written_of_takenOut_eq_nil (write : μ → Bytes) {r : Redaction μ} (h : r.takenOut = []) :
    r.written write = r.original := by
  cases r with
  | last kept => rfl
  | taken kept m stretch rest => exact absurd h (List.cons_ne_nil _ _)

/-- Every marker counts. -/
theorem count_written {c : UInt8} (write : μ → Bytes) (hwrite : ∀ m, c ∈ write m) {r : Redaction μ}
    (h : ∀ t ∈ r.takenOut, c ∉ t.2) :
    r.original.count c + r.takenOut.length ≤ (r.written write).count c := by
  induction r with
  | last kept => exact Nat.le_refl _
  | taken kept m stretch rest ih =>
    obtain ⟨hstretch, hrest⟩ := List.forall_mem_cons.mp h
    have hone : 1 ≤ (write m).count c := List.count_pos_iff.mpr (hwrite m)
    have hnone : stretch.count c = 0 := List.count_eq_zero.mpr hstretch
    have hih := ih hrest
    simp only [original, written, takenOut, List.count_append, List.length_cons]
    omega

end

/-! ### Where a stretch is taken out -/

theorem prepend_join (t : Bytes) (a b : Redaction μ) (m : μ) (s : Bytes) :
    (a.join m s b).prepend t = (a.prepend t).join m s b := by
  cases a <;> rfl

theorem join_assoc (a b c : Redaction μ) (m m' : μ) (s s' : Bytes) :
    (a.join m s b).join m' s' c = a.join m s (b.join m' s' c) := by
  induction a with
  | last kept => rfl
  | taken kept _ _ rest ih => exact congrArg (taken kept _ _) ih

/-- Divided at two stretches a text divides at the first and then at the second, or they are one. -/
theorem join_eq_join {a b c d : Redaction μ} {m m' : μ} {s s' : Bytes}
    (h : a.join m s b = c.join m' s' d) :
    (∃ e, a = c.join m' s' e) ∨ (a = c ∧ m = m' ∧ s = s') ∨ ∃ e, c = a.join m s e ∧
    b = e.join m' s' d := by
  induction a generalizing c with
  | last kept =>
    cases c with
    | last kept' =>
      obtain ⟨rfl, rfl, rfl, -⟩ := taken.inj h
      exact .inr (.inl ⟨rfl, rfl, rfl⟩)
    | taken kept' _ _ rest' =>
      obtain ⟨rfl, rfl, rfl, hrest⟩ := taken.inj h
      exact .inr (.inr ⟨rest', rfl, hrest⟩)
  | taken kept _ _ rest ih =>
    cases c with
    | last kept' =>
      obtain ⟨rfl, rfl, rfl, -⟩ := taken.inj h
      exact .inl ⟨rest, rfl⟩
    | taken kept' _ _ rest' =>
      obtain ⟨rfl, rfl, rfl, hrest⟩ := taken.inj h
      rcases ih hrest with ⟨e, rfl⟩ | ⟨rfl, hm, hs⟩ | ⟨e, rfl, hb⟩
      · exact .inl ⟨e, rfl⟩
      · exact .inr (.inl ⟨rfl, hm, hs⟩)
      · exact .inr (.inr ⟨e, rfl, hb⟩)

/-- The stretch behind `before` is taken out. -/
def TakesOut (r : Redaction μ) (before : Bytes) (m : μ) (stretch : Bytes) : Prop :=
  ∃ first later : Redaction μ, r = first.join m stretch later ∧ first.original = before

theorem TakesOut.mem {r : Redaction μ} {before stretch : Bytes} {m : μ}
    (h : r.TakesOut before m stretch) : (m, stretch) ∈ r.takenOut := by
  obtain ⟨first, later, rfl, -⟩ := h
  rw [takenOut_join]
  exact List.mem_append_right _ List.mem_cons_self

theorem collect_append (marks more : List (Mark μ)) (m : μ) (s : Bytes) :
    collect (marks ++ .taken m s :: more) = (collect marks).join m s (collect more) := by
  induction marks with
  | nil => rfl
  | cons mark marks ih =>
    rw [List.cons_append]
    cases mark with
    | kept t => rw [collect, ih, prepend_join, collect]
    | taken m' t => rw [collect, ih, collect, join]

theorem takesOut_collect {marks : List (Mark μ)} {before stretch : Bytes} {m : μ} :
    (collect marks).TakesOut before m stretch ↔
      ∃ marks' more,
        marks = marks' ++ .taken m stretch :: more ∧ marks'.flatMap Mark.text = before := by
  constructor
  · rintro ⟨first, later, heq, rfl⟩
    induction marks generalizing first with
    | nil => cases first <;> exact absurd heq (by simp [collect, join])
    | cons mark marks ih =>
      cases mark with
      | kept t =>
        obtain ⟨first', hrest, rfl⟩ : ∃ first' : Redaction μ,
            collect marks = first'.join m stretch later ∧ first = first'.prepend t := by
          rw [collect] at heq
          cases hmarks : collect marks with
          | last kept =>
            rw [hmarks] at heq
            cases first <;> exact absurd heq (by simp [prepend, join])
          | taken kept m' s' rest =>
            rw [hmarks] at heq
            cases first with
            | last kept' =>
              obtain ⟨rfl, rfl, rfl, rfl⟩ := taken.inj heq
              exact ⟨last kept, rfl, rfl⟩
            | taken kept' _ _ rest' =>
              obtain ⟨rfl, rfl, rfl, rfl⟩ := taken.inj heq
              exact ⟨taken kept m' s' rest', rfl, rfl⟩
        obtain ⟨marks', more, rfl, htext⟩ := ih _ hrest
        exact ⟨.kept t :: marks', more, rfl, by simp [Mark.text, htext]⟩
      | taken m' t =>
        cases first with
        | last kept =>
          obtain ⟨rfl, rfl, rfl, rfl⟩ := taken.inj heq
          exact ⟨[], marks, rfl, rfl⟩
        | taken kept _ _ rest =>
          obtain ⟨rfl, rfl, rfl, hrest⟩ := taken.inj heq
          obtain ⟨marks', more, rfl, htext⟩ := ih _ hrest
          exact ⟨.taken m' t :: marks', more, rfl, by simp [Mark.text, original, htext]⟩
  · rintro ⟨marks', more, rfl, rfl⟩
    exact ⟨collect marks', collect more, collect_append marks' more m stretch,
      original_collect marks'⟩

theorem refine_join (redact : Bytes → Redaction μ) (a b : Redaction μ) (m : μ) (s : Bytes) :
    (a.join m s b).refine redact = (a.refine redact).join m s (b.refine redact) := by
  induction a with
  | last kept => rfl
  | taken kept _ _ rest ih => rw [join, refine, ih, refine, join_assoc]

/-- What is taken out stays so when more is. -/
theorem TakesOut.refine {redact : Bytes → Redaction μ} (horiginal : ∀ s, (redact s).original = s)
    {r : Redaction μ} {before stretch : Bytes} {m : μ} (h : r.TakesOut before m stretch) :
    (r.refine redact).TakesOut before m stretch := by
  obtain ⟨first, later, rfl, rfl⟩ := h
  exact ⟨_, _, refine_join redact first later m stretch, original_refine horiginal first⟩

theorem TakesOut.of_refine {redact : Bytes → Redaction μ} (horiginal : ∀ s, (redact s).original = s)
    {r : Redaction μ} {before stretch : Bytes} {m : μ}
    (h : (r.refine redact).TakesOut before m stretch) :
    r.TakesOut before m stretch ∨ ∃ kept ∈ r.kept, (m, stretch) ∈ (redact kept).takenOut := by
  induction r generalizing before with
  | last kept => exact .inr ⟨kept, List.mem_singleton_self kept, h.mem⟩
  | taken kept m' s' rest ih =>
    obtain ⟨first, later, heq, rfl⟩ := h
    rcases join_eq_join heq with ⟨e, he⟩ | ⟨rfl, rfl, rfl⟩ | ⟨e, rfl, he⟩
    · refine .inr ⟨kept, List.mem_cons_self, ?_⟩
      rw [he, takenOut_join]
      exact List.mem_append_right _ List.mem_cons_self
    · exact .inl ⟨.last kept, rest, rfl, (horiginal kept).symm⟩
    · rcases ih ⟨e, later, he, rfl⟩ with ⟨first, later, rfl, horig⟩ | ⟨kept', hkept, hmem⟩
      · refine .inl ⟨.taken kept m' s' first, later, rfl, ?_⟩
        rw [original_join, original, horiginal, horig]
      · exact .inr ⟨kept', List.mem_cons_of_mem kept hkept, hmem⟩

end Redaction

/-! ## Taking out by a scanner -/

section
variable {next : Option UInt8 → UInt8 → Bytes → List (Mark μ) × Nat}

def redactBy (next : Option UInt8 → UInt8 → Bytes → List (Mark μ) × Nat)
    (s : Bytes) : Redaction μ :=
  .collect (scan next 0 none s).flatten

theorem original_scan
    (h : ∀ prev c rest, (next prev c rest).1.flatMap Mark.text =
      (c :: rest).take ((next prev c rest).2 + 1))
    (k : Nat) (prev : Option UInt8) (s : Bytes) :
    (scan next k prev s).flatten.flatMap Mark.text = s.drop k := by
  induction s generalizing k prev with
  | nil => simp
  | cons c s ih =>
    cases k with
    | succ k => exact ih k (some c)
    | zero =>
      rw [scan, List.flatten_cons, List.flatMap_append, h, ih]
      simp

/-- The marks a scanner has emitted are of the text it has passed. -/
theorem Reaches.text_flatten
    (h : ∀ prev c rest, (next prev c rest).1.flatMap Mark.text =
      (c :: rest).take ((next prev c rest).2 + 1))
    {text before rest : Bytes} {tokens : List (List (Mark μ))}
    (hreach : Reaches next text tokens before rest) :
    tokens.flatten.flatMap Mark.text = before := by
  induction hreach with
  | start => rfl
  | @token tokens before s rest c tok _ htok ih =>
    have hhere := h (lastOr none before) c (s ++ rest)
    rw [htok, List.take_succ_cons, List.take_left] at hhere
    rw [List.flatten_append, List.flatten_singleton, List.flatMap_append, ih, hhere]

theorem written_scan {write : μ → Bytes} {piece : Option UInt8 → UInt8 → Bytes → Bytes × Nat}
    (h : ∀ prev c rest,
      ((next prev c rest).1.flatMap (Mark.written write), (next prev c rest).2) = piece prev c rest)
    (k : Nat) (prev : Option UInt8) (s : Bytes) :
    (scan next k prev s).flatten.flatMap (Mark.written write) = (scan piece k prev s).flatten := by
  induction s generalizing k prev with
  | nil => simp
  | cons c s ih =>
    cases k with
    | succ k => exact ih k (some c)
    | zero => rw [scan, scan, ← h, List.flatten_cons, List.flatMap_append, ih, List.flatten_cons]

theorem written_redactBy {write : μ → Bytes} {piece : Option UInt8 → UInt8 → Bytes → Bytes × Nat}
    (h : ∀ prev c rest,
      ((next prev c rest).1.flatMap (Mark.written write), (next prev c rest).2) = piece prev c rest)
    (s : Bytes) : (redactBy next s).written write = pass piece s := by
  rw [redactBy, Redaction.written_collect, written_scan h, pass]

end

/-! ## Stages -/

/-- The brackets around what is written of a marker. -/
structure Brackets (μ : Type*) where
  opening : UInt8
  closing : UInt8
  body : μ → Bytes

def Brackets.write (b : Brackets μ) (m : μ) : Bytes := b.opening :: (b.body m ++ [b.closing])

/-- A way to take stretches out of a text, all with one marker, that no bracket is in and
that none is looked past for. -/
structure Stage (b : Brackets μ) where
  marker : μ
  redact : Bytes → Redaction μ
  original_redact : ∀ s, (redact s).original = s
  takenOut_redact : ∀ s, ∀ t ∈ (redact s).takenOut, t.1 = marker ∧ b.opening ∉ t.2
  bracket : ∀ c, c = b.opening ∨ c = b.closing → ∀ s t, (redact (s ++ c :: t)).written b.write =
    (redact s).written b.write ++ c :: (redact t).written b.write

theorem Brackets.length_write (b : Brackets μ) (m : μ) : 2 ≤ (b.write m).length := by
  simp [Brackets.write]

/-! ## Where a text without a bracket stands -/

theorem prefix_of_not_mem {c : UInt8} {w s t : Bytes} (hc : c ∉ w)
    (h : w <+: s ++ c :: t) : w <+: s := by
  induction s generalizing w with
  | nil =>
    rcases List.prefix_cons_iff.mp h with rfl | ⟨u, rfl, -⟩
    · exact List.nil_prefix
    · exact absurd List.mem_cons_self hc
  | cons d s ih =>
    rcases List.prefix_cons_iff.mp h with rfl | ⟨u, rfl, hu⟩
    · exact List.nil_prefix
    · exact List.cons_prefix_cons.mpr ⟨rfl, ih (List.not_mem_of_not_mem_cons hc) hu⟩

theorem infix_of_not_mem {c : UInt8} {w s t : Bytes} (hc : c ∉ w) (h : w <:+: s ++ c :: t) :
    w <:+: s ∨ w <:+: t := by
  induction s with
  | nil =>
    rcases List.infix_cons_iff.mp h with h | h
    · exact .inl (prefix_of_not_mem hc h).isInfix
    · exact .inr h
  | cons d s ih =>
    rcases List.infix_cons_iff.mp h with h | h
    · exact .inl (prefix_of_not_mem hc h).isInfix
    · exact (ih h).imp List.infix_cons id

/-- It stands in what was kept, or between the brackets of a marker. -/
theorem Redaction.infix_written {b : Brackets μ} {w : Bytes} (hopening : b.opening ∉ w)
    (hclosing : b.closing ∉ w) {r : Redaction μ} (h : w <:+: r.written b.write) :
    (∃ p ∈ r.kept, w <:+: p) ∨ ∃ t ∈ r.takenOut, w <:+: b.body t.1 := by
  induction r with
  | last kept => exact .inl ⟨kept, List.mem_singleton_self kept, h⟩
  | taken kept m stretch rest ih =>
    have hwritten : (taken kept m stretch rest).written b.write =
        kept ++ b.opening :: (b.body m ++ b.closing :: rest.written b.write) := by
      simp [written, Brackets.write]
    rw [hwritten] at h
    rcases infix_of_not_mem hopening h with h | h
    · exact .inl ⟨kept, List.mem_cons_self, h⟩
    rcases infix_of_not_mem hclosing h with h | h
    · exact .inr ⟨(m, stretch), List.mem_cons_self, h⟩
    · rcases ih h with ⟨p, hp, hw⟩ | ⟨t, ht, hw⟩
      · exact .inl ⟨p, List.mem_cons_of_mem _ hp, hw⟩
      · exact .inr ⟨t, List.mem_cons_of_mem _ ht, hw⟩

namespace Stage

variable {b : Brackets μ}

def apply (st : Stage b) (s : Bytes) : Bytes := (st.redact s).written b.write

/-- The stage of a scanner, `piece` being what it writes. -/
def ofScan (marker : μ) (next : Option UInt8 → UInt8 → Bytes → List (Mark μ) × Nat)
    (piece : Option UInt8 → UInt8 → Bytes → Bytes × Nat)
    (htext : ∀ prev c rest,
      (next prev c rest).1.flatMap Mark.text = (c :: rest).take ((next prev c rest).2 + 1))
    (hwritten : ∀ prev c rest,
      ((next prev c rest).1.flatMap (Mark.written b.write), (next prev c rest).2) =
        piece prev c rest)
    (hmarker : ∀ prev c rest m s, Mark.taken m s ∈ (next prev c rest).1 → m = marker)
    (hbarrier : ∀ c, c = b.opening ∨ c = b.closing → Barrier piece c) : Stage b where
  marker := marker
  redact := redactBy next
  original_redact s := by
    rw [redactBy, Redaction.original_collect, original_scan htext]
    rfl
  takenOut_redact s t ht := by
    obtain ⟨marks, hmarks, hmem⟩ := List.mem_flatten.mp (Redaction.mem_takenOut_collect.mp ht)
    obtain ⟨before, c, rest, -, rfl⟩ := mem_scan hmarks
    refine ⟨hmarker _ c rest _ _ hmem, ?_⟩
    have hpiece := hwritten (lastOr none before) c rest
    by_cases hc : c = b.opening
    · -- an opening bracket is copied, and a marker is longer than it
      rw [(hbarrier c (.inl hc)).copied] at hpiece
      have hle := (infix_flatMap (Mark.written b.write) hmem).length_le
      rw [(Prod.mk.inj hpiece).1] at hle
      exact absurd ((b.length_write t.1).trans hle) (by simp)
    · have hfree := (hbarrier b.opening (.inl rfl)).not_mem (lastOr none before) rest hc
      rw [← (Prod.mk.inj hpiece).2, ← htext] at hfree
      exact fun hin => hfree ((infix_flatMap Mark.text hmem).mem hin)
  bracket c hc s t := by
    rw [written_redactBy hwritten, written_redactBy hwritten, written_redactBy hwritten,
      (hbarrier c hc).pass]

@[simp] theorem apply_ofScan {marker : μ}
    {next : Option UInt8 → UInt8 → Bytes → List (Mark μ) × Nat}
    {piece : Option UInt8 → UInt8 → Bytes → Bytes × Nat} (htext) (hwritten) (hmarker)
    (hbarrier) (s : Bytes) :
    (ofScan (b := b) marker next piece htext hwritten hmarker hbarrier).apply s = pass piece s :=
  written_redactBy hwritten s

/-- A scanner's pieces told apart: the marker, or what stands there. -/
def marksOf (b : Brackets μ) (marker : μ) (piece : Option UInt8 → UInt8 → Bytes → Bytes × Nat)
    (prev : Option UInt8) (c : UInt8) (rest : Bytes) : List (Mark μ) × Nat :=
  let (text, n) := piece prev c rest
  let stretch := (c :: rest).take (n + 1)
  (if text = b.write marker then [.taken marker stretch] else [.kept stretch], n)

section
variable {marker : μ} {piece : Option UInt8 → UInt8 → Bytes → Bytes × Nat} {prev : Option UInt8}
  {c : UInt8} {rest : Bytes}

theorem marksOf_text : (marksOf b marker piece prev c rest).1.flatMap Mark.text =
    (c :: rest).take ((marksOf b marker piece prev c rest).2 + 1) := by
  dsimp only [marksOf]
  split <;> simp [Mark.text]

theorem marksOf_written
    (h : (piece prev c rest).1 = b.write marker ∨
      (piece prev c rest).1 = (c :: rest).take ((piece prev c rest).2 + 1)) :
    ((marksOf b marker piece prev c rest).1.flatMap (Mark.written b.write),
      (marksOf b marker piece prev c rest).2) = piece prev c rest := by
  dsimp only [marksOf]
  apply Prod.ext
  · split
    · rename_i hmarker
      simp [Mark.written, hmarker]
    · rename_i hmarker
      simp [Mark.written, h.resolve_left hmarker]
  · rfl

theorem mem_marksOf {m : μ} {s : Bytes}
    (h : Mark.taken m s ∈ (marksOf b marker piece prev c rest).1) : m = marker := by
  dsimp only [marksOf] at h
  split at h
  · exact (Mark.taken.inj (List.mem_singleton.mp h)).1
  · exact absurd (List.mem_singleton.mp h) (by simp)

end

/-- The stage of a scanner each piece of which is the marker or what stands there. -/
def ofPiece (marker : μ) (piece : Option UInt8 → UInt8 → Bytes → Bytes × Nat)
    (hpiece : ∀ prev c rest, (piece prev c rest).1 = b.write marker ∨
      (piece prev c rest).1 = (c :: rest).take ((piece prev c rest).2 + 1))
    (hbarrier : ∀ c, c = b.opening ∨ c = b.closing → Barrier piece c) : Stage b :=
  ofScan marker (marksOf b marker piece) piece (fun _ _ _ => marksOf_text)
    (fun prev c rest => marksOf_written (hpiece prev c rest))
      (fun _ _ _ _ _ => mem_marksOf) hbarrier

@[simp] theorem apply_ofPiece {marker : μ} {piece : Option UInt8 → UInt8 → Bytes → Bytes × Nat}
    (hpiece) (hbarrier) (s : Bytes) :
    (ofPiece (b := b) marker piece hpiece hbarrier).apply s = pass piece s :=
  apply_ofScan _ _ _ _ s

/-- Such a stage takes out what the scanner writes its marker for, where the scanner stands. -/
theorem takesOut_ofPiece {marker m : μ} {piece : Option UInt8 → UInt8 → Bytes → Bytes × Nat}
    (hpiece) (hbarrier) {text before stretch : Bytes} :
    ((ofPiece (b := b) marker piece hpiece hbarrier).redact text).TakesOut before m stretch ↔
      m = marker ∧ ∃ written c s rest, stretch = c :: s ∧
      Reaches piece text written before (c :: (s ++ rest)) ∧
        piece (lastOr none before) c (s ++ rest) = (b.write marker, s.length) := by
  have hskips : ∀ prev c rest, (piece prev c rest).2 = (marksOf b marker piece prev c rest).2 :=
    fun _ _ _ => rfl
  have hfits : ∀ prev c s, (marksOf b marker piece prev c s).2 ≤ s.length :=
    (hbarrier b.opening (.inl rfl)).fits
  have hmarksText : ∀ prev c rest, (marksOf b marker piece prev c rest).1.flatMap Mark.text =
      (c :: rest).take ((marksOf b marker piece prev c rest).2 + 1) := fun _ _ _ => marksOf_text
  constructor
  · intro h
    obtain ⟨marks, more, hmarks, htext⟩ := Redaction.takesOut_collect.mp h
    have hsingle : ∀ token ∈ scan (marksOf b marker piece) 0 none text, token.length = 1 := by
      intro token htoken
      obtain ⟨x, c, rest, -, rfl⟩ := mem_scan htoken
      dsimp only [marksOf]
      split <;> rfl
    have hscan := eq_map_singleton hsingle
    rw [show (scan (marksOf b marker piece) 0 none text).flatten = _ from hmarks, List.map_append,
      List.map_cons] at hscan
    obtain ⟨x, rest, hreach, hlater⟩ := Reaches.of_scan hfits hscan
    obtain rfl : x = before := by
      rw [← htext, ← hreach.text_flatten hmarksText, ← List.flatMap_def]
      simp
    cases rest with
    | nil =>
      rw [scan_nil] at hlater
      exact absurd hlater.symm (List.cons_ne_nil _ _)
    | cons c rest =>
      obtain ⟨hmark, -⟩ := List.cons.inj hlater
      obtain ⟨s, rest, rfl, hs⟩ : ∃ s t, rest = s ++ t ∧
          s.length = (piece (lastOr none x) c rest).2 :=
        ⟨_, _, (List.take_append_drop _ rest).symm, List.length_take_of_le (hfits _ c rest)⟩
      obtain ⟨written, hreach⟩ := hreach.of_skips hskips
      have hstretch : (c :: (s ++ rest)).take
          ((piece (lastOr none x) c (s ++ rest)).2 + 1) = c :: s := by
        rw [← hs, List.take_succ_cons, List.take_left]
      dsimp only [marksOf] at hmark
      rw [hstretch] at hmark
      split at hmark
      · rename_i hpieceText
        obtain ⟨rfl, rfl⟩ := Mark.taken.inj (List.singleton_inj.mp hmark)
        exact ⟨rfl, written, c, s, rest, rfl, hreach, Prod.ext hpieceText hs.symm⟩
      · exact absurd (List.singleton_inj.mp hmark) (by simp)
  · rintro ⟨rfl, written, c, s, rest, rfl, hreach, hhere⟩
    obtain ⟨tokens, hmarks⟩ := hreach.of_skips fun prev c rest => (hskips prev c rest).symm
    refine Redaction.takesOut_collect.mpr ⟨tokens.flatten, (scan (marksOf b m piece) 0
      (lastOr none (before ++ c :: s)) rest).flatten, ?_, hmarks.text_flatten hmarksText⟩
    have hmark : marksOf b m piece (lastOr none before) c (s ++ rest) =
        ([.taken m (c :: s)], s.length) := by
      rw [marksOf, hhere]
      simp
    rw [(hmarks.token hmark).scan_eq]
    simp

section
variable (st : Stage b)

theorem count_apply (s : Bytes) :
    s.count b.opening + (st.redact s).takenOut.length ≤ (st.apply s).count b.opening := by
  have h := Redaction.count_written b.write (fun m => List.mem_cons_self)
    fun t ht => (st.takenOut_redact s t ht).2
  rwa [st.original_redact] at h

theorem apply_eq_self {s : Bytes} : st.apply s = s ↔ (st.redact s).takenOut = [] := by
  constructor
  · intro h
    have hcount := st.count_apply s
    rw [h] at hcount
    exact List.length_eq_zero_iff.mp (by omega)
  · intro h
    rw [apply, Redaction.written_of_takenOut_eq_nil b.write h, st.original_redact]

theorem apply_eq_self_of_count {s : Bytes} (h : (st.apply s).count b.opening ≤ s.count b.opening) :
    st.apply s = s := by
  have hcount := st.count_apply s
  exact st.apply_eq_self.mpr (List.length_eq_zero_iff.mp (by omega))

theorem apply_bracket_eq_self {c : UInt8} (hc : c = b.opening ∨ c = b.closing) {s t : Bytes} :
    st.apply (s ++ c :: t) = s ++ c :: t ↔ st.apply s = s ∧ st.apply t = t := by
  have hsplit : st.apply (s ++ c :: t) = st.apply s ++ c :: st.apply t := st.bracket c hc s t
  rw [hsplit]
  constructor
  · intro h
    have hcount := congrArg (List.count b.opening) h
    have hs := st.count_apply s
    have ht := st.count_apply t
    rw [List.count_append, List.count_append, List.count_cons, List.count_cons] at hcount
    exact ⟨st.apply_eq_self_of_count (by omega), st.apply_eq_self_of_count (by omega)⟩
  · rintro ⟨hs, ht⟩
    rw [hs, ht]

theorem apply_marker {m : μ} (kept rest : Bytes) : st.apply (kept ++ b.write m ++ rest) =
    st.apply kept ++ b.opening :: (st.apply (b.body m) ++ b.closing :: st.apply rest) := by
  have hwrite : kept ++ b.write m ++ rest =
      kept ++ b.opening :: (b.body m ++ b.closing :: rest) := by
    simp [Brackets.write]
  rw [hwrite]
  exact (st.bracket _ (.inl rfl) kept _).trans
    (congrArg (fun text => st.apply kept ++ b.opening :: text) (st.bracket _ (.inr rfl) _ rest))

/-- Behind stages whose markers it leaves alone a stage works on what they kept. -/
theorem apply_written {r : Redaction μ} (h : ∀ t ∈ r.takenOut, st.apply (b.body t.1) = b.body t.1) :
    st.apply (r.written b.write) = (r.refine st.redact).written b.write := by
  induction r with
  | last kept => rfl
  | taken kept m stretch rest ih =>
    obtain ⟨hm, hrest⟩ := List.forall_mem_cons.mp h
    rw [Redaction.written, apply_marker, hm, ih hrest, Redaction.refine, Redaction.written_join]
    simp [Brackets.write, apply]

theorem apply_written_eq_self {r : Redaction μ} : st.apply (r.written b.write) = r.written b.write ↔
    (∀ p ∈ r.kept, st.apply p = p) ∧ ∀ t ∈ r.takenOut, st.apply (b.body t.1) = b.body t.1 := by
  induction r with
  | last kept => simp [Redaction.written, Redaction.kept, Redaction.takenOut]
  | taken kept m stretch rest ih =>
    have hwrite : kept ++ b.write m ++ rest.written b.write =
        kept ++ b.opening :: (b.body m ++ b.closing :: rest.written b.write) := by
      simp [Brackets.write]
    rw [Redaction.written, hwrite, st.apply_bracket_eq_self (.inl rfl),
      st.apply_bracket_eq_self (.inr rfl), ih]
    simp only [Redaction.kept, Redaction.takenOut, List.forall_mem_cons]
    tauto

end

/-! ## One after another -/

def applyAll (sts : List (Stage b)) (s : Bytes) : Bytes := sts.foldl (fun s st => st.apply s) s

def redactFrom (sts : List (Stage b)) (r : Redaction μ) : Redaction μ :=
  sts.foldl (fun r st => r.refine st.redact) r

def redactAll (sts : List (Stage b)) (s : Bytes) : Redaction μ := redactFrom sts (.last s)

theorem redactAll_cons (st : Stage b) (sts : List (Stage b)) (s : Bytes) :
    redactAll (st :: sts) s = redactFrom sts (st.redact s) := rfl

/-- No stage takes anything out of the markers of those before it. -/
def Ordered (sts : List (Stage b)) : Prop :=
  sts.Pairwise fun st later => later.apply (b.body st.marker) = b.body st.marker

theorem count_applyAll (sts : List (Stage b)) (s : Bytes) :
    s.count b.opening ≤ (applyAll sts s).count b.opening := by
  induction sts generalizing s with
  | nil => exact Nat.le_refl _
  | cons st sts ih => exact (Nat.le_of_add_right_le (st.count_apply s)).trans (ih (st.apply s))

/-- Nothing is put back: the stages together leave a text alone only if each one does. -/
theorem applyAll_eq_self {sts : List (Stage b)} {s : Bytes} :
    applyAll sts s = s ↔ ∀ st ∈ sts, st.apply s = s := by
  induction sts with
  | nil => simp [applyAll]
  | cons st sts ih =>
    rw [List.forall_mem_cons]
    have hstep : applyAll (st :: sts) s = applyAll sts (st.apply s) := rfl
    constructor
    · intro h
      rw [hstep] at h
      have hcount := count_applyAll sts (st.apply s)
      rw [h] at hcount
      have hst := st.apply_eq_self_of_count hcount
      rw [hst] at h
      exact ⟨hst, ih.mp h⟩
    · rintro ⟨hst, hsts⟩
      rw [hstep, hst, ih.mpr hsts]

theorem original_redactFrom (sts : List (Stage b)) (r : Redaction μ) :
    (redactFrom sts r).original = r.original := by
  induction sts generalizing r with
  | nil => rfl
  | cons st sts ih => exact (ih _).trans (Redaction.original_refine st.original_redact r)

theorem original_redactAll (sts : List (Stage b)) (s : Bytes) : (redactAll sts s).original = s :=
  original_redactFrom sts (.last s)

theorem written_redactFrom {sts : List (Stage b)} (hsts : Ordered sts) {r : Redaction μ}
    (h : ∀ t ∈ r.takenOut, ∀ st ∈ sts, st.apply (b.body t.1) = b.body t.1) :
    (redactFrom sts r).written b.write = applyAll sts (r.written b.write) := by
  induction sts generalizing r with
  | nil => rfl
  | cons st sts ih =>
    obtain ⟨hst, hsts⟩ := List.pairwise_cons.mp hsts
    have hlater : ∀ t ∈ (r.refine st.redact).takenOut, ∀ st' ∈ sts,
        st'.apply (b.body t.1) = b.body t.1 := by
      intro t ht st' hst'
      rcases Redaction.mem_takenOut_refine.mp ht with ht | ⟨s, -, ht⟩
      · exact h t ht st' (List.mem_cons_of_mem st hst')
      · rw [(st.takenOut_redact s t ht).1]
        exact hst st' hst'
    have hhere := st.apply_written fun t ht => h t ht st List.mem_cons_self
    exact (ih hsts hlater).trans (congrArg (applyAll sts) hhere.symm)

theorem written_redactAll {sts : List (Stage b)} (hsts : Ordered sts) (s : Bytes) :
    (redactAll sts s).written b.write = applyAll sts s :=
  written_redactFrom hsts fun _ ht => absurd ht List.not_mem_nil

theorem kept_redactFrom_part {sts : List (Stage b)} {r : Redaction μ} {p : Bytes}
    (h : p ∈ (redactFrom sts r).kept) : ∃ q ∈ r.kept, p <:+: q := by
  induction sts generalizing r with
  | nil => exact ⟨p, h, List.infix_rfl⟩
  | cons st sts ih =>
    obtain ⟨u, hu, hp⟩ := ih h
    rw [Redaction.kept_refine, List.mem_flatMap] at hu
    obtain ⟨q, hq, hu⟩ := hu
    have hpart := Redaction.kept_part hu
    rw [st.original_redact] at hpart
    exact ⟨q, hq, hp.trans hpart⟩

/-- What is kept in the end each stage kept, or it is part of that. -/
theorem kept_redactAll {sts : List (Stage b)} {st : Stage b} (hst : st ∈ sts) {s p : Bytes}
    (h : p ∈ (redactAll sts s).kept) : ∃ t, ∃ q ∈ (st.redact t).kept, p <:+: q := by
  obtain ⟨before, after, rfl⟩ := List.mem_iff_append.mp hst
  have hfold : redactAll (before ++ st :: after) s =
      redactFrom after ((redactFrom before (.last s)).refine st.redact) := List.foldl_append
  rw [hfold] at h
  obtain ⟨q, hq, hp⟩ := kept_redactFrom_part h
  rw [Redaction.kept_refine, List.mem_flatMap] at hq
  obtain ⟨t, -, hq⟩ := hq
  exact ⟨t, q, hq, hp⟩

theorem takenOut_redactFrom {sts : List (Stage b)} {r : Redaction μ} {t : μ × Bytes}
    (h : t ∈ (redactFrom sts r).takenOut) : t ∈ r.takenOut ∨ ∃ st ∈ sts, t.1 = st.marker := by
  induction sts generalizing r with
  | nil => exact .inl h
  | cons st sts ih =>
    rcases ih h with h | ⟨st', hst', ht⟩
    · rcases Redaction.mem_takenOut_refine.mp h with h | ⟨s, -, h⟩
      · exact .inl h
      · exact .inr ⟨st, List.mem_cons_self, (st.takenOut_redact s t h).1⟩
    · exact .inr ⟨st', List.mem_cons_of_mem st hst', ht⟩

theorem takenOut_redactAll {sts : List (Stage b)} {s : Bytes} {t : μ × Bytes}
    (h : t ∈ (redactAll sts s).takenOut) : ∃ st ∈ sts, t.1 = st.marker :=
  (takenOut_redactFrom h).resolve_left List.not_mem_nil

theorem takesOut_redactFrom {sts : List (Stage b)} {r : Redaction μ}
    {before stretch : Bytes} {m : μ} (h : r.TakesOut before m stretch) :
    (redactFrom sts r).TakesOut before m stretch := by
  induction sts generalizing r with
  | nil => exact h
  | cons st sts ih => exact ih (h.refine st.original_redact)

/-- A stretch that the stages take out further has the marker of one of them. -/
theorem takesOut_of_redactFrom {sts : List (Stage b)} {r : Redaction μ}
    {before stretch : Bytes} {m : μ} (h : (redactFrom sts r).TakesOut before m stretch) :
    r.TakesOut before m stretch ∨ ∃ st ∈ sts, m = st.marker := by
  induction sts generalizing r with
  | nil => exact .inl h
  | cons st sts ih =>
    rcases ih h with h | ⟨st', hst', hm⟩
    · rcases h.of_refine st.original_redact with h | ⟨s, -, hmem⟩
      · exact .inl h
      · exact .inr ⟨st, List.mem_cons_self, (st.takenOut_redact s _ hmem).1⟩
    · exact .inr ⟨st', List.mem_cons_of_mem st hst', hm⟩

/-- All stages a second time: each must find nothing in what was kept and in the markers. -/
theorem applyAll_twice {sts : List (Stage b)} (hsts : Ordered sts) (s : Bytes) :
    applyAll sts (applyAll sts s) = applyAll sts s ↔ ∀ st ∈ sts,
      (∀ p ∈ (redactAll sts s).kept, st.apply p = p) ∧
        ∀ t ∈ (redactAll sts s).takenOut, st.apply (b.body t.1) = b.body t.1 := by
  rw [applyAll_eq_self, ← written_redactAll hsts]
  simp only [apply_written_eq_self]

end Stage

end ForgeOps
