import ForgeOpsTracker.Lib.Bytes

/-! Left-to-right scanners with one byte of lookbehind.

A scanner stands at a byte, knows the byte before it (none at the start of the
text) and everything from there on, and decides on a token and on how many
further bytes the token takes. It is the shape of every loop
`while (i < len) { ...; i += n; }` that looks back only at `s[i - 1]`. -/

namespace ForgeOps

variable {τ : Type*}

/-- `next prev c rest` is the token at `c` and how many bytes of `rest` belong to
it. The first argument of `scan` is how many bytes of the current token are still
to be passed over. -/
def scan (next : Option UInt8 → UInt8 → Bytes → τ × Nat) : Nat → Option UInt8 → Bytes → List τ
  | _, _, [] => []
  | k + 1, _, c :: rest => scan next k (some c) rest
  | 0, prev, c :: rest =>
    (next prev c rest).1 :: scan next (next prev c rest).2 (some c) rest

/-- A text replaced by the concatenation of the pieces a scanner emits. -/
def pass (next : Option UInt8 → UInt8 → Bytes → Bytes × Nat) (s : Bytes) : Bytes :=
  (scan next 0 none s).flatten

/-- The byte before the rest of the text once `s` has been passed. -/
def lastOr (prev : Option UInt8) (s : Bytes) : Option UInt8 := s.getLast?.or prev

section
variable {next : Option UInt8 → UInt8 → Bytes → τ × Nat}

@[simp] theorem scan_nil (k : Nat) (prev : Option UInt8) : scan next k prev [] = [] := by
  cases k <;> rfl

@[simp] theorem lastOr_nil (prev : Option UInt8) : lastOr prev [] = prev := rfl

@[simp] theorem lastOr_cons (prev : Option UInt8) (c : UInt8) (s : Bytes) :
    lastOr prev (c :: s) = lastOr (some c) s := by
  cases s with
  | nil => rfl
  | cons d s => simp [lastOr, List.getLast?_eq_some_getLast]

theorem lastOr_append (prev : Option UInt8) (s t : Bytes) :
    lastOr prev (s ++ t) = lastOr (lastOr prev s) t := by
  induction s generalizing prev with
  | nil => rfl
  | cons c s ih => simp [ih]

/-- Passing over the whole of `s` and `k` bytes more. -/
theorem scan_skip_add (k : Nat) (prev : Option UInt8) (s t : Bytes) :
    scan next (s.length + k) prev (s ++ t) = scan next k (lastOr prev s) t := by
  induction s generalizing prev with
  | nil => rw [List.length_nil, Nat.zero_add, List.nil_append, lastOr_nil]
  | cons c s ih =>
    rw [lastOr_cons, ← ih (some c), List.length_cons, Nat.add_right_comm]
    rfl

/-- Passing over the whole of `s` leaves the scanner at what follows it. -/
theorem scan_skip (prev : Option UInt8) (s t : Bytes) :
    scan next s.length prev (s ++ t) = scan next 0 (lastOr prev s) t := scan_skip_add 0 prev s t

/-- Having passed over something, a scanner does not know what stood before it. -/
theorem scan_skip_take {k : Nat} (hk : 0 < k) {s : Bytes} (hs : k ≤ s.length)
    (prev : Option UInt8) :
    scan next k prev s = scan next 0 (lastOr none (s.take k)) (s.drop k) := by
  have hlength : (s.take k).length = k := List.length_take_of_le hs
  have hskip := @scan_skip τ next prev (s.take k) (s.drop k)
  rw [List.take_append_drop, hlength] at hskip
  rw [hskip]
  cases hfirst : s.take k with
  | nil =>
    rw [hfirst, List.length_nil] at hlength
    omega
  | cons c t => rw [lastOr_cons, lastOr_cons]

/-- Passing over at least the whole text ends the scan. -/
theorem scan_skip_all (k : Nat) (prev : Option UInt8) (s : Bytes) (h : s.length ≤ k) :
    scan next k prev s = [] := by
  induction s generalizing k prev with
  | nil => simp
  | cons c s ih =>
    obtain ⟨k, rfl⟩ := Nat.exists_eq_add_of_lt (Nat.lt_of_lt_of_le (Nat.zero_lt_succ _) h)
    rw [Nat.zero_add]
    exact ih k (some c) (Nat.le_of_succ_le_succ (by simpa using h))

/-- A run that a scanner copies byte by byte. -/
theorem scan_copied {next : Option UInt8 → UInt8 → Bytes → Bytes × Nat} (prev : Option UInt8)
    (run more : Bytes)
    (h : ∀ u d v, run = u ++ d :: v → next (lastOr prev u) d (v ++ more) = ([d], 0)) :
    (scan next 0 prev (run ++ more)).flatten =
      run ++ (scan next 0 (lastOr prev run) more).flatten := by
  induction run generalizing prev with
  | nil => rfl
  | cons c run ih =>
    have hhere : next prev c (run ++ more) = ([c], 0) := h [] c run rfl
    have hlater := ih (some c) fun u d v hu => by
      rw [← lastOr_cons prev]
      exact h (c :: u) d v (by rw [hu]; rfl)
    rw [List.cons_append, scan, hhere, List.flatten_cons, hlater, lastOr_cons]
    rfl

/-- Two scanners emit the same text when one emits at every place what the other does, or copies
at once a run that the other copies byte by byte. -/
theorem pass_eq_of_runs {next next' : Option UInt8 → UInt8 → Bytes → Bytes × Nat}
    (h : ∀ prev c rest, next prev c rest = next' prev c rest ∨
      ∃ run more, rest = run ++ more ∧ next prev c rest = (c :: run, run.length) ∧
        ∀ u d v, c :: run = u ++ d :: v → next' (lastOr prev u) d (v ++ more) =
          ([d], 0))
    (s : Bytes) :
    pass next s = pass next' s := by
  have hscan : ∀ n prev (s : Bytes), s.length ≤ n →
      (scan next 0 prev s).flatten = (scan next' 0 prev s).flatten := by
    intro n
    induction n with
    | zero =>
      intro prev s hs
      obtain rfl := List.eq_nil_of_length_eq_zero (Nat.le_zero.mp hs)
      rw [scan_nil, scan_nil]
    | succ n ih =>
      intro prev s hs
      cases s with
      | nil => rw [scan_nil, scan_nil]
      | cons c rest =>
        have hrest : rest.length ≤ n := Nat.le_of_succ_le_succ hs
        rcases h prev c rest with heq | ⟨run, more, rfl, hnext, hcopied⟩
        · rw [scan, scan, heq, List.flatten_cons, List.flatten_cons]
          congr 1
          generalize (next' prev c rest).2 = k
          by_cases hk : k ≤ rest.length
          · have hsplit := (List.take_append_drop k rest).symm
            have hlength : (rest.take k).length = k := List.length_take_of_le hk
            rw [hsplit]
            have hskip := @scan_skip Bytes next (some c) (rest.take k) (rest.drop k)
            have hskip' := @scan_skip Bytes next' (some c) (rest.take k) (rest.drop k)
            rw [hlength] at hskip hskip'
            rw [hskip, hskip']
            exact ih _ _ (by rw [List.length_drop]; omega)
          · rw [scan_skip_all k _ rest (by omega), scan_skip_all k _ rest (by omega)]
        · have hcopy := scan_copied prev (c :: run) more hcopied
          rw [List.cons_append] at hcopy
          rw [hcopy, scan, hnext, scan_skip, List.flatten_cons, lastOr_cons]
          rw [List.length_append] at hrest
          rw [ih _ more (by omega)]
  exact hscan s.length none s (Nat.le_refl _)

/-- Every token was decided on at some byte. -/
theorem mem_scan {k : Nat} {prev : Option UInt8} {s : Bytes} {token : τ}
    (h : token ∈ scan next k prev s) :
    ∃ before c rest, s = before ++ c :: rest ∧ token = (next (lastOr prev before) c rest).1 := by
  induction s generalizing k prev with
  | nil =>
    rw [scan_nil] at h
    exact absurd h List.not_mem_nil
  | cons c s ih =>
    have hlater : ∀ {k : Nat}, token ∈ scan next k (some c) s → ∃ before d rest,
        c :: s = before ++ d :: rest ∧ token = (next (lastOr prev before) d rest).1 := by
      intro k hmem
      obtain ⟨before, d, rest, heq, htoken⟩ := ih hmem
      exact ⟨c :: before, d, rest, by rw [heq]; rfl, by rw [lastOr_cons]; exact htoken⟩
    cases k with
    | zero =>
      rcases List.mem_cons.mp h with rfl | hmem
      · exact ⟨[], c, s, rfl, rfl⟩
      · exact hlater hmem
    | succ k => exact hlater h

/-- A scanner whose tokens never take more than the text has at most one token a byte. -/
theorem scan_length_le (k : Nat) (prev : Option UInt8) (s : Bytes) :
    (scan next k prev s).length ≤ s.length := by
  induction s generalizing k prev with
  | nil => simp
  | cons c s ih =>
    cases k with
    | zero => exact Nat.succ_le_succ (ih _ _)
    | succ k => exact Nat.le_succ_of_le (ih k _)

end

/-! ## Stretches in their places -/

/-- The stretches a scanner picks out, each with the place where it starts; `place` is where the
text starts. -/
def scanAt (next : Option UInt8 → UInt8 → Bytes → Option τ × Nat) :
    Nat → Nat → Option UInt8 → Bytes → List (Nat × τ)
  | _, _, _, [] => []
  | place, k + 1, _, c :: rest => scanAt next (place + 1) k (some c) rest
  | place, 0, prev, c :: rest =>
    ((next prev c rest).1.map fun stretch => (place, stretch)).toList ++
      scanAt next (place + 1) (next prev c rest).2 (some c) rest

/-- The text with its stretches rewritten and everything between them copied; the first `copied`
bytes are behind. -/
def splice (rewrite : Bytes → Bytes) : Nat → List (Nat × Bytes) → Bytes → Bytes
  | copied, [], text => text.drop copied
  | copied, (place, stretch) :: more, text =>
    (text.take place).drop copied ++ rewrite stretch ++
      splice rewrite (place + stretch.length) more text

section
variable {next next' : Option UInt8 → UInt8 → Bytes → Option τ × Nat}

@[simp] theorem scanAt_nil (place k : Nat) (prev : Option UInt8) :
    scanAt next place k prev [] = [] := by
  cases k <;> rfl

theorem scanAt_skip (place : Nat) (prev : Option UInt8) (s t : Bytes) :
    scanAt next place s.length prev (s ++ t) = scanAt next (place + s.length) 0
      (lastOr prev s) t := by
  induction s generalizing place prev with
  | nil => rfl
  | cons c s ih =>
    rw [lastOr_cons, List.length_cons, ← Nat.add_assoc, Nat.add_right_comm, ← ih]
    rfl

/-- A run in which nothing is picked out. -/
theorem scanAt_passed (place : Nat) (prev : Option UInt8) (run more : Bytes)
    (h : ∀ u d v, run = u ++ d :: v → next (lastOr prev u) d (v ++ more) = (none, 0)) :
    scanAt next place 0 prev (run ++ more) = scanAt next (place + run.length) 0
      (lastOr prev run) more := by
  induction run generalizing place prev with
  | nil => rfl
  | cons c run ih =>
    have hhere : next prev c (run ++ more) = (none, 0) := h [] c run rfl
    have hlater := ih (place + 1) (some c) fun u d v hu => by
      rw [← lastOr_cons prev]
      exact h (c :: u) d v (by rw [hu]; rfl)
    rw [List.cons_append, scanAt, hhere, hlater, lastOr_cons, List.length_cons, Nat.add_assoc,
      Nat.add_comm 1]
    rfl

/-- Two scanners pick out the same stretches when one picks out at every place what the other does,
or passes over a run in which the other picks out nothing. -/
theorem scanAt_eq_of_runs (hfits : ∀ prev c rest, (next prev c rest).2 ≤ rest.length)
    (h : ∀ prev c rest, next prev c rest = next' prev c rest ∨
      ∃ run more, rest = run ++ more ∧ next prev c rest = (none, run.length) ∧
        ∀ u d v, c :: run = u ++ d :: v → next' (lastOr prev u) d (v ++ more) = (none, 0))
    (place : Nat) (prev : Option UInt8) (s : Bytes) :
    scanAt next place 0 prev s = scanAt next' place 0 prev s := by
  induction hn : s.length using Nat.strongRecOn generalizing place prev s with
  | ind n ih =>
    cases s with
    | nil => rw [scanAt_nil, scanAt_nil]
    | cons c rest =>
      rcases h prev c rest with heq | ⟨run, more, rfl, hnext, hpassed⟩
      · rw [scanAt, scanAt, ← heq]
        congr 1
        obtain ⟨s, t, rfl, hs⟩ : ∃ s t, rest = s ++ t ∧ s.length = (next prev c rest).2 :=
          ⟨_, _, (List.take_append_drop _ rest).symm, List.length_take_of_le (hfits prev c rest)⟩
        rw [← hs, scanAt_skip, scanAt_skip]
        exact ih t.length (by rw [← hn, List.length_cons, List.length_append]; omega) _ _ t rfl
      · have hpass := scanAt_passed place prev (c :: run) more hpassed
        rw [List.cons_append] at hpass
        rw [hpass, scanAt, hnext, scanAt_skip, lastOr_cons, List.length_cons, Nat.add_assoc,
          Nat.add_comm 1]
        exact ih more.length
          (by rw [← hn, List.length_cons, List.length_append]; omega) _ _ more rfl

end

/-- A pass that rewrites the stretches a scanner picks out and copies what it passes over. -/
theorem pass_eq_splice {next : Option UInt8 → UInt8 → Bytes → Option Bytes × Nat}
    {piece : Option UInt8 → UInt8 → Bytes → Bytes × Nat} {rewrite : Bytes → Bytes}
    (hfits : ∀ prev c rest, (next prev c rest).2 ≤ rest.length)
    (htakes : ∀ prev c rest stretch n, next prev c rest = (some stretch, n) →
      stretch = (c :: rest).take (n + 1))
    (hpiece : ∀ prev c rest, piece prev c rest =
      (((next prev c rest).1.map rewrite).getD ((c :: rest).take ((next prev c rest).2 + 1)),
      (next prev c rest).2))
    (text : Bytes) :
    pass piece text = splice rewrite 0 (scanAt next 0 0 none text) text := by
  have hscan : ∀ n copied prev (before rest : Bytes), rest.length = n → copied ≤ before.length →
      before.drop copied ++ (scan piece 0 prev rest).flatten =
        splice rewrite copied (scanAt next before.length 0 prev rest) (before ++ rest) := by
    intro n
    induction n using Nat.strongRecOn with
    | ind n ih =>
      intro copied prev before rest hn hcopied
      cases rest with
      | nil => rw [scan_nil, scanAt_nil, splice, List.append_nil]; exact List.append_nil _
      | cons c rest =>
        obtain ⟨s, t, rfl, hs⟩ : ∃ s t, rest = s ++ t ∧ s.length = (next prev c rest).2 :=
          ⟨_, _, (List.take_append_drop _ rest).symm, List.length_take_of_le (hfits prev c rest)⟩
        have hsmall : t.length < n := by
          rw [← hn, List.length_cons, List.length_append]
          omega
        have htext : before ++ c :: (s ++ t) = before ++ c :: s ++ t := by simp
        have htaken : (c :: (s ++ t)).take (s.length + 1) = c :: s := by
          rw [List.take_succ_cons, List.take_left]
        have hplace : before.length + 1 + s.length = (before ++ c :: s).length := by
          rw [List.length_append, List.length_cons]
          omega
        have hlater := fun copied hcopied =>
          ih t.length hsmall copied (lastOr (some c) s) (before ++ c :: s) t rfl hcopied
        rw [scan, scanAt, hpiece, List.flatten_cons, ← hs, scan_skip, scanAt_skip, hplace, htaken]
        generalize hfound : (next prev c (s ++ t)).1 = found
        cases found with
        | none =>
          have hbehind := hlater copied (by rw [List.length_append]; omega)
          rw [List.drop_append_of_le_length hcopied, List.append_assoc, ← htext] at hbehind
          exact hbehind
        | some stretch =>
          have hstretch := htakes prev c (s ++ t) stretch s.length (Prod.ext hfound hs.symm)
          rw [htaken] at hstretch
          subst hstretch
          have hbehind := hlater (before ++ c :: s).length (Nat.le_refl _)
          rw [List.drop_length, List.nil_append, ← htext, List.length_append] at hbehind
          show _ = ((before ++ c :: (s ++ t)).take before.length).drop copied ++
            rewrite (c :: s) ++ _
          rw [List.take_left, List.append_assoc, hbehind, List.length_append]
          rfl
  exact hscan text.length 0 none [] text rfl (Nat.zero_le _)

/-! ## Stretches that are replaced -/

/-- The second text is the first with disjoint stretches, none of them empty, replaced by a mark
each. -/
inductive Replaced (mark : Bytes) : Bytes → Bytes → Prop
  | nil : Replaced mark [] []
  | keep (c : UInt8) {s t : Bytes} (h : Replaced mark s t) : Replaced mark (c :: s) (c :: t)
  | mark {stretch s t : Bytes} (hne : stretch ≠ []) (h : Replaced mark s t) :
      Replaced mark (stretch ++ s) (mark ++ t)

/-- A scanner that copies the byte it stands at, or marks a stretch that lies in the text. -/
theorem pass_replaced {next : Option UInt8 → UInt8 → Bytes → Bytes × Nat} {mark : Bytes}
    (h : ∀ prev c rest, next prev c rest = ([c], 0) ∨
      (next prev c rest).1 = mark ∧ (next prev c rest).2 ≤ rest.length)
    (s : Bytes) :
    Replaced mark s (pass next s) := by
  have hscan : ∀ n prev (s : Bytes), s.length ≤ n →
      Replaced mark s (scan next 0 prev s).flatten := by
    intro n
    induction n with
    | zero =>
      intro prev s hs
      obtain rfl := List.eq_nil_of_length_eq_zero (Nat.le_zero.mp hs)
      exact .nil
    | succ n ih =>
      intro prev s hs
      cases s with
      | nil => exact .nil
      | cons c rest =>
        have hrest : rest.length ≤ n := Nat.le_of_succ_le_succ hs
        rw [scan, List.flatten_cons]
        rcases h prev c rest with hcopy | ⟨hmark, hfits⟩
        · rw [hcopy]
          exact .keep c (ih _ _ hrest)
        · rw [hmark]
          generalize (next prev c rest).2 = k at hfits
          have hlength : (rest.take k).length = k := List.length_take_of_le hfits
          have hskip := @scan_skip Bytes next (some c) (rest.take k) (rest.drop k)
          rw [List.take_append_drop, hlength] at hskip
          rw [hskip]
          have hlater := ih (lastOr (some c) (rest.take k)) (rest.drop k)
            (by rw [List.length_drop]; omega)
          have hreplaced := @Replaced.mark mark _ _ _ (List.cons_ne_nil c (rest.take k)) hlater
          rwa [List.cons_append, List.take_append_drop] at hreplaced
  exact hscan s.length none s (Nat.le_refl _)

/-! ## Bytes a scanner does not look past -/

/-- A byte that is always copied, that ends every token, and that is for the token behind it
what the start of the text is. -/
structure Barrier (next : Option UInt8 → UInt8 → Bytes → Bytes × Nat) (c : UInt8) : Prop where
  copied : ∀ prev rest, next prev c rest = ([c], 0)
  fits : ∀ prev d s, (next prev d s).2 ≤ s.length
  before : ∀ prev d s t, next prev d (s ++ c :: t) = next prev d s
  behind : ∀ d s, next (some c) d s = next none d s

section
variable {next : Option UInt8 → UInt8 → Bytes → Bytes × Nat} {c : UInt8}

theorem Barrier.scan_append (h : Barrier next c) (s t : Bytes) {k : Nat} (prev : Option UInt8)
    (hk : k ≤ s.length) :
    scan next k prev (s ++ c :: t) = scan next k prev s ++ [c] :: scan next 0 none t := by
  induction s generalizing k prev with
  | nil =>
    obtain rfl := Nat.le_zero.mp hk
    have hstart : scan next 0 (some c) t = scan next 0 none t := by
      cases t with
      | nil => rfl
      | cons d t => rw [scan, scan, h.behind]
    show (next prev c t).1 :: scan next (next prev c t).2 (some c) t = _
    rw [h.copied, hstart]
    rfl
  | cons d s ih =>
    cases k with
    | zero =>
      show (next prev d (s ++ c :: t)).1 :: scan next (next prev d (s ++ c :: t)).2 (some d)
        (s ++ c :: t) = _
      rw [h.before, ih (some d) (h.fits prev d s)]
      rfl
    | succ k => exact ih (some d) (Nat.le_of_succ_le_succ hk)

/-- No token reaches up to such a byte. -/
theorem Barrier.not_mem (h : Barrier next c) (prev : Option UInt8) (s : Bytes)
    {d : UInt8} (hd : d ≠ c) : c ∉ (d :: s).take ((next prev d s).2 + 1) := by
  by_cases hc : c ∈ s
  · obtain ⟨u, v, rfl, hu⟩ := List.eq_append_cons_of_mem hc
    have hfits := h.fits prev d u
    rw [h.before, List.take_succ_cons, List.take_append_of_le_length hfits, List.mem_cons]
    exact not_or.mpr ⟨hd.symm, fun hmem => hu (List.mem_of_mem_take hmem)⟩
  · rw [List.take_succ_cons, List.mem_cons]
    exact not_or.mpr ⟨hd.symm, fun hmem => hc (List.mem_of_mem_take hmem)⟩

/-- Both sides of such a byte are passed over on their own. -/
theorem Barrier.pass (h : Barrier next c) (s t : Bytes) :
    pass next (s ++ c :: t) = pass next s ++ c :: pass next t := by
  rw [ForgeOps.pass, h.scan_append s t none (Nat.zero_le _), List.flatten_append, List.flatten_cons]
  rfl

end

/-! ## Where a scanner stands -/

section
variable {next : Option UInt8 → UInt8 → Bytes → τ × Nat} {text : Bytes}

/-- Having emitted `tokens` for `before`, the scanner stands before `rest`. -/
inductive Reaches (next : Option UInt8 → UInt8 → Bytes → τ × Nat) (text : Bytes) :
    List τ → Bytes → Bytes → Prop
  | start : Reaches next text [] [] text
  | token {tokens : List τ} {before s rest : Bytes} {c : UInt8} {tok : τ}
      (h : Reaches next text tokens before (c :: (s ++ rest)))
      (htok : next (lastOr none before) c (s ++ rest) = (tok, s.length)) :
      Reaches next text (tokens ++ [tok]) (before ++ c :: s) rest

namespace Reaches

variable {tokens : List τ} {before rest : Bytes}

theorem scan_eq (h : Reaches next text tokens before rest) :
    scan next 0 none text = tokens ++ scan next 0 (lastOr none before) rest := by
  induction h with
  | start => rfl
  | @token tokens before s rest c tok _ htok ih =>
    rw [ih, scan, htok, scan_skip, lastOr_append, lastOr_cons]
    simp

theorem nothing (h : Reaches next text [] before rest) : before = [] := by
  generalize htokens : ([] : List τ) = tokens at h
  cases h with
  | start => rfl
  | token _ _ => exact absurd htokens (by simp)

/-- Where the last token starts. -/
theorem last {tok : τ} (h : Reaches next text (tokens ++ [tok]) before rest) : ∃ b c s,
    before = b ++ c :: s ∧ Reaches next text tokens b (c :: (s ++ rest)) ∧
      next (lastOr none b) c (s ++ rest) = (tok, s.length) := by
  generalize htokens : tokens ++ [tok] = all at h
  cases h with
  | start => exact absurd htokens (by simp)
  | @token tokens' b s rest c tok' hb hnext =>
    obtain ⟨rfl, hlast⟩ := List.append_inj' htokens rfl
    obtain rfl := List.singleton_inj.mp hlast
    exact ⟨b, c, s, rfl, hb, hnext⟩

/-- Between any two of its tokens the scanner stands somewhere. -/
theorem of_scan (hfits : ∀ prev c s, (next prev c s).2 ≤ s.length) {later : List τ}
    (h : scan next 0 none text = tokens ++ later) : ∃ before rest,
      Reaches next text tokens before rest ∧ scan next 0 (lastOr none before) rest = later := by
  induction tokens using List.reverseRecOn generalizing later with
  | nil => exact ⟨[], text, .start, h⟩
  | append_singleton tokens tok ih =>
    obtain ⟨before, rest, hreach, hscan⟩ := ih (by rw [h, List.append_assoc])
    cases rest with
    | nil =>
      rw [scan_nil] at hscan
      exact absurd hscan.symm (by simp)
    | cons c rest =>
      obtain ⟨htok, hlater⟩ := List.cons.inj hscan
      generalize hk : (next (lastOr none before) c rest).2 = k at hlater
      have hle : k ≤ rest.length := hk ▸ hfits _ _ _
      obtain ⟨s, t, rfl, rfl⟩ : ∃ s t, rest = s ++ t ∧ s.length = k :=
        ⟨rest.take k, rest.drop k, (List.take_append_drop k rest).symm, List.length_take_of_le hle⟩
      refine ⟨before ++ c :: s, t, .token hreach (Prod.ext htok hk), ?_⟩
      rw [lastOr_append, lastOr_cons, ← scan_skip]
      exact hlater

/-- Scanners whose tokens are equally long stand in the same places. -/
theorem of_skips {σ : Type*} {next' : Option UInt8 → UInt8 → Bytes → σ × Nat}
    (hskips : ∀ prev c s, (next' prev c s).2 = (next prev c s).2)
    (h : Reaches next text tokens before rest) :
    ∃ tokens', Reaches next' text tokens' before rest := by
  induction h with
  | start => exact ⟨[], .start⟩
  | @token tokens before s rest c tok _ htok ih =>
    obtain ⟨tokens', h'⟩ := ih
    exact ⟨_, h'.token (Prod.ext rfl ((hskips _ _ _).trans (congrArg Prod.snd htok)))⟩

/-- A position is stood at, or a token reaches over it. -/
theorem or_over (hfits : ∀ prev c s, (next prev c s).2 ≤ s.length) (u v : Bytes)
    (h : Reaches next (before ++ u ++ v) tokens before (u ++ v)) :
    (∃ tokens', Reaches next (before ++ u ++ v) tokens' (before ++ u) v) ∨
      ∃ (tokens' : List τ) (x y s rest : Bytes) (c : UInt8) (tok : τ),
        before ++ u = x ++ y ∧ y ≠ [] ∧ y ++ v = c :: (s ++ rest) ∧
        Reaches next (before ++ u ++ v) tokens' x (c :: (s ++ rest)) ∧
        next (lastOr none x) c (s ++ rest) = (tok, s.length) ∧ y.length < s.length + 1 := by
  induction hn : u.length using Nat.strongRecOn generalizing tokens before u with
  | ind n ih =>
    cases u with
    | nil => exact .inl ⟨tokens, by simpa using h⟩
    | cons c u =>
      obtain ⟨tok, k, hnext⟩ : ∃ tok k, next (lastOr none before) c (u ++ v) =
          (tok, k) := ⟨_, _, rfl⟩
      have hk : k ≤ (u ++ v).length := by
        have := hfits (lastOr none before) c (u ++ v)
        rwa [hnext] at this
      by_cases hin : k ≤ u.length
      · -- the token ends before the position or at it
        have hsplit : u = u.take k ++ u.drop k := (List.take_append_drop k u).symm
        have hlength : (u.take k).length = k := List.length_take_of_le hin
        have hstep : Reaches next (before ++ c :: u ++ v) (tokens ++ [tok])
            (before ++ c :: u.take k)
            (u.drop k ++ v) := by
          apply Reaches.token (s := u.take k)
          · rw [← List.append_assoc, ← hsplit]
            exact h
          · rw [← List.append_assoc, ← hsplit, hnext, hlength]
        have htext : before ++ c :: u = before ++ c :: u.take k ++ u.drop k := by
          rw [List.append_assoc, List.cons_append, ← hsplit]
        rw [htext] at hstep ⊢
        exact ih (u.drop k).length (by rw [← hn, List.length_drop, List.length_cons]; omega)
          (u.drop k) hstep rfl
      · refine .inr ⟨tokens, before, c :: u, (u ++ v).take k, (u ++ v).drop k, c, tok, rfl, by simp,
          ?_, ?_, ?_, ?_⟩
        · rw [List.take_append_drop]
          rfl
        · rw [List.take_append_drop]
          exact h
        · rw [List.take_append_drop, hnext, List.length_take_of_le hk]
        · rw [List.length_take_of_le hk, List.length_cons]
          omega

end Reaches

end

end ForgeOps
