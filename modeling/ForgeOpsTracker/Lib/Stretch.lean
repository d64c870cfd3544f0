import ForgeOpsTracker.Lib.Scan

/-! Scanners on two texts that differ in one stretch. A scanner that copies bytes and replaces what
it takes by one and the same text may take the stretch or leave it where it is; where its decisions
do not depend on what is in the stretch, the two texts stay alike. -/

namespace ForgeOps

variable {next : Option UInt8 → UInt8 → Bytes → Bytes × Nat} {edge behind : UInt8 → Bool}

/-- The text ends, if it has a byte, in one of the given. -/
def EndsIn (edge : UInt8 → Bool) (s : Bytes) : Prop := ∀ c ∈ s.getLast?, edge c = true

def StartsIn (behind : UInt8 → Bool) (s : Bytes) : Prop := ∀ c ∈ s.head?, behind c = true

theorem EndsIn.append {s t : Bytes} (hs : t = [] → EndsIn edge s) (ht : EndsIn edge t) :
    EndsIn edge (s ++ t) := by
  intro c hc
  rw [Option.mem_def, List.getLast?_append] at hc
  cases hlast : t.getLast? with
  | none =>
    rw [hlast, Option.none_or] at hc
    exact hs (List.getLast?_eq_none_iff.mp hlast) c hc
  | some d =>
    rw [hlast, Option.some_or] at hc
    exact ht c (hlast.trans hc)

theorem EndsIn.of_cons {c d : UInt8} {s : Bytes} (h : EndsIn edge (c :: d :: s)) :
    EndsIn edge (d :: s) := by
  intro e he
  exact h e (by rwa [List.getLast?_cons_cons])

theorem EndsIn.tail {c : UInt8} {s : Bytes} (h : EndsIn edge (c :: s)) : EndsIn edge s := by
  cases s with
  | nil => exact fun c hc => absurd hc (by simp)
  | cons d s => exact h.of_cons

/-! ## Barriers on one side -/

/-- What stands before a text is passed over on its own when it ends in a barrier. -/
theorem pass_append_of_endsIn (h : ∀ c, edge c = true → Barrier next c) {p : Bytes}
    (hp : EndsIn edge p) (s : Bytes) : pass next (p ++ s) = pass next p ++ pass next s := by
  cases p using List.reverseRecOn with
  | nil => rfl
  | append_singleton p c =>
    have hc := h c (hp c (by simp))
    have hnil : pass next [] = [] := rfl
    rw [List.append_assoc, List.singleton_append, hc.pass, hc.pass p [], hnil, List.append_assoc]
    rfl

/-- And what stands behind it, when it starts with one. -/
theorem pass_append_of_startsIn (h : ∀ c, behind c = true → Barrier next c) {q : Bytes}
    (hq : StartsIn behind q) (s : Bytes) : pass next (s ++ q) = pass next s ++ pass next q := by
  cases q with
  | nil => exact (congrArg _ (List.append_nil s)).trans (List.append_nil _).symm
  | cons c q =>
    have hc := h c (hq c rfl)
    have hstart : pass next (c :: q) = c :: pass next q := hc.pass [] q
    rw [hc.pass, hstart]

theorem pass_endsIn (h : ∀ c, edge c = true → Barrier next c) {p : Bytes} (hp : EndsIn edge p) :
    EndsIn edge (pass next p) := by
  cases p using List.reverseRecOn with
  | nil => exact hp
  | append_singleton p c =>
    have hc := hp c (by simp)
    have hnil : pass next [] = [] := rfl
    rw [(h c hc).pass p [], hnil]
    intro d hd
    obtain rfl : c = d := by simpa using hd
    exact hc

theorem pass_startsIn (h : ∀ c, behind c = true → Barrier next c) {q : Bytes}
    (hq : StartsIn behind q) : StartsIn behind (pass next q) := by
  cases q with
  | nil => exact hq
  | cons c q =>
    have hc := hq c rfl
    have hstart : pass next (c :: q) = c :: pass next q := (h c hc).pass [] q
    rw [hstart]
    intro d hd
    obtain rfl : c = d := Option.some.inj hd
    exact hc

/-! ## One text for everything that is taken -/

/-- The scanner copies a byte, or takes something and writes `text` for it. -/
structure Replaces (next : Option UInt8 → UInt8 → Bytes → Bytes × Nat) (text : Bytes) : Prop where
  cases : ∀ prev c s, next prev c s = ([c], 0) ∨ ∃ n ≤ s.length, next prev c s = (text, n)

namespace Replaces

variable {text : Bytes}

theorem fits (h : Replaces next text) (prev : Option UInt8) (c : UInt8) (s : Bytes) :
    (next prev c s).2 ≤ s.length := by
  rcases h.cases prev c s with heq | ⟨n, hn, heq⟩
  · rw [heq]
    exact Nat.zero_le _
  · rwa [heq]

/-- Every byte that comes out was there or is of the text that is written. -/
theorem mem_pass (h : Replaces next text) {s : Bytes} {c : UInt8} (hc : c ∈ pass next s) :
    c ∈ s ∨ c ∈ text := by
  obtain ⟨token, htoken, hmem⟩ := List.mem_flatten.mp hc
  obtain ⟨before, d, rest, rfl, rfl⟩ := mem_scan htoken
  rcases h.cases (lastOr none before) d rest with heq | ⟨n, -, heq⟩
  · rw [heq, List.mem_singleton] at hmem
    subst hmem
    exact .inl (by simp)
  · rw [heq] at hmem
    exact .inr hmem

theorem endsIn (h : Replaces next text) (htext : EndsIn edge text) {prev : Option UInt8} {c : UInt8}
    {s : Bytes} (hcopy : next prev c s = ([c], 0) → edge c = true) :
    EndsIn edge (next prev c s).1 := by
  rcases h.cases prev c s with heq | ⟨n, -, heq⟩
  · intro d hd
    rw [heq] at hd
    obtain rfl : c = d := by simpa using hd
    exact hcopy heq
  · rwa [heq]

theorem startsIn_scan (h : Replaces next text) (hne : text ≠ [])
    (htext : StartsIn behind text) {q : Bytes} (hq : StartsIn behind q) (prev : Option UInt8) :
    StartsIn behind (scan next 0 prev q).flatten := by
  cases q with
  | nil => exact hq
  | cons c q =>
    intro d hd
    rw [scan, List.flatten_cons] at hd
    rcases h.cases prev c q with heq | ⟨n, -, heq⟩
    · rw [heq] at hd
      obtain rfl : c = d := by simpa using hd
      exact hq c rfl
    · rw [heq, Option.mem_def, List.head?_append_of_ne_nil _ hne] at hd
      exact htext d hd

/-- A text that ends in such a byte still does once it is passed over. -/
theorem endsIn_scan (h : Replaces next text) (hne : text ≠ []) (htext : EndsIn edge text)
    {p : Bytes} {k : Nat} {prev : Option UInt8} (hp : EndsIn edge p) :
    EndsIn edge (scan next k prev p).flatten ∧
    ((scan next k prev p).flatten = [] → p.length ≤ k) := by
  induction p generalizing k prev with
  | nil =>
    rw [scan_nil]
    exact ⟨hp, fun _ => Nat.zero_le _⟩
  | cons c p ih =>
    cases k with
    | succ k =>
      obtain ⟨hend, hnil⟩ := @ih k (some c) hp.tail
      exact ⟨hend, fun h => Nat.succ_le_succ (hnil h)⟩
    | zero =>
      obtain ⟨hend, hnil⟩ := @ih (next prev c p).2 (some c) hp.tail
      rw [scan, List.flatten_cons]
      have htoken : (next prev c p).1 ≠ [] := by
        rcases h.cases prev c p with heq | ⟨n, -, heq⟩
        · rw [heq]
          exact List.cons_ne_nil _ _
        · rwa [heq]
      refine ⟨EndsIn.append (fun hnone => h.endsIn htext fun heq => ?_) hend,
        fun h => absurd (List.append_eq_nil_iff.mp h).1 htoken⟩
      have hlast := hnil hnone
      rw [heq, Nat.le_zero, List.length_eq_zero_iff] at hlast
      exact hp c (by rw [hlast]; rfl)

variable {x y q : Bytes}

/-- What the scanner makes of two texts that differ in the stretches `x` and `y`, in front of `q`.
Before the stretch it takes the same of both or takes the stretch with a part of `q`; at the stretch
it does the same. -/
theorem alike (h : Replaces next text) (hne : text ≠ []) (hend : EndsIn edge text)
    (hover : ∀ prev c s, EndsIn edge (c :: s) →
      next prev c (s ++ (x ++ q)) = next prev c (s ++ (y ++ q)) ∧
      (next prev c (s ++ (x ++ q))).2 ≤ s.length ∨ ∃ m, 0 < m ∧ next prev c (s ++ (x ++ q)) =
        (text, s.length + (x.length + m)) ∧ next prev c (s ++ (y ++ q)) =
        (text, s.length + (y.length + m)))
    (hat : ∀ prev, (∀ c ∈ prev, edge c = true) →
      (scan next 0 prev (x ++ q)).flatten = (scan next 0 prev (y ++ q)).flatten ∨
      ∃ q', StartsIn behind q' ∧ (scan next 0 prev (x ++ q)).flatten = x ++ q' ∧
        (scan next 0 prev (y ++ q)).flatten = y ++ q')
    {p : Bytes} (hp : EndsIn edge p) :
    pass next (p ++ (x ++ q)) = pass next (p ++ (y ++ q)) ∨
      ∃ p' q', EndsIn edge p' ∧ StartsIn behind q' ∧ pass next (p ++ (x ++ q)) = p' ++ (x ++ q') ∧
        pass next (p ++ (y ++ q)) = p' ++ (y ++ q') := by
  have hscan : ∀ (p : Bytes) (k : Nat) (prev : Option UInt8), k ≤ p.length →
      (∀ c ∈ lastOr prev p, edge c = true) →
      (scan next k prev (p ++ (x ++ q))).flatten = (scan next k prev (p ++ (y ++ q))).flatten ∨
        ∃ p' q', EndsIn edge p' ∧ (p' = [] → p.length ≤ k) ∧ StartsIn behind q' ∧
          (scan next k prev (p ++ (x ++ q))).flatten = p' ++ (x ++ q') ∧
          (scan next k prev (p ++ (y ++ q))).flatten = p' ++ (y ++ q') := by
    intro p
    induction p with
    | nil =>
      intro k prev hk hprev
      obtain rfl := Nat.le_zero.mp hk
      rcases hat prev hprev with heq | ⟨q', hq', hx, hy⟩
      · exact .inl heq
      · exact .inr ⟨[], q', fun c hc => absurd hc (by simp), fun _ => Nat.le_refl _, hq', hx, hy⟩
    | cons c p ih =>
      intro k prev hk hprev
      rw [lastOr_cons] at hprev
      cases k with
      | succ k =>
        rcases ih k (some c) (Nat.le_of_succ_le_succ hk) hprev with heq |
          ⟨p', q', hp', hnil, hq', hx, hy⟩
        · exact .inl heq
        · exact .inr ⟨p', q', hp', fun h => Nat.succ_le_succ (hnil h), hq', hx, hy⟩
      | zero =>
        have hlast : EndsIn edge (c :: p) := by
          intro d hd
          refine hprev d ?_
          rw [← lastOr_cons none, lastOr, Option.mem_def.mp hd]
          rfl
        simp only [List.cons_append, scan, List.flatten_cons]
        rcases hover prev c p hlast with ⟨heq, hfits⟩ | ⟨m, hm, hx, hy⟩
        · rw [← heq]
          rcases ih _ (some c) hfits hprev with hsame | ⟨p', q', hp', hnil, hq', hx, hy⟩
          · exact .inl (by rw [hsame])
          · refine .inr ⟨(next prev c (p ++ (x ++ q))).1 ++ p', q',
              EndsIn.append (fun hnone => h.endsIn hend fun hcopy => ?_) hp', fun hnone => ?_, hq',
              by rw [hx, List.append_assoc], by rw [hy, List.append_assoc]⟩
            · have hempty := hnil hnone
              rw [hcopy, Nat.le_zero, List.length_eq_zero_iff] at hempty
              exact hlast c (by rw [hempty]; rfl)
            · exfalso
              have hnone := (List.append_eq_nil_iff.mp hnone).1
              rcases h.cases prev c (p ++ (x ++ q)) with hcopy | ⟨n, -, htake⟩
              · rw [hcopy] at hnone
                exact absurd hnone (List.cons_ne_nil _ _)
              · rw [htake] at hnone
                exact hne hnone
        · -- the stretch is taken, and some bytes behind it
          left
          have hqm : m ≤ q.length := by
            have hfits := h.fits prev c (p ++ (x ++ q))
            rw [hx, List.length_append, List.length_append] at hfits
            omega
          have hskip : ∀ z : Bytes, scan next (p.length + (z.length + m)) (some c) (p ++ (z ++ q)) =
              scan next 0 (lastOr none (q.take m)) (q.drop m) := fun z => by
            rw [scan_skip_add, scan_skip_add, scan_skip_take hm hqm]
          rw [hx, hy, hskip, hskip]
  have hstart : ∀ c ∈ lastOr none p, edge c = true := by
    intro c hc
    rw [lastOr, Option.or_none] at hc
    exact hp c hc
  rcases hscan p 0 none (Nat.zero_le _) hstart with heq | ⟨p', q', hp', -, hq', hx, hy⟩
  · exact .inl heq
  · exact .inr ⟨p', q', hp', hq', hx, hy⟩

/-- A stretch that is copied byte by byte, and that is all the same to what comes behind it. -/
theorem at_copied (h : Replaces next text) (hne : text ≠ []) (hstart : StartsIn behind text)
    (hq : StartsIn behind q) {prev : Option UInt8}
    (hx : ∀ u d v, x = u ++ d :: v → next (lastOr prev u) d (v ++ q) = ([d], 0))
    (hy : ∀ u d v, y = u ++ d :: v → next (lastOr prev u) d (v ++ q) = ([d], 0))
    (hbehind : ∀ c s, next (lastOr prev x) c s = next (lastOr prev y) c s) :
    ∃ q', StartsIn behind q' ∧ (scan next 0 prev (x ++ q)).flatten = x ++ q' ∧
      (scan next 0 prev (y ++ q)).flatten = y ++ q' := by
  refine ⟨_, h.startsIn_scan hne hstart hq (lastOr prev x), scan_copied prev x q hx, ?_⟩
  rw [scan_copied prev y q hy]
  cases q with
  | nil => rw [scan_nil, scan_nil]
  | cons c q => rw [scan, scan, hbehind]

end Replaces

end ForgeOps
