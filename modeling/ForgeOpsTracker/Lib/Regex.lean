import ForgeOpsTracker.Lib.Stretch

/-! Regular expressions as a backtracking engine matches them: of two matches at one place the
one that is tried first counts, a star tries one turn more before it tries to stop, and a test may
look at the byte before a place or at the byte behind it. -/

namespace ForgeOps

inductive Regex
  | empty
  | set (p : UInt8 → Bool)
  | seq (a b : Regex)
  | alt (a b : Regex)
  | star (a : Regex)
  | notBehind (p : UInt8 → Bool)
  | notAhead (p : UInt8 → Bool)
  | boundary (p : UInt8 → Bool)

namespace Regex

/-- The lengths a star tries, given those its body tries. A turn that takes nothing is not taken, so
`fuel` turns are enough for a text of that length. -/
def starTries (body : Option UInt8 → Bytes → List Nat) : Nat → Option UInt8 → Bytes → List Nat
  | 0, _, _ => [0]
  | fuel + 1, prev, s =>
    (((body prev s).filter (0 < ·)).flatMap fun n =>
      (starTries body fuel (lastOr prev (s.take n)) (s.drop n)).map (n + ·)) ++ [0]

/-- How many bytes of `s` a match may take, in the order in which they are tried. -/
def tries : Regex → Option UInt8 → Bytes → List Nat
  | .empty, _, _ => [0]
  | .set p, _, s => if (s.head?.map p).getD false then [1] else []
  | .seq a b, prev, s =>
    (a.tries prev s).flatMap fun n => (b.tries (lastOr prev (s.take n)) (s.drop n)).map (n + ·)
  | .alt a b, prev, s => a.tries prev s ++ b.tries prev s
  | .star a, prev, s => starTries a.tries s.length prev s
  | .notBehind p, prev, _ => if (prev.map p).getD false then [] else [0]
  | .notAhead p, _, s => if (s.head?.map p).getD false then [] else [0]
  | .boundary p, prev, s =>
    if (prev.map p).getD false != (s.head?.map p).getD false then [0] else []

/-- The match at the head of `s`. -/
def first (r : Regex) (prev : Option UInt8) (s : Bytes) : Option Nat := (r.tries prev s).head?

def byte (c : UInt8) : Regex := set (· == c)

/-- `a{n}` -/
def exactly : Nat → Regex → Regex
  | 0, _ => empty
  | n + 1, a => seq a (exactly n a)

/-- `a{n,}` -/
def atLeast (n : Nat) (a : Regex) : Regex := seq (exactly n a) (star a)

/-- `a+` -/
def plus (a : Regex) : Regex := atLeast 1 a

/-- `a?` -/
def opt (a : Regex) : Regex := alt a empty

/-- `a{0,n}` -/
def upTo : Nat → Regex → Regex
  | 0, _ => empty
  | n + 1, a => opt (seq a (upTo n a))

/-- `a{n,m}` -/
def between (n m : Nat) (a : Regex) : Regex := seq (exactly n a) (upTo (m - n) a)

/-- A match that takes something gives way to `replacement`; without one a byte is copied. -/
def replaceNext (r : Regex) (replacement : Bytes) (prev : Option UInt8) (c : UInt8)
    (rest : Bytes) : Bytes × Nat :=
  match r.first prev (c :: rest) with
  | some (n + 1) => (replacement, n)
  | _ => ([c], 0)

/-- Every match, from the left, and on from where it ends. -/
def replaceAll (r : Regex) (replacement : Bytes) : Bytes → Bytes := pass (r.replaceNext replacement)

/-- The match that starts here, when it takes something, and how many bytes behind the first it
takes. -/
def matchNext (r : Regex) (prev : Option UInt8) (c : UInt8) (rest : Bytes) : Option Bytes × Nat :=
  match r.first prev (c :: rest) with
  | some (n + 1) => (some ((c :: rest).take (n + 1)), n)
  | _ => (none, 0)

/-- Every match with the place where it starts, from the left, and on from where it ends. -/
def matchesIn (r : Regex) (text : Bytes) : List (Nat × Bytes) := scanAt r.matchNext 0 0 none text

theorem matchNext_of_none {r : Regex} {prev : Option UInt8} {c : UInt8} {rest : Bytes}
    (h : r.first prev (c :: rest) = none) : r.matchNext prev c rest = (none, 0) := by
  rw [matchNext, h]

theorem matchNext_of_some {r : Regex} {prev : Option UInt8} {c : UInt8} {rest : Bytes} {n : Nat}
    (h : r.first prev (c :: rest) = some (n + 1)) :
    r.matchNext prev c rest = (some ((c :: rest).take (n + 1)), n) := by
  rw [matchNext, h]

theorem replaceNext_of_none {r : Regex} {replacement : Bytes} {prev : Option UInt8}
    {c : UInt8} {rest : Bytes} (h : r.first prev (c :: rest) = none) :
    r.replaceNext replacement prev c rest = ([c], 0) := by
  rw [replaceNext, h]

theorem replaceNext_of_some {r : Regex} {replacement : Bytes} {prev : Option UInt8}
    {c : UInt8} {rest : Bytes} {n : Nat} (h : r.first prev (c :: rest) = some (n + 1)) :
    r.replaceNext replacement prev c rest = (replacement, n) := by
  rw [replaceNext, h]

/-- No match takes more than there is. -/
theorem le_of_mem_tries {r : Regex} {prev : Option UInt8} {s : Bytes} {n : Nat}
    (h : n ∈ r.tries prev s) : n ≤ s.length := by
  induction r generalizing prev s n with
  | empty =>
    obtain rfl := List.mem_singleton.mp h
    exact Nat.zero_le _
  | set p =>
    rw [tries] at h
    cases s with
    | nil => exact absurd h (by simp)
    | cons c s =>
      split at h
      · obtain rfl := List.mem_singleton.mp h
        simp
      · exact absurd h List.not_mem_nil
  | seq a b iha ihb =>
    obtain ⟨k, hk, hn⟩ := List.mem_flatMap.mp h
    obtain ⟨m, hm, rfl⟩ := List.mem_map.mp hn
    have hk := iha hk
    have hm := ihb hm
    rw [List.length_drop] at hm
    omega
  | alt a b iha ihb =>
    rcases List.mem_append.mp h with h | h
    · exact iha h
    · exact ihb h
  | star a ih =>
    have hfuel : ∀ fuel prev (s : Bytes) n, n ∈ starTries a.tries fuel prev s → n ≤ s.length := by
      intro fuel
      induction fuel with
      | zero =>
        intro prev s n h
        obtain rfl := List.mem_singleton.mp h
        exact Nat.zero_le _
      | succ fuel ihf =>
        intro prev s n h
        rcases List.mem_append.mp h with h | h
        · obtain ⟨k, hk, hn⟩ := List.mem_flatMap.mp h
          obtain ⟨m, hm, rfl⟩ := List.mem_map.mp hn
          have hk := ih (List.mem_of_mem_filter hk)
          have hm := ihf _ _ m hm
          rw [List.length_drop] at hm
          omega
        · obtain rfl := List.mem_singleton.mp h
          exact Nat.zero_le _
    exact hfuel _ _ _ _ h
  | notBehind p =>
    rw [tries] at h
    split at h
    · exact absurd h List.not_mem_nil
    · obtain rfl := List.mem_singleton.mp h
      exact Nat.zero_le _
  | notAhead p =>
    rw [tries] at h
    split at h
    · exact absurd h List.not_mem_nil
    · obtain rfl := List.mem_singleton.mp h
      exact Nat.zero_le _
  | boundary p =>
    rw [tries] at h
    split at h
    · obtain rfl := List.mem_singleton.mp h
      exact Nat.zero_le _
    · exact absurd h List.not_mem_nil

theorem replaces (r : Regex) (replacement : Bytes) :
    Replaces (r.replaceNext replacement) replacement where
  cases prev c s := by
    unfold replaceNext
    split
    · rename_i n hn
      have hfits := le_of_mem_tries (List.mem_of_head? hn)
      exact .inr ⟨n, Nat.le_of_succ_le_succ hfits, rfl⟩
    · exact .inl rfl

/-! ## Sequences -/

theorem tries_seq (a b : Regex) (prev : Option UInt8) (s : Bytes) : (seq a b).tries prev s =
    (a.tries prev s).flatMap fun n =>
      (b.tries (lastOr prev (s.take n)) (s.drop n)).map (n + ·) := rfl

/-- The first way to go on that leads to a match counts. -/
theorem first_seq (a b : Regex) (prev : Option UInt8) (s : Bytes) : (seq a b).first prev s =
    (a.tries prev s).findSome? fun n =>
      (b.first (lastOr prev (s.take n)) (s.drop n)).map (n + ·) := by
  rw [first, tries_seq]
  induction a.tries prev s with
  | nil => rfl
  | cons n ns ih =>
    rw [List.flatMap_cons, List.head?_append, ih, List.head?_map, List.findSome?_cons]
    unfold first
    cases (b.tries (lastOr prev (s.take n)) (s.drop n)).head? <;> rfl

theorem first_byte_seq (c : UInt8) (b : Regex) (prev : Option UInt8) (s : Bytes) :
    (seq (byte c) b).first prev s = match s with
      | d :: rest => if d = c then (b.first (some d) rest).map (1 + ·) else none
      | [] => none := by
  rw [first_seq]
  cases s with
  | nil => rfl
  | cons d rest =>
    by_cases hd : d = c
    · have htries : (byte c).tries prev (d :: rest) = [1] := by simp [byte, tries, hd]
      rw [htries, List.findSome?_cons, List.findSome?_nil]
      simp only [hd, if_true, List.drop_succ_cons, List.drop_zero, List.take_succ_cons,
        List.take_zero, lastOr_cons, lastOr_nil]
      cases b.first (some c) rest <;> rfl
    · have htries : (byte c).tries prev (d :: rest) = [] := by simp [byte, tries, hd]
      rw [htries, List.findSome?_nil]
      simp [hd]

theorem first_notBehind_seq (p : UInt8 → Bool) (b : Regex) (prev : Option UInt8) (s : Bytes) :
    (seq (notBehind p) b).first prev s = if (prev.map p).getD false then none
    else b.first prev s := by
  rw [first_seq, tries]
  split
  · rfl
  · simp

theorem first_notAhead (p : UInt8 → Bool) (prev : Option UInt8) (s : Bytes) :
    (notAhead p).first prev s = if (s.head?.map p).getD false then none else some 0 := by
  rw [first, tries]
  split <;> rfl

/-! ## Stars -/

theorem starTries_nil {body : Option UInt8 → Bytes → List Nat}
    (hbody : ∀ prev (s : Bytes), ∀ n ∈ body prev s, n ≤ s.length) (fuel : Nat)
    (prev : Option UInt8) : starTries body fuel prev [] = [0] := by
  cases fuel with
  | zero => rfl
  | succ fuel =>
    have hnone : (body prev []).filter (0 < ·) = [] := by
      rw [List.filter_eq_nil_iff]
      intro n hn
      simpa using hbody prev [] n hn
    rw [starTries, hnone]
    rfl

/-- More turns than the text has bytes change nothing. -/
theorem starTries_fuel {body : Option UInt8 → Bytes → List Nat}
    (hbody : ∀ prev (s : Bytes), ∀ n ∈ body prev s, n ≤ s.length) {fuel fuel' : Nat} {s : Bytes}
    (h : s.length ≤ fuel) (h' : s.length ≤ fuel') (prev : Option UInt8) :
    starTries body fuel prev s = starTries body fuel' prev s := by
  induction fuel generalizing fuel' prev s with
  | zero =>
    obtain rfl := List.eq_nil_of_length_eq_zero (Nat.le_zero.mp h)
    rw [starTries_nil hbody, starTries_nil hbody]
  | succ fuel ih =>
    cases fuel' with
    | zero =>
      obtain rfl := List.eq_nil_of_length_eq_zero (Nat.le_zero.mp h')
      rw [starTries_nil hbody, starTries_nil hbody]
    | succ fuel' =>
      rw [starTries, starTries]
      congr 1
      refine List.flatMap_congr fun n hn => ?_
      have hpos : 0 < n := by simpa using List.of_mem_filter hn
      have hfuel : (s.drop n).length ≤ fuel ∧ (s.drop n).length ≤ fuel' := by
        rw [List.length_drop]
        omega
      rw [ih hfuel.1 hfuel.2]

/-- A star takes one turn and goes on, or stops. -/
theorem tries_star (a : Regex) (prev : Option UInt8) (s : Bytes) : (star a).tries prev s =
    (((a.tries prev s).filter (0 < ·)).flatMap fun n =>
      ((star a).tries (lastOr prev (s.take n)) (s.drop n)).map (n + ·)) ++ [0] := by
  have hbody : ∀ prev (s : Bytes), ∀ n ∈ a.tries prev s, n ≤ s.length := fun _ _ _ hn =>
    le_of_mem_tries hn
  rw [tries, starTries_fuel hbody (Nat.le_refl _) (Nat.le_succ _), starTries]
  congr 1
  refine List.flatMap_congr fun n hn => ?_
  have hfuel : (s.drop n).length ≤ s.length := by
    rw [List.length_drop]
    exact Nat.sub_le _ _
  rw [tries, starTries_fuel hbody hfuel (Nat.le_refl _)]

/-- What follows a star is tried behind every further turn first. -/
theorem first_star_seq (a b : Regex) (prev : Option UInt8) (s : Bytes) :
    (seq (star a) b).first prev s = (((a.tries prev s).filter (0 < ·)).findSome? fun n =>
      ((seq (star a) b).first (lastOr prev (s.take n)) (s.drop n)).map
        (n + ·)).or (b.first prev s) := by
  have hturns : ∀ turns : List Nat, ((turns.flatMap fun n =>
        ((star a).tries (lastOr prev (s.take n)) (s.drop n)).map (n + ·)).findSome? fun n =>
          (b.first (lastOr prev (s.take n)) (s.drop n)).map (n + ·)) =
      turns.findSome? fun n =>
        ((seq (star a) b).first (lastOr prev (s.take n)) (s.drop n)).map (n + ·) := by
    intro turns
    induction turns with
    | nil => rfl
    | cons n turns ih =>
      rw [List.flatMap_cons, List.findSome?_append, ih, List.findSome?_cons, first_seq,
        List.findSome?_map, List.map_findSome?]
      have hbehind :
          ((fun n => (b.first (lastOr prev (s.take n)) (s.drop n)).map (n + ·)) ∘ (n + ·)) =
            Option.map (n + ·) ∘ fun m =>
              (b.first (lastOr (lastOr prev (s.take n)) ((s.drop n).take m))
                ((s.drop n).drop m)).map (m + ·) := by
        funext m
        simp only [Function.comp_apply, List.take_add, lastOr_append, List.drop_drop,
          Option.map_map]
        congr 1
        funext k
        exact Nat.add_assoc n m k
      rw [hbehind]
      cases List.findSome? _ ((star a).tries (lastOr prev (s.take n)) (s.drop n)) <;> rfl
  rw [first_seq, tries_star, List.findSome?_append, hturns]
  simp

/-! ## Places in one text -/

/-- Where in `s` a match from place `e` on may end, in the order in which the ends are tried. -/
def ends (r : Regex) (prev : Option UInt8) (s : Bytes) (e : Nat) : List Nat :=
  (r.tries (lastOr prev (s.take e)) (s.drop e)).map (e + ·)

section
variable (prev : Option UInt8) (s : Bytes) (e : Nat)

theorem first_eq_ends (r : Regex) : r.first prev s = (r.ends prev s 0).head? := by
  simp [first, ends]

theorem ends_empty : empty.ends prev s e = [e] := rfl

theorem ends_set (p : UInt8 → Bool) :
    (set p).ends prev s e = if (s[e]?.map p).getD false then [e + 1] else [] := by
  rw [ends, tries, List.head?_drop]
  split <;> rfl

theorem ends_seq (a b : Regex) :
    (seq a b).ends prev s e = (a.ends prev s e).flatMap (b.ends prev s) := by
  rw [ends, ends, tries_seq, List.map_flatMap, List.flatMap_map]
  refine List.flatMap_congr fun n _ => ?_
  rw [ends, List.map_map, List.take_add, lastOr_append, List.drop_drop]
  congr 1
  funext m
  exact (Nat.add_assoc e n m).symm

theorem ends_alt (a b : Regex) : (alt a b).ends prev s e = a.ends prev s e ++ b.ends prev s e := by
  rw [ends, tries, List.map_append]
  rfl

theorem ends_opt (a : Regex) : (opt a).ends prev s e = a.ends prev s e ++ [e] :=
  ends_alt prev s e a empty

theorem ends_byte (c : UInt8) :
    (byte c).ends prev s e = if s[e]? = some c then [e + 1] else [] := by
  rw [byte, ends_set]
  cases s[e]? <;> simp

/-- Behind the first byte a boundary lies between two bytes of the text or at its end. -/
theorem ends_boundary (p : UInt8 → Bool) (hpos : 0 < e) (hle : e ≤ s.length) :
    (boundary p).ends prev s e =
      if (s[e - 1]?.map p).getD false != (s[e]?.map p).getD false then [e] else [] := by
  have hlast : lastOr prev (s.take e) = s[e - 1]? := by
    obtain ⟨k, rfl⟩ := Nat.exists_eq_add_of_lt hpos
    rw [Nat.zero_add] at hle ⊢
    have hget : s[k]? = some s[k] := List.getElem?_eq_getElem hle
    rw [lastOr, List.getLast?_take, if_neg (Nat.succ_ne_zero k), Nat.add_sub_cancel, hget,
      Option.some_or, Option.some_or]
  rw [ends, tries, hlast, List.head?_drop]
  split <;> rfl

/-- Behind other ends a boundary is tested at each of them. -/
theorem head_ends_boundary (p : UInt8 → Bool) {l : List Nat} (h : ∀ e ∈ l, 0 < e ∧ e ≤ s.length) :
    (l.flatMap ((boundary p).ends prev s)).head? =
      l.find? fun e => (s[e - 1]?.map p).getD false != (s[e]?.map p).getD false := by
  rw [← List.head?_filter]
  congr 1
  induction l with
  | nil => rfl
  | cons e l ih =>
    obtain ⟨⟨hpos, hle⟩, hl⟩ := List.forall_mem_cons.mp h
    rw [List.flatMap_cons, ih hl, ends_boundary prev s e p hpos hle, List.filter_cons]
    split <;> rfl

end

/-! ## Turns of one width -/

/-- How often, at most the given number of times, a test holds at places that lie `w` apart. -/
def turns (test : Nat → Bool) (w : Nat) : Nat → Nat → Nat
  | 0, _ => 0
  | k + 1, e => if test e then turns test w k (e + w) + 1 else 0

theorem turns_le (test : Nat → Bool) (w k e : Nat) : turns test w k e ≤ k := by
  induction k generalizing e with
  | zero => exact Nat.le_refl 0
  | succ k ih =>
    rw [turns]
    split
    · exact Nat.succ_le_succ (ih _)
    · exact Nat.zero_le _

theorem turns_add (test : Nat → Bool) (w n k e : Nat) : turns test w (n + k) e =
    if turns test w n e = n then n + turns test w k (e + w * n) else turns test w n e := by
  induction n generalizing e with
  | zero => simp [turns]
  | succ n ih =>
    rw [Nat.succ_add, turns, turns, ih]
    by_cases htest : test e = true
    · simp only [htest, if_true, Nat.add_right_cancel_iff]
      split
      · rw [Nat.mul_succ, Nat.add_assoc e w, Nat.add_comm w, Nat.succ_add]
      · rfl
    · simp [htest]

section
variable {a : Regex} {test : Nat → Bool} {w : Nat} {prev : Option UInt8} {s : Bytes}

theorem ends_exactly (ha : ∀ e, a.ends prev s e = if test e then [e + w] else []) (n e : Nat) :
    (exactly n a).ends prev s e = if turns test w n e = n then [e + w * n] else [] := by
  induction n generalizing e with
  | zero => rfl
  | succ n ih =>
    rw [exactly, ends_seq, ha, turns]
    by_cases htest : test e = true
    · rw [if_pos htest, if_pos htest, List.flatMap_singleton, ih, Nat.mul_succ, Nat.add_assoc,
        Nat.add_comm w]
      simp only [Nat.add_right_cancel_iff]
    · simp [htest]

/-- As many turns as there are, and then one less each time. -/
theorem ends_upTo (ha : ∀ e, a.ends prev s e = if test e then [e + w] else []) (k e : Nat) :
    (upTo k a).ends prev s e = ((List.range (turns test w k e + 1)).reverse).map (e + w * ·) := by
  induction k generalizing e with
  | zero => simp [upTo, turns, ends_empty]
  | succ k ih =>
    rw [upTo, ends_opt, ends_seq, ha, turns]
    by_cases htest : test e = true
    · rw [if_pos htest, if_pos htest, List.flatMap_singleton, ih,
        List.range_succ_eq_map (n := turns test w k (e + w) + 1), List.reverse_cons,
        List.map_append, List.map_reverse, List.map_reverse, List.map_map]
      congr 3
      funext i
      simp only [Function.comp_apply, Nat.succ_eq_add_one, Nat.mul_succ]
      omega
    · simp [htest]

theorem ends_between (ha : ∀ e, a.ends prev s e = if test e then [e + w] else []) {n m : Nat}
    (hn : n ≤ m) (e : Nat) : (between n m a).ends prev s e =
      ((List.range' n (turns test w m e + 1 - n)).reverse).map (e + w * ·) := by
  obtain ⟨k, rfl⟩ := Nat.exists_eq_add_of_le hn
  rw [between, ends_seq, ends_exactly ha, turns_add, Nat.add_sub_cancel_left]
  by_cases hall : turns test w n e = n
  · rw [if_pos hall, if_pos hall, List.flatMap_singleton, ends_upTo ha, Nat.add_assoc,
      Nat.add_sub_cancel_left, List.range_eq_range', List.range'_eq_map_range,
      List.range'_eq_map_range, List.map_reverse, List.map_reverse, List.map_map, List.map_map]
    congr 2
    funext i
    simp only [Function.comp_apply, Nat.mul_add]
    omega
  · have hlt : turns test w n e + 1 - n = 0 := by
      have := turns_le test w n e
      omega
    rw [if_neg hall, if_neg hall, hlt]
    rfl

end

/-! ## Sets that are repeated -/

/-- How much of a text a set takes. -/
def runLength (p : UInt8 → Bool) (s : Bytes) : Nat := (s.takeWhile p).length

theorem runLength_nil (p : UInt8 → Bool) : runLength p [] = 0 := rfl

theorem runLength_cons (p : UInt8 → Bool) (c : UInt8) (s : Bytes) :
    runLength p (c :: s) = if p c then runLength p s + 1 else 0 := by
  unfold runLength
  by_cases hc : p c = true
  · rw [List.takeWhile_cons_of_pos hc, if_pos hc, List.length_cons]
  · rw [List.takeWhile_cons_of_neg hc, if_neg hc, List.length_nil]

theorem succ_le_runLength (p : UInt8 → Bool) (n : Nat) (c : UInt8) (s : Bytes) :
    n + 1 ≤ runLength p (c :: s) ↔ p c = true ∧ n ≤ runLength p s := by
  rw [runLength_cons]
  split
  · simp [*]
  · simp [*]

theorem tries_set_cons (p : UInt8 → Bool) (prev : Option UInt8) (c : UInt8) (s : Bytes) :
    (set p).tries prev (c :: s) = if p c then [1] else [] := rfl

/-- The longest run first, and then one byte less each time. -/
theorem tries_star_set (p : UInt8 → Bool) (prev : Option UInt8) (s : Bytes) :
    (star (set p)).tries prev s = (List.range (runLength p s + 1)).reverse := by
  have hfuel : ∀ fuel prev (s : Bytes), s.length ≤ fuel →
      starTries (set p).tries fuel prev s = (List.range (runLength p s + 1)).reverse := by
    intro fuel
    induction fuel with
    | zero =>
      intro prev s hs
      obtain rfl := List.eq_nil_of_length_eq_zero (Nat.le_zero.mp hs)
      rfl
    | succ fuel ih =>
      intro prev s hs
      cases s with
      | nil => rfl
      | cons c s =>
        rw [starTries, tries_set_cons, runLength_cons]
        by_cases hc : p c = true
        · rw [if_pos hc, if_pos hc]
          simp only [List.filter_cons, List.filter_nil, Nat.zero_lt_one, decide_true, if_true,
            List.flatMap_cons, List.flatMap_nil, List.append_nil, List.drop_succ_cons,
            List.drop_zero]
          rw [ih _ s (Nat.le_of_succ_le_succ hs), List.range_succ_eq_map (n := runLength p s + 1),
            List.reverse_cons, List.map_reverse]
          simp only [Nat.add_comm 1]
        · rw [if_neg hc, if_neg hc]
          rfl
  exact hfuel s.length prev s (Nat.le_refl _)

theorem tries_exactly_set (p : UInt8 → Bool) (n : Nat) (prev : Option UInt8) (s : Bytes) :
    (exactly n (set p)).tries prev s = if n ≤ runLength p s then [n] else [] := by
  induction n generalizing prev s with
  | zero => rfl
  | succ n ih =>
    rw [exactly, tries_seq]
    cases s with
    | nil => rfl
    | cons c s =>
      rw [tries_set_cons, runLength_cons]
      by_cases hc : p c = true
      · rw [if_pos hc, if_pos hc, List.flatMap_cons, List.flatMap_nil, List.append_nil,
          List.drop_succ_cons, List.drop_zero, ih]
        by_cases hn : n ≤ runLength p s
        · rw [if_pos hn, if_pos (Nat.succ_le_succ hn), List.map_singleton, Nat.add_comm]
        · rw [if_neg hn, if_neg fun h => hn (Nat.le_of_succ_le_succ h)]
          rfl
      · rw [if_neg hc, if_neg hc]
        rfl

theorem ends_exactly_set (p : UInt8 → Bool) (n : Nat) (prev : Option UInt8) (s : Bytes) (e : Nat) :
    (exactly n (set p)).ends prev s e = if n ≤ runLength p (s.drop e) then [e + n] else [] := by
  rw [ends, tries_exactly_set]
  split <;> rfl

theorem runLength_drop {p : UInt8 → Bool} {n : Nat} {s : Bytes} (h : n ≤ runLength p s) :
    runLength p (s.drop n) = runLength p s - n := by
  induction n generalizing s with
  | zero => rfl
  | succ n ih =>
    cases s with
    | nil => exact absurd h (Nat.not_succ_le_zero _)
    | cons c s =>
      rw [runLength_cons] at h ⊢
      split at h
      · rw [List.drop_succ_cons, if_pos ‹_›, ih (Nat.le_of_succ_le_succ h), Nat.add_sub_add_right]
      · exact absurd h (Nat.not_succ_le_zero _)

theorem turns_set (p : UInt8 → Bool) (s : Bytes) (k e : Nat) :
    turns (fun e => (s[e]?.map p).getD false) 1 k e = min k (runLength p (s.drop e)) := by
  induction k generalizing e with
  | zero => simp [turns]
  | succ k ih =>
    rw [turns, ih, ← List.head?_drop, ← List.drop_drop]
    cases s.drop e with
    | nil => simp [runLength_nil]
    | cons c t =>
      rw [runLength_cons]
      by_cases hc : p c = true
      · simp [hc, Nat.succ_min_succ]
      · simp [hc]

/-- As much of a run as may be taken, and then one byte less each time. -/
theorem ends_between_set (p : UInt8 → Bool) (prev : Option UInt8) (s : Bytes) {n m : Nat}
    (hn : n ≤ m) (e : Nat) : (between n m (set p)).ends prev s e =
      ((List.range' n (min m (runLength p (s.drop e)) + 1 - n)).reverse).map (e + ·) := by
  rw [ends_between (fun e => ends_set prev s e p) hn, turns_set]
  simp only [Nat.one_mul]

/-- The lengths from the whole run down to the least one. -/
theorem tries_atLeast_set (p : UInt8 → Bool) (n : Nat) (prev : Option UInt8) (s : Bytes) :
    (atLeast n (set p)).tries prev s = (List.range' n (runLength p s + 1 - n)).reverse := by
  rw [atLeast, tries_seq, tries_exactly_set]
  by_cases hn : n ≤ runLength p s
  · rw [if_pos hn, List.flatMap_cons, List.flatMap_nil, List.append_nil, tries_star_set,
      runLength_drop hn, List.map_reverse, List.range_eq_range', List.map_add_range', Nat.add_zero,
      Nat.succ_sub hn]
  · rw [if_neg hn, Nat.sub_eq_zero_of_le (Nat.lt_of_not_le hn)]
    rfl

theorem range'_last {n m : Nat} (hn : n ≤ m) :
    List.range' n (m + 1 - n) = List.range' n (m - n) ++ [m] := by
  rw [Nat.succ_sub hn, List.range'_concat, Nat.one_mul, Nat.add_sub_cancel' hn]

theorem findSome?_down {β : Type*} {f : Nat → Option β} {n m : Nat}
    (h : ∀ k, n ≤ k → k < m → f k = none) :
    ((List.range' n (m + 1 - n)).reverse).findSome? f = if n ≤ m then f m else none := by
  by_cases hn : n ≤ m
  · have hnone : ((List.range' n (m - n)).reverse).findSome? f = none := by
      rw [List.findSome?_eq_none_iff]
      intro k hk
      rw [List.mem_reverse, List.mem_range'_1] at hk
      exact h k hk.1 (by omega)
    rw [if_pos hn, range'_last hn, List.reverse_append, List.reverse_singleton,
      List.singleton_append, List.findSome?_cons, hnone]
    cases f m <;> rfl
  · rw [if_neg hn, Nat.sub_eq_zero_of_le (Nat.lt_of_not_le hn)]
    rfl

theorem first_atLeast_set (p : UInt8 → Bool) (n : Nat) (prev : Option UInt8) (s : Bytes) :
    (atLeast n (set p)).first prev s = if n ≤ runLength p s then some (runLength p s)
    else none := by
  rw [first, tries_atLeast_set, List.head?_reverse]
  by_cases hn : n ≤ runLength p s
  · rw [if_pos hn, range'_last hn, List.getLast?_concat]
  · rw [if_neg hn, Nat.sub_eq_zero_of_le (Nat.lt_of_not_le hn)]
    rfl

/-- A run of a set after which nothing can go on before its end is taken whole. -/
theorem first_atLeast_set_seq {p : UInt8 → Bool} {b : Regex} {n : Nat} {prev : Option UInt8}
    {s : Bytes}
    (h : ∀ k, n ≤ k → k < runLength p s → b.first (lastOr prev (s.take k)) (s.drop k) = none) :
    (seq (atLeast n (set p)) b).first prev s = if n ≤ runLength p s then
      (b.first (lastOr prev (s.take (runLength p s))) (s.drop (runLength p s))).map
        (runLength p s + ·)
      else none := by
  rw [first_seq, tries_atLeast_set]
  exact findSome?_down fun k hk hlt => by rw [h k hk hlt]; rfl

theorem first_star_set_seq {p : UInt8 → Bool} {b : Regex} {prev : Option UInt8} {s : Bytes}
    (h : ∀ k < runLength p s, b.first (lastOr prev (s.take k)) (s.drop k) = none) :
    (seq (star (set p)) b).first prev s =
      (b.first (lastOr prev (s.take (runLength p s))) (s.drop (runLength p s))).map
        (runLength p s + ·) := by
  rw [first_seq, tries_star_set, List.range_eq_range']
  exact findSome?_down (n := 0) fun k _ hlt => by rw [h k hlt]; rfl

/-- Inside its run a set has the next byte. -/
theorem head_drop_of_lt {p : UInt8 → Bool} {s : Bytes} {k : Nat} (h : k < runLength p s) :
    ∃ c rest, s.drop k = c :: rest ∧ p c = true := by
  induction k generalizing s with
  | zero =>
    cases s with
    | nil => exact absurd h (Nat.not_lt_zero _)
    | cons c s =>
      rw [runLength_cons] at h
      split at h
      · exact ⟨c, s, rfl, ‹_›⟩
      · exact absurd h (Nat.lt_irrefl _)
  | succ k ih =>
    cases s with
    | nil => exact absurd h (Nat.not_lt_zero _)
    | cons c s =>
      rw [runLength_cons] at h
      split at h
      · exact ih (Nat.lt_of_succ_lt_succ h)
      · exact absurd h (Nat.not_lt_zero _)

/-- Behind its run it has not. -/
theorem head_drop_runLength {p : UInt8 → Bool} {s : Bytes} {c : UInt8}
    (h : (s.drop (runLength p s)).head? = some c) : p c = false := by
  obtain ⟨rest, hrest⟩ : ∃ rest, s.dropWhile p = c :: rest := by
    rw [runLength, drop_length_takeWhile] at h
    exact List.head?_eq_some_iff.mp h
  exact not_of_dropWhile hrest

/-! ## Bytes that no match looks past -/

/-- Neither a set nor a test of the expression holds of the byte. -/
def avoids : Regex → UInt8 → Bool
  | .empty, _ => true
  | .set p, c => !p c
  | .seq a b, c => a.avoids c && b.avoids c
  | .alt a b, c => a.avoids c && b.avoids c
  | .star a, c => a.avoids c
  | .notBehind p, c => !p c
  | .notAhead p, c => !p c
  | .boundary p, c => !p c

theorem tries_before {r : Regex} {c : UInt8} (h : r.avoids c = true) (prev : Option UInt8)
    (s t : Bytes) : r.tries prev (s ++ c :: t) = r.tries prev s := by
  induction r generalizing prev s t with
  | empty => rfl
  | set p =>
    have hc : p c = false := by simpa [avoids] using h
    cases s with
    | nil => simp [tries, hc]
    | cons d s => rfl
  | seq a b iha ihb =>
    rw [avoids, Bool.and_eq_true] at h
    rw [tries, tries, iha h.1]
    refine List.flatMap_congr fun n hn => ?_
    have hle := le_of_mem_tries hn
    rw [List.take_append_of_le_length hle, List.drop_append_of_le_length hle, ihb h.2]
  | alt a b iha ihb =>
    rw [avoids, Bool.and_eq_true] at h
    rw [tries, tries, iha h.1, ihb h.2]
  | star a ih =>
    have hfuel : ∀ fuel prev (s : Bytes), s.length ≤ fuel →
        starTries a.tries fuel prev (s ++ c :: t) = starTries a.tries fuel prev s := by
      intro fuel
      induction fuel with
      | zero => exact fun _ _ _ => rfl
      | succ fuel ihf =>
        intro prev s hs
        rw [starTries, starTries, ih h]
        congr 1
        refine List.flatMap_congr fun n hn => ?_
        have hpos : 0 < n := by simpa using List.of_mem_filter hn
        have hle := le_of_mem_tries (List.mem_of_mem_filter hn)
        rw [List.take_append_of_le_length hle, List.drop_append_of_le_length hle,
          ihf _ _ (by rw [List.length_drop]; omega)]
    have hle : s.length ≤ (s ++ c :: t).length := by
      rw [List.length_append]
      omega
    rw [tries, tries, hfuel _ prev s hle]
    exact starTries_fuel (fun _ _ n hn => le_of_mem_tries hn) hle (Nat.le_refl _) prev
  | notBehind p => rfl
  | notAhead p =>
    have hc : p c = false := by simpa [avoids] using h
    cases s with
    | nil => simp [tries, hc]
    | cons d s => rfl
  | boundary p =>
    have hc : p c = false := by simpa [avoids] using h
    cases s with
    | nil => simp [tries, hc]
    | cons d s => rfl

/-- And what such a byte is to a match behind it, the start of the text is. -/
theorem tries_behind {r : Regex} {c : UInt8} (h : r.avoids c = true) (s : Bytes) :
    r.tries (some c) s = r.tries none s := by
  have hsplit : ∀ {a : Option UInt8 → Bytes → List Nat} (s : Bytes) (n : Nat),
      (∀ s, a (some c) s = a none s) → a (lastOr (some c) (s.take n)) (s.drop n) =
        a (lastOr none (s.take n)) (s.drop n) := by
    intro a s n ha
    cases hs : s.take n with
    | nil => exact ha _
    | cons d t => rw [lastOr_cons, lastOr_cons]
  induction r generalizing s with
  | empty => rfl
  | set p => rfl
  | seq a b iha ihb =>
    rw [avoids, Bool.and_eq_true] at h
    rw [tries, tries, iha h.1]
    exact List.flatMap_congr fun n _ => by rw [hsplit s n (ihb h.2)]
  | alt a b iha ihb =>
    rw [avoids, Bool.and_eq_true] at h
    rw [tries, tries, iha h.1, ihb h.2]
  | star a ih =>
    have hfuel : ∀ fuel (s : Bytes), starTries a.tries fuel (some c) s =
        starTries a.tries fuel none s := by
      intro fuel
      induction fuel with
      | zero => exact fun _ => rfl
      | succ fuel ihf =>
        intro s
        rw [starTries, starTries, ih h]
        congr 1
        exact List.flatMap_congr fun n _ => by rw [hsplit s n ihf]
    exact hfuel s.length s
  | notBehind p =>
    have hc : p c = false := by simpa [avoids] using h
    simp [tries, hc]
  | notAhead p => rfl
  | boundary p =>
    have hc : p c = false := by simpa [avoids] using h
    simp [tries, hc]

theorem barrier {r : Regex} {c : UInt8} (h : r.avoids c = true) (replacement : Bytes) :
    Barrier (r.replaceNext replacement) c where
  copied prev rest := by
    have hnil := tries_before h prev [] rest
    unfold replaceNext first
    rw [List.nil_append] at hnil
    rw [hnil]
    split
    · rename_i n hn
      exact absurd (le_of_mem_tries (List.mem_of_head? hn)) (Nat.not_succ_le_zero n)
    · rfl
  fits := (r.replaces replacement).fits
  before prev d s t := by
    have hbefore := tries_before h prev (d :: s) t
    rw [List.cons_append] at hbefore
    rw [replaceNext, first, hbefore]
    rfl
  behind d s := by
    rw [replaceNext, first, tries_behind h]
    rfl

end Regex

end ForgeOps
