import ForgeOpsTracker.MessagePatterns

/-! Two messages that differ only in a value are rewritten to the same text, so they have the same
fingerprint. -/

namespace ForgeOps.StrictPrivacy
open Byte Regex

/-- A byte that no id, number or word goes on through. -/
def isEdge (c : UInt8) : Bool := !isWord c && c != 45

structure IsDigits (x : Bytes) : Prop where
  nonempty : x ≠ []
  digits : ∀ c ∈ x, isDigit c = true

theorem isDigit_iff {c : UInt8} : isDigit c = true ↔ 48 ≤ c ∧ c ≤ 57 := by
  simp [isDigit, Byte.isDigit]

theorem isEmailLocal_of_isDigit {c : UInt8} (h : isDigit c = true) : isEmailLocal c = true := by
  simp [isEmailLocal, h]

theorem isEmailDomain_of_isDigit {c : UInt8} (h : isDigit c = true) : isEmailDomain c = true := by
  simp [isEmailDomain, h]

theorem isAlpha_of_isDigit {c : UInt8} (h : isDigit c = true) : isAlpha c = false := by
  rw [isDigit_iff] at h
  simp only [isAlpha, Byte.isAlpha, Byte.isUpper, Byte.isLower, Bool.or_eq_false_iff,
    Bool.and_eq_false_iff, decide_eq_false_iff_not]
  grind

theorem isEmailDomain_of_isAlpha {c : UInt8} (h : isAlpha c = true) : isEmailDomain c = true := by
  simp [isEmailDomain, h]

/-! ## Emails around digits -/

theorem domainMatch_le (domain : Bytes) (n : Nat) : domainMatch domain n ≤ domain.length := by
  induction n with
  | zero => exact Nat.zero_le _
  | succ n ih =>
    cases n with
    | zero => exact Nat.zero_le _
    | succ n =>
      rw [domainMatch]
      split
      · rename_i hdot
        have hlt := (List.getElem?_eq_some_iff.mp hdot.1).1
        have hrun := (List.takeWhile_prefix (p := isAlpha) (l := domain.drop (n + 1 + 1))).length_le
        rw [List.length_drop] at hrun
        omega
      · exact ih

/-- Letters do not go on into a text that starts with something else. -/
theorem domainMatch_append {d t : Bytes} (ht : ∀ c ∈ t.head?, isAlpha c = false) {n : Nat}
    (hn : n ≤ d.length) : domainMatch (d ++ t) n = domainMatch d n := by
  induction n with
  | zero => rfl
  | succ n ih =>
    cases n with
    | zero => rfl
    | succ n =>
      rw [domainMatch, domainMatch, ih (by omega)]
      rw [List.getElem?_append_left (by omega), List.drop_append_of_le_length (by omega),
        takeWhile_append_stop ht]

/-- Where there is no dot nothing can end. -/
theorem domainMatch_noDot {x : Bytes} (hx : 46 ∉ x) (d q : Bytes) {n : Nat} (hn : n ≤ x.length) :
    domainMatch (d ++ (x ++ q)) (d.length + n) = domainMatch (d ++ (x ++ q)) d.length := by
  induction n with
  | zero => rfl
  | succ n ih =>
    rw [← ih (by omega)]
    cases hk : d.length + n with
    | zero =>
      have hone : d.length + (n + 1) = 0 + 1 := by omega
      rw [hone]
      rfl
    | succ k =>
      have htwo : d.length + (n + 1) = k + 2 := by omega
      rw [htwo, domainMatch]
      rw [if_neg]
      rintro ⟨hdot, -⟩
      rw [← hk, List.getElem?_append_right (by omega), Nat.add_sub_cancel_left,
        List.getElem?_append_left (by omega)] at hdot
      exact hx (List.mem_of_getElem? hdot)

section
variable {x y : Bytes} (hx : IsDigits x) (hy : IsDigits y)
include hx

theorem IsDigits.head (q : Bytes) : ∀ c ∈ (x ++ q).head?, isDigit c = true := by
  obtain ⟨e, z, rfl⟩ := List.exists_cons_of_ne_nil hx.nonempty
  intro c hc
  obtain rfl : e = c := Option.some.inj hc
  exact hx.digits e List.mem_cons_self

theorem domainMatch_before (d q : Bytes) {n : Nat} (hn : n ≤ x.length) :
    domainMatch (d ++ (x ++ q)) (d.length + n) = domainMatch d d.length := by
  have hdot : 46 ∉ x := fun hmem => absurd (hx.digits 46 hmem) (by decide)
  rw [domainMatch_noDot hdot d q hn]
  exact domainMatch_append (fun c hc => isAlpha_of_isDigit (hx.head q c hc)) (Nat.le_refl _)

include hy

/-- A domain that goes on behind the digits is taken as far for the one digits as for the other. -/
theorem domainMatch_over (d q : Bytes) (j : Nat) :
    domainMatch (d ++ (x ++ q)) (d.length + (x.length + j)) = domainMatch d d.length ∧
        domainMatch (d ++ (y ++ q)) (d.length + (y.length + j)) = domainMatch d d.length ∨
      ∃ m,
        0 < m ∧ domainMatch (d ++ (x ++ q)) (d.length + (x.length + j)) =
          d.length + (x.length + m) ∧ domainMatch (d ++ (y ++ q)) (d.length + (y.length + j)) =
          d.length + (y.length + m) := by
  induction j with
  | zero =>
    left
    exact ⟨domainMatch_before hx d q (Nat.le_refl _), domainMatch_before hy d q (Nat.le_refl _)⟩
  | succ j ih =>
    have hstep : ∀ {z : Bytes}, IsDigits z →
        domainMatch (d ++ (z ++ q)) (d.length + (z.length + (j + 1))) =
          if q[j]? = some 46 ∧ 2 ≤ ((q.drop (j + 1)).takeWhile isAlpha).length then
            d.length + (z.length + (j + 1 + ((q.drop (j + 1)).takeWhile isAlpha).length))
          else domainMatch (d ++ (z ++ q)) (d.length + (z.length + j)) := by
      intro z hz
      obtain ⟨k, hk⟩ : ∃ k, d.length + (z.length + j) = k + 1 := by
        have := List.length_pos_iff.mpr hz.nonempty
        exact ⟨d.length + (z.length + j) - 1, by omega⟩
      have htwo : d.length + (z.length + (j + 1)) = k + 2 := by omega
      have hdot : (d ++ (z ++ q))[k + 1]? = q[j]? := by
        rw [← hk, ← List.append_assoc, List.getElem?_append_right
          (by rw [List.length_append]; omega)]
        congr 1
        rw [List.length_append]
        omega
      have hdrop : (d ++ (z ++ q)).drop (k + 1 + 1) = q.drop (j + 1) := by
        rw [← hk, ← List.append_assoc, List.drop_append,
          List.drop_eq_nil_of_le (by rw [List.length_append]; omega), List.nil_append]
        congr 1
        rw [List.length_append]
        omega
      rw [htwo, domainMatch]
      rw [hdot, hdrop, hk]
      split
      · omega
      · rfl
    rw [hstep hx, hstep hy]
    by_cases hdot : q[j]? = some 46 ∧ 2 ≤ ((q.drop (j + 1)).takeWhile isAlpha).length
    · rw [if_pos hdot, if_pos hdot]
      exact .inr ⟨_, by omega, rfl, rfl⟩
    · rw [if_neg hdot, if_neg hdot]
      exact ih

end

/-- What an email that starts in a run of its local part takes behind the run. -/
def emailTail (q : Bytes) : Nat :=
  match q.dropWhile isEmailLocal with
  | 64 :: after =>
    let length := domainMatch after (after.takeWhile isEmailDomain).length
    if length = 0 then 0 else (q.takeWhile isEmailLocal).length + 1 + length
  | _ => 0

theorem emailAt_append_local {z : Bytes} (hne : z ≠ [])
    (hz : ∀ c ∈ z, isEmailLocal c = true) (q : Bytes) :
    emailAt (z ++ q) = if emailTail q = 0 then 0 else z.length + emailTail q := by
  have htake : (z ++ q).takeWhile isEmailLocal = z ++ q.takeWhile isEmailLocal :=
    List.takeWhile_append_of_pos hz
  have hdrop : (z ++ q).dropWhile isEmailLocal = q.dropWhile isEmailLocal :=
    List.dropWhile_append_of_pos hz
  have hlocal : (z ++ q).takeWhile isEmailLocal ≠ [] := by
    rw [htake]
    simp [hne]
  have hlength : ((z ++ q).takeWhile isEmailLocal).length =
      z.length + (q.takeWhile isEmailLocal).length := by
    rw [htake, List.length_append]
  simp only [emailAt, if_neg hlocal, drop_length_takeWhile, hdrop]
  cases hq : q.dropWhile isEmailLocal with
  | nil =>
    have htail : emailTail q = 0 := by simp only [emailTail, hq]
    rw [htail]
    rfl
  | cons e after =>
    by_cases he : e = 64
    · subst he
      have htail : emailTail q =
          if domainMatch after (after.takeWhile isEmailDomain).length = 0 then 0
          else (q.takeWhile isEmailLocal).length + 1 + domainMatch after
            (after.takeWhile isEmailDomain).length := by
        simp only [emailTail, hq]
      rw [htail, hlength]
      show (if domainMatch after (after.takeWhile isEmailDomain).length = 0 then 0 else _) = _
      by_cases hzero : domainMatch after (after.takeWhile isEmailDomain).length = 0
      · simp only [if_pos hzero, if_true]
      · simp only [if_neg hzero]
        rw [if_neg (by omega)]
        omega
    · have htail : emailTail q = 0 := by
        simp only [emailTail, hq]
        split
        · rename_i heq
          exact absurd (List.cons.inj heq).1 he
        · rfl
      rw [htail, if_pos rfl]
      split
      · rename_i heq
        exact absurd (List.cons.inj heq).1 he
      · rfl

/-- Behind what the local part does not go on through, an email ends before it or is decided by what
stands there. -/
theorem emailAt_split {u : Bytes} (hu : ∀ c ∈ u, isEmailLocal c = true) {e : UInt8}
    (he : isEmailLocal e = false) (d : Bytes) : emailAt (u ++ e :: d) =
      if u = [] ∨ e ≠ 64 ∨ domainMatch d (d.takeWhile isEmailDomain).length = 0 then 0
      else u.length + 1 + domainMatch d (d.takeWhile isEmailDomain).length := by
  have htake : (u ++ e :: d).takeWhile isEmailLocal = u := by
    rw [List.takeWhile_append_of_pos hu, List.takeWhile_cons_of_neg (by simp [he]), List.append_nil]
  simp only [emailAt, htake, List.drop_left]
  by_cases hnil : u = []
  · rw [if_pos hnil, if_pos (.inl hnil)]
  rw [if_neg hnil]
  by_cases h64 : e = 64
  · subst h64
    by_cases hzero : domainMatch d (d.takeWhile isEmailDomain).length = 0
    · exact (if_pos hzero).trans (if_pos (.inr (.inr hzero))).symm
    · exact (if_neg hzero).trans
        (if_neg (not_or.mpr ⟨hnil, not_or.mpr ⟨fun h => h rfl, hzero⟩⟩)).symm
  · rw [if_pos (.inr (.inl h64))]
    split
    · rename_i heq
      exact absurd (List.cons.inj heq).1 h64
    · rfl

theorem exists_split_of_not_all {p : UInt8 → Bool} {s : Bytes} (h : ¬ ∀ c ∈ s, p c = true) :
    ∃ u e d, s = u ++ e :: d ∧ (∀ c ∈ u, p c = true) ∧ p e = false := by
  cases hdrop : s.dropWhile p with
  | nil => exact absurd (List.dropWhile_eq_nil_iff.mp hdrop) h
  | cons e d =>
    refine ⟨s.takeWhile p, e, d, ?_, fun c hc => List.mem_takeWhile_imp hc, not_of_dropWhile hdrop⟩
    rw [← hdrop, List.takeWhile_append_dropWhile]

section
variable {x y : Bytes} (hx : IsDigits x) (hy : IsDigits y)
include hx hy

/-- An email that starts before digits either ends before them or takes them and some of what
follows. -/
theorem emailAt_over {w : Bytes} (hw : w ≠ []) (q : Bytes) :
    emailAt (w ++ (x ++ q)) = emailAt (w ++ (y ++ q)) ∧ emailAt (w ++ (x ++ q)) ≤ w.length ∨
      ∃ m, 0 < m ∧ emailAt (w ++ (x ++ q)) = w.length + (x.length + m) ∧
        emailAt (w ++ (y ++ q)) = w.length + (y.length + m) := by
  by_cases hlocal : ∀ c ∈ w, isEmailLocal c = true
  · -- the local part goes on through the digits
    have hthrough : ∀ {z : Bytes}, IsDigits z → emailAt (w ++ (z ++ q)) =
        if emailTail q = 0 then 0 else w.length + (z.length + emailTail q) := by
      intro z hz
      have hall : ∀ c ∈ w ++ z, isEmailLocal c = true := fun c hc =>
        (List.mem_append.mp hc).elim (hlocal c) fun h => isEmailLocal_of_isDigit (hz.digits c h)
      rw [← List.append_assoc, emailAt_append_local (by simp [hw]) hall,
        List.length_append, Nat.add_assoc]
    rw [hthrough hx, hthrough hy]
    by_cases hzero : emailTail q = 0
    · rw [if_pos hzero, if_pos hzero]
      exact .inl ⟨rfl, Nat.zero_le _⟩
    · rw [if_neg hzero, if_neg hzero]
      exact .inr ⟨_, Nat.pos_of_ne_zero hzero, rfl, rfl⟩
  obtain ⟨u, e, d, rfl, hu, he⟩ := exists_split_of_not_all hlocal
  rw [List.append_assoc, List.append_assoc, List.cons_append, List.cons_append, emailAt_split hu he,
    emailAt_split hu he]
  have hsame : ∀ {l : Nat} {a b : Bytes}, domainMatch a (a.takeWhile isEmailDomain).length = l →
      domainMatch b (b.takeWhile isEmailDomain).length = l → l ≤ d.length →
      (if u = [] ∨ e ≠ 64 ∨ domainMatch a (a.takeWhile isEmailDomain).length = 0 then 0
        else u.length + 1 + domainMatch a (a.takeWhile isEmailDomain).length) =
      (if u = [] ∨ e ≠ 64 ∨ domainMatch b (b.takeWhile isEmailDomain).length = 0 then 0
        else u.length + 1 + domainMatch b (b.takeWhile isEmailDomain).length) ∧
      (if u = [] ∨ e ≠ 64 ∨ domainMatch a (a.takeWhile isEmailDomain).length = 0 then 0
        else u.length + 1 + domainMatch a (a.takeWhile isEmailDomain).length) ≤
        (u ++ e :: d).length := by
    intro l a b ha hb hl
    rw [ha, hb]
    refine ⟨rfl, ?_⟩
    rw [List.length_append, List.length_cons]
    split
    · exact Nat.zero_le _
    · omega
  by_cases hdomain : ∀ c ∈ d, isEmailDomain c = true
  · -- the domain goes on through the digits
    have hrun : ∀ {z : Bytes}, IsDigits z → ((d ++ (z ++ q)).takeWhile isEmailDomain).length =
        d.length + (z.length + (q.takeWhile isEmailDomain).length) := by
      intro z hz
      rw [List.takeWhile_append_of_pos hdomain,
        List.takeWhile_append_of_pos fun c hc => isEmailDomain_of_isDigit (hz.digits c hc),
        List.length_append, List.length_append]
    rcases domainMatch_over hx hy d q (q.takeWhile isEmailDomain).length with ⟨hxd, hyd⟩ |
      ⟨m, hm, hxd, hyd⟩
    · rw [← hrun hx] at hxd
      rw [← hrun hy] at hyd
      exact .inl (hsame hxd hyd (domainMatch_le d d.length))
    · rw [hrun hx, hxd, hrun hy, hyd]
      by_cases hfails : u = [] ∨ e ≠ 64
      · rw [if_pos (hfails.imp_right .inl), if_pos (hfails.imp_right .inl)]
        exact .inl ⟨rfl, Nat.zero_le _⟩
      · obtain ⟨hnil, h64⟩ := not_or.mp hfails
        right
        refine ⟨m, hm, ?_, ?_⟩
        · rw [if_neg (not_or.mpr ⟨hnil, not_or.mpr ⟨h64, by omega⟩⟩), List.length_append,
            List.length_cons]
          omega
        · rw [if_neg (not_or.mpr ⟨hnil, not_or.mpr ⟨h64, by omega⟩⟩), List.length_append,
            List.length_cons]
          omega
  · -- it ends before them
    obtain ⟨d1, f, d2, rfl, hd1, hf⟩ := exists_split_of_not_all hdomain
    have hbefore : ∀ t : Bytes, domainMatch (d1 ++ f :: d2 ++ t)
        ((d1 ++ f :: d2 ++ t).takeWhile isEmailDomain).length = domainMatch d1 d1.length := by
      intro t
      have htake : (d1 ++ f :: d2 ++ t).takeWhile isEmailDomain = d1 := by
        rw [List.append_assoc, List.takeWhile_append_of_pos hd1, List.cons_append,
          List.takeWhile_cons_of_neg (by simp [hf]), List.append_nil]
      rw [htake, List.append_assoc]
      refine domainMatch_append (fun c hc => ?_) (Nat.le_refl _)
      obtain rfl : f = c := Option.some.inj hc
      by_contra halpha
      rw [Bool.not_eq_false] at halpha
      exact absurd (isEmailDomain_of_isAlpha halpha) (by simp [hf])
    refine .inl (hsame (hbefore _) (hbefore _) ?_)
    have hle := domainMatch_le d1 d1.length
    rw [List.length_append]
    omega

end

/-! ## Passes that do not see which digits they are -/

/-- A pass that either takes the digits between two edges together with something else, or leaves
them between two edges: in both cases whatever they are. -/
def BlindToDigits (stage : Bytes → Bytes) : Prop :=
  ∀ ⦃p q x y : Bytes⦄, EndsIn isEdge p → StartsIn isEdge q → IsDigits x → IsDigits y →
    stage (p ++ (x ++ q)) = stage (p ++ (y ++ q)) ∨
      ∃ p' q', EndsIn isEdge p' ∧ StartsIn isEdge q' ∧ stage (p ++ (x ++ q)) = p' ++ (x ++ q') ∧
        stage (p ++ (y ++ q)) = p' ++ (y ++ q')

theorem BlindToDigits.comp {stage later : Bytes → Bytes} (hstage : BlindToDigits stage)
    (hlater : BlindToDigits later) : BlindToDigits fun s => later (stage s) := by
  intro p q x y hp hq hx hy
  rcases hstage hp hq hx hy with heq | ⟨p', q', hp', hq', hxs, hys⟩
  · exact .inl (congrArg later heq)
  · dsimp only
    rw [hxs, hys]
    exact hlater hp' hq' hx hy

theorem replaceNext_email (prev : Option UInt8) (c : UInt8) (rest : Bytes) :
    emailPattern.replaceNext (ascii "<email>") prev c rest =
      if emailAt (c :: rest) = 0 then ([c], 0) else (ascii "<email>", emailAt (c :: rest) - 1) := by
  by_cases hzero : emailAt (c :: rest) = 0
  · rw [if_pos hzero, replaceNext_of_none (by rw [first_email, if_pos hzero])]
  · obtain ⟨n, hn⟩ := Nat.exists_eq_succ_of_ne_zero hzero
    rw [if_neg hzero, replaceNext_of_some (n := n) (by rw [first_email, if_neg hzero, hn]), hn]
    rfl

theorem endsIn_marker {s : Bytes} (h : s.getLast? = some 62) : EndsIn isEdge s := by
  intro c hc
  obtain rfl : 62 = c := Option.some.inj (h.symm.trans hc)
  rfl

theorem startsIn_marker {s : Bytes} (h : s.head? = some 60) : StartsIn isEdge s := by
  intro c hc
  obtain rfl : 60 = c := Option.some.inj (h.symm.trans hc)
  rfl

theorem replaceEmails_blind : BlindToDigits replaceEmails := by
  intro p q x y hp hq hx hy
  simp only [replaceEmails_eq, replaceAll]
  refine (emailPattern.replaces (ascii "<email>")).alike (by decide) (endsIn_marker rfl) ?_ ?_ hp
  · intro prev c s _
    simp only [replaceNext_email, ← List.cons_append]
    rcases emailAt_over hx hy (List.cons_ne_nil c s) q with ⟨heq, hle⟩ | ⟨m, hm, hxm, hym⟩
    · rw [← heq]
      refine .inl ⟨rfl, ?_⟩
      rw [List.length_cons] at hle
      split
      · exact Nat.zero_le _
      · exact Nat.sub_le_of_le_add hle
    · rw [List.length_cons] at hxm hym
      refine .inr ⟨m, hm, ?_, ?_⟩
      · rw [hxm, if_neg (by omega)]
        congr 1
        omega
      · rw [hym, if_neg (by omega)]
        congr 1
        omega
  · intro prev _
    have hlocal : ∀ {z : Bytes}, IsDigits z → ∀ c ∈ z, isEmailLocal c = true := fun hz c hc =>
      isEmailLocal_of_isDigit (hz.digits c hc)
    by_cases hzero : emailTail q = 0
    · right
      have hnone : ∀ {z : Bytes}, IsDigits z → ∀ u d v, z = u ++ d :: v →
          emailPattern.replaceNext (ascii "<email>") (lastOr prev u) d (v ++ q) = ([d], 0) := by
        intro z hz u d v hu
        have hall := emailAt_append_local hz.nonempty (hlocal hz) q
        rw [if_pos hzero] at hall
        rw [replaceNext_email, if_pos (emailAt_in_run (hlocal hz) hall hu)]
      refine (emailPattern.replaces _).at_copied (by decide) (startsIn_marker rfl) hq
        (hnone hx) (hnone hy) ?_
      intro c s
      rw [replaceNext_email, replaceNext_email]
    · left
      -- the digits and what follows them are the local part of an email
      have htaken : ∀ {z : Bytes}, IsDigits z →
          (scan (emailPattern.replaceNext (ascii "<email>")) 0 prev (z ++ q)).flatten =
            ascii "<email>" ++ (scan (emailPattern.replaceNext (ascii "<email>")) 0
              (lastOr none (q.take (emailTail q))) (q.drop (emailTail q))).flatten := by
        intro z hz
        have hall := emailAt_append_local hz.nonempty (hlocal hz) q
        obtain ⟨e, z, rfl⟩ := List.exists_cons_of_ne_nil hz.nonempty
        rw [if_neg hzero, List.cons_append, List.length_cons] at hall
        have hpos : 0 < emailTail q := Nat.pos_of_ne_zero hzero
        have hle : emailTail q ≤ q.length := by
          have hfits := (emailPattern.replaces (ascii "<email>")).fits prev e (z ++ q)
          rw [replaceNext_email, hall, if_neg (by omega), List.length_append] at hfits
          omega
        have hskip : z.length + 1 + emailTail q - 1 = z.length + emailTail q := by omega
        rw [List.cons_append, scan, replaceNext_email, hall, if_neg (by omega),
          List.flatten_cons, hskip, scan_skip_add, scan_skip_take hpos hle]
      rw [htaken hx, htaken hy]

/-! ## Quotes around digits -/

def inQuotes (quote d : UInt8) : Bool := d ≠ quote ∧ d ≠ 13 ∧ d ≠ 10

/-- Whether a quote closes what it stands behind. -/
def closes (quote : UInt8) (atWordBoundary : Bool) : Bytes → Bool
  | [] => false
  | q :: after => q = quote ∧ (¬ atWordBoundary ∨ ¬ wordAhead after)

/-- The step of `replaceQuoted`, in terms of what stands behind the quoted text. -/
def quotedNext (quote : UInt8) (atWordBoundary : Bool) (prev : Option UInt8) (c : UInt8)
    (rest : Bytes) : Bytes × Nat :=
  if c = quote ∧ (¬ atWordBoundary ∨ ¬ (prev.map isWord).getD false) ∧
      closes quote atWordBoundary (rest.dropWhile (inQuotes quote)) then
    (ascii "<str>", (rest.takeWhile (inQuotes quote)).length + 1)
  else ([c], 0)

theorem replaceQuoted_pass (quote : UInt8) (atWordBoundary : Bool) (s : Bytes) :
    replaceQuoted quote atWordBoundary s = pass (quotedNext quote atWordBoundary) s := by
  refine congrArg (fun next => pass next s) ?_
  funext prev c rest
  have hbody : (fun d : UInt8 => decide (d ≠ quote ∧ d ≠ 13 ∧ d ≠ 10)) = inQuotes quote := rfl
  simp only [hbody, drop_length_takeWhile, quotedNext]
  by_cases hopen : c = quote ∧ (¬ atWordBoundary = true ∨ ¬ (prev.map isWord).getD false = true)
  · rw [if_pos hopen]
    cases rest.dropWhile (inQuotes quote) with
    | nil => simp [closes]
    | cons q after =>
      simp only [closes, hopen, true_and, decide_eq_true_eq, Bool.decide_and, Bool.and_eq_true]
  · rw [if_neg hopen, if_neg fun h => hopen ⟨h.1, h.2.1⟩]

theorem quotedNext_replaces (quote : UInt8) (atWordBoundary : Bool) :
    Replaces (quotedNext quote atWordBoundary) (ascii "<str>") where
  cases prev c s := by
    unfold quotedNext
    split
    · rename_i h
      refine .inr ⟨_, ?_, rfl⟩
      cases hdrop : s.dropWhile (inQuotes quote) with
      | nil => simp [hdrop, closes] at h
      | cons q after =>
        have hlength := congrArg List.length
          (List.takeWhile_append_dropWhile (p := inQuotes quote) (l := s))
        rw [List.length_append, hdrop, List.length_cons] at hlength
        omega
    · exact .inl rfl

theorem inQuotes_of_isDigit {quote c : UInt8} (hquote : isDigit quote = false)
    (h : isDigit c = true) : inQuotes quote c = true := by
  have h13 : isDigit 13 = false := rfl
  have h10 : isDigit 10 = false := rfl
  refine decide_eq_true ⟨?_, ?_, ?_⟩
  · rintro rfl
    simp [hquote] at h
  · rintro rfl
    simp [h13] at h
  · rintro rfl
    simp [h10] at h

/-- Whether a quote before digits closes something does not depend on the digits. -/
theorem closes_append {x y : Bytes} (hx : IsDigits x) (hy : IsDigits y) (quote : UInt8)
    (atWordBoundary : Bool) (e : UInt8) (v q : Bytes) :
    closes quote atWordBoundary (e :: (v ++ (x ++ q))) =
      closes quote atWordBoundary (e :: (v ++ (y ++ q))) := by
  have hahead : ∀ {z : Bytes}, IsDigits z → wordAhead (z ++ q) = true := by
    intro z hz
    obtain ⟨d, z, rfl⟩ := List.exists_cons_of_ne_nil hz.nonempty
    exact isWord_of_isDigit (hz.digits d List.mem_cons_self)
  cases v with
  | nil => rw [closes, closes, List.nil_append, List.nil_append, hahead hx, hahead hy]
  | cons f v => rfl

theorem replaceQuoted_blind {quote : UInt8} (hquote : isDigit quote = false)
    (atWordBoundary : Bool) : BlindToDigits (replaceQuoted quote atWordBoundary) := by
  intro p q x y hp hq hx hy
  simp only [replaceQuoted_pass]
  have hreplaces := quotedNext_replaces quote atWordBoundary
  have hin : ∀ {z : Bytes}, IsDigits z → ∀ c ∈ z, inQuotes quote c = true := fun hz c hc =>
    inQuotes_of_isDigit hquote (hz.digits c hc)
  refine hreplaces.alike (by decide) (endsIn_marker rfl) ?_ ?_ hp
  · intro prev c s _
    by_cases hs : ∀ d ∈ s, inQuotes quote d = true
    · -- what is decided is decided behind the digits
      have hthrough : ∀ {z : Bytes}, IsDigits z →
          (s ++ (z ++ q)).dropWhile (inQuotes quote) = q.dropWhile (inQuotes quote) ∧
            ((s ++ (z ++ q)).takeWhile (inQuotes quote)).length =
              s.length + (z.length + (q.takeWhile (inQuotes quote)).length) := by
        intro z hz
        rw [List.dropWhile_append_of_pos hs, List.dropWhile_append_of_pos (hin hz),
          List.takeWhile_append_of_pos hs, List.takeWhile_append_of_pos (hin hz),
          List.length_append, List.length_append]
        exact ⟨rfl, rfl⟩
      simp only [quotedNext, (hthrough hx).1, (hthrough hx).2, (hthrough hy).1, (hthrough hy).2]
      split
      · exact .inr ⟨_, Nat.succ_pos _, rfl, rfl⟩
      · exact .inl ⟨rfl, Nat.zero_le _⟩
    · -- it is decided before them
      left
      obtain ⟨u, e, v, rfl, hu, he⟩ := exists_split_of_not_all hs
      have hbefore : ∀ t : Bytes, (u ++ e :: v ++ t).dropWhile (inQuotes quote) = e :: (v ++ t) ∧
          (u ++ e :: v ++ t).takeWhile (inQuotes quote) = u := by
        intro t
        rw [List.append_assoc, List.dropWhile_append_of_pos hu, List.takeWhile_append_of_pos hu,
          List.cons_append, List.dropWhile_cons_of_neg (by simp [he]),
          List.takeWhile_cons_of_neg (by simp [he]), List.append_nil]
        exact ⟨rfl, rfl⟩
      simp only [quotedNext, (hbefore _).1, (hbefore _).2, closes_append hx hy]
      refine ⟨trivial, ?_⟩
      split
      · rw [List.length_append, List.length_cons]
        omega
      · exact Nat.zero_le _
  · intro prev _
    right
    have hcopied : ∀ {z : Bytes}, IsDigits z → ∀ u d v, z = u ++ d :: v →
        quotedNext quote atWordBoundary (lastOr prev u) d (v ++ q) = ([d], 0) := by
      intro z hz u d v hu
      refine if_neg fun h => ?_
      have hd := hz.digits d (by rw [hu]; simp)
      rw [h.1, hquote] at hd
      exact Bool.false_ne_true hd
    have hlast : ∀ {z : Bytes}, IsDigits z → ((lastOr prev z).map isWord).getD false = true := by
      intro z hz
      obtain ⟨last, hlast⟩ : ∃ last, z.getLast? = some last :=
        ⟨_, List.getLast?_eq_some_getLast hz.nonempty⟩
      rw [lastOr, hlast]
      exact isWord_of_isDigit (hz.digits last (List.mem_of_getLast? hlast))
    refine hreplaces.at_copied (by decide) (startsIn_marker rfl) hq (hcopied hx) (hcopied hy) ?_
    intro c s
    rw [quotedNext, quotedNext, hlast hx, hlast hy]

/-! ## Ids and numbers -/

/-- An edge ends everything that the last three passes take. -/
theorem edge_barrier {r : Regex} (h : ∀ c, isEdge c = true → r.avoids c = true)
    (replacement : Bytes) :
    ∀ c, isEdge c = true → Barrier (r.replaceNext replacement) c := fun c hc =>
      r.barrier (h c hc) replacement

theorem isWord_of_isHex {c : UInt8} (h : isHex c = true) : isWord c = true := by
  simp only [isHex, Byte.isHex, Bool.or_eq_true, Bool.and_eq_true, decide_eq_true_eq] at h
  simp only [isWord, Byte.isWord, Byte.isAlnum, Byte.isAlpha, Byte.isUpper, Byte.isLower,
    Bool.or_eq_true, Bool.and_eq_true, decide_eq_true_eq]
  grind

theorem isEdge_iff {c : UInt8} : isEdge c = true ↔ isWord c = false ∧ c ≠ 45 := by
  simp [isEdge]

theorem edge_not {p : UInt8 → Bool} (hp : ∀ c, p c = true → isWord c = true) {c : UInt8}
    (hc : isEdge c = true) : p c = false := by
  by_contra h
  rw [Bool.not_eq_false] at h
  exact Bool.false_ne_true ((isEdge_iff.mp hc).1.symm.trans (hp c h))

theorem avoids_exactly {a : Regex} {c : UInt8} (h : a.avoids c = true) (n : Nat) :
    (exactly n a).avoids c = true := by
  induction n with
  | zero => rfl
  | succ n ih => rw [exactly, avoids, h, ih]; rfl

theorem hexObject_edge (c : UInt8) (hc : isEdge c = true) : hexObjectPattern.avoids c = true := by
  have hhex : (set isHex).avoids c = true :=
    by simp [avoids, edge_not (fun _ => isWord_of_isHex) hc]
  have hexact : (exactly 4 (set isHex)).avoids c = true := avoids_exactly hhex 4
  have hword := (isEdge_iff.mp hc).1
  have h48 : c ≠ 48 := by rintro rfl; exact absurd hword (by decide)
  have h120 : c ≠ 120 := by rintro rfl; exact absurd hword (by decide)
  simp only [hexObjectPattern, atLeast, avoids, byte, hexact]
  simp [h48, h120, edge_not (fun _ => isWord_of_isHex) hc]

theorem uuid_edge (c : UInt8) (hc : isEdge c = true) : uuidPattern.avoids c = true := by
  have hhex : (set isHex).avoids c = true :=
    by simp [avoids, edge_not (fun _ => isWord_of_isHex) hc]
  obtain ⟨hword, h45⟩ := isEdge_iff.mp hc
  have hgroups : ∀ groups, (hexGroupsPattern groups).avoids c = true := by
    intro groups
    induction groups with
    | nil => rfl
    | cons n groups ih =>
      cases groups with
      | nil => exact avoids_exactly hhex n
      | cons m groups =>
        rw [hexGroupsPattern, avoids, avoids, avoids_exactly hhex n, ih]
        simp [byte, avoids, h45]
  simp [uuidPattern, avoids, hgroups, hword]

theorem number_edge (c : UInt8) (hc : isEdge c = true) : numberPattern.avoids c = true := by
  have hdigit := edge_not (fun _ => isWord_of_isDigit) hc
  simp [numberPattern, plus, atLeast, exactly, avoids, hdigit, (isEdge_iff.mp hc).1]

/-- A pass for which edges are barriers and that leaves digits as they are. -/
theorem blind_of_edges {r : Regex} (hedge : ∀ c, isEdge c = true → r.avoids c = true)
    (replacement : Bytes) (hdigits : ∀ {x}, IsDigits x → r.replaceAll replacement x = x) :
    BlindToDigits (r.replaceAll replacement) := by
  intro p q x y hp hq hx hy
  have hbarrier := edge_barrier hedge replacement
  refine .inr ⟨_, _, pass_endsIn hbarrier hp, pass_startsIn hbarrier hq, ?_, ?_⟩
  · rw [replaceAll, pass_append_of_endsIn hbarrier hp, pass_append_of_startsIn hbarrier hq]
    exact congrArg (fun s => _ ++ (s ++ _)) (hdigits hx)
  · rw [replaceAll, pass_append_of_endsIn hbarrier hp, pass_append_of_startsIn hbarrier hq]
    exact congrArg (fun s => _ ++ (s ++ _)) (hdigits hy)

/-- Where nothing matches everything is copied. -/
theorem replaceAll_of_first_none {r : Regex} {x : Bytes} (replacement : Bytes)
    (h : ∀ prev c s, (∃ u, x = u ++ c :: s) → r.first prev (c :: s) = none) :
    r.replaceAll replacement x = x := by
  have hcopied := @scan_copied (r.replaceNext replacement) none x [] fun u d v hu =>
    replaceNext_of_none (h _ d (v ++ []) ⟨u, by rw [List.append_nil]; exact hu⟩)
  rw [scan_nil, List.flatten_nil, List.append_nil] at hcopied
  exact hcopied

theorem replaceHexObjectIds_digits {x : Bytes} (hx : IsDigits x) :
    hexObjectPattern.replaceAll (ascii "0x") x = x := by
  refine replaceAll_of_first_none _ ?_
  rintro prev c s ⟨u, rfl⟩
  have hinner : (seq (byte 120) (atLeast 4 (set isHex))).first (some c) s = none := by
    rw [first_byte_seq]
    cases s with
    | nil => rfl
    | cons d s =>
      have hd : d ≠ 120 := by
        rintro rfl
        exact absurd (hx.digits 120 (by simp)) (by decide)
      exact if_neg hd
  rw [hexObjectPattern, first_byte_seq]
  simp only [hinner, Option.map_none, ite_self]

theorem replaceUuids_digits {x : Bytes} (hx : IsDigits x) :
    uuidPattern.replaceAll (ascii "<uuid>") x = x := by
  refine replaceAll_of_first_none _ ?_
  rintro prev c s ⟨u, rfl⟩
  have huuid : hexGroups [8, 4, 4, 4, 12] (c :: s) = false := by
    rw [hexGroups, Bool.and_eq_false_iff]
    right
    split
    · rename_i rest hrest
      have hmem : 45 ∈ c :: s := List.mem_of_mem_drop (hrest ▸ List.mem_cons_self)
      exact absurd (hx.digits 45 (List.mem_append_right _ hmem)) (by decide)
    · rfl
  rw [uuidPattern, first_notBehind_seq, first_seq, tries_hexGroups, huuid]
  split <;> rfl

theorem replaceNumbers_digits {x : Bytes} (hx : IsDigits x) :
    numberPattern.replaceAll (ascii "<n>") x = ascii "<n>" := by
  obtain ⟨d, s, rfl⟩ := List.exists_cons_of_ne_nil hx.nonempty
  have hrun : runLength isDigit (d :: s) = s.length + 1 := by
    rw [runLength, List.takeWhile_eq_self_iff.mpr hx.digits, List.length_cons]
  have hfirst : numberPattern.first none (d :: s) = some (s.length + 1) := by
    rw [first_number, hrun]
    refine if_neg (not_or.mpr ⟨Bool.false_ne_true, not_or.mpr ⟨Nat.succ_ne_zero _, ?_⟩⟩)
    rw [List.drop_succ_cons, List.drop_length]
    exact Bool.false_ne_true
  rw [replaceAll, pass, scan, replaceNext_of_some hfirst, scan_skip_all _ _ s (Nat.le_refl _)]
  rfl

/-- The passes before the last one do not see which digits they are, and the last one replaces
them. -/
theorem normalizeMessage_digits {p q x y : Bytes} (hp : EndsIn isEdge p) (hq : StartsIn isEdge q)
    (hx : IsDigits x) (hy : IsDigits y) :
    normalizeMessage (some (p ++ (x ++ q))) = normalizeMessage (some (p ++ (y ++ q))) := by
  have hblind : BlindToDigits fun s => uuidPattern.replaceAll (ascii "<uuid>")
      (hexObjectPattern.replaceAll (ascii "0x")
        (replaceSingleQuoted (replaceDoubleQuoted (replaceEmails s)))) :=
    (((replaceEmails_blind.comp (replaceQuoted_blind rfl false)).comp
      (replaceQuoted_blind rfl true)).comp
      (blind_of_edges hexObject_edge _ replaceHexObjectIds_digits)).comp
        (blind_of_edges uuid_edge _ replaceUuids_digits)
  simp only [normalizeMessage, Option.getD_some, replaceHexObjectIds_eq, replaceUuids_eq,
    replaceNumbers_eq]
  rcases hblind hp hq hx hy with heq | ⟨p', q', hp', hq', hxs, hys⟩
  · exact congrArg _ heq
  · have hbarrier := edge_barrier number_edge (ascii "<n>")
    have hnumber : ∀ {z : Bytes}, IsDigits z →
        numberPattern.replaceAll (ascii "<n>") (p' ++ (z ++ q')) =
        pass (numberPattern.replaceNext (ascii "<n>")) p' ++
          (ascii "<n>" ++ pass (numberPattern.replaceNext (ascii "<n>")) q') := by
      intro z hz
      rw [replaceAll, pass_append_of_endsIn hbarrier hp', pass_append_of_startsIn hbarrier hq']
      exact congrArg (fun s => _ ++ (s ++ _)) (replaceNumbers_digits hz)
    dsimp only at hxs hys
    rw [hxs, hys, hnumber hx, hnumber hy]

/-! ## Quoted texts -/

/-- A byte that is no part of a word. -/
def isGap (c : UInt8) : Bool := !isWord c

/-- A text in single quotes, with neither kind of quote and no line break in it. -/
structure IsQuoted (x : Bytes) : Prop where
  exists_body : ∃ body, x = 39 :: (body ++ [39]) ∧ ∀ c ∈ body, c ≠ 34 ∧ c ≠ 39 ∧ c ≠ 13 ∧ c ≠ 10

theorem quote_barrier : Barrier (emailPattern.replaceNext (ascii "<email>")) 39 :=
  emailPattern.barrier rfl _

theorem endsIn_gap {s : Bytes} (h : s.getLast? = some 62) : EndsIn isGap s := by
  intro c hc
  obtain rfl : 62 = c := Option.some.inj (h.symm.trans hc)
  rfl

theorem startsIn_gap {s : Bytes} (h : s.head? = some 60) : StartsIn isGap s := by
  intro c hc
  obtain rfl : 60 = c := Option.some.inj (h.symm.trans hc)
  rfl

/-- Neither a quote nor a line break is in the marker of an email. -/
theorem not_in_email_marker {c : UInt8} (h : c ∈ ascii "<email>") :
    c ≠ 34 ∧ c ≠ 39 ∧ c ≠ 13 ∧ c ≠ 10 := by
  have hall : ((ascii "<email>").all fun c => c ≠ 34 ∧ c ≠ 39 ∧ c ≠ 13 ∧ c ≠ 10) = true := rfl
  exact of_decide_eq_true (List.all_eq_true.mp hall c h)

/-- Before a double quote nothing is replaced. -/
theorem replaceDoubleQuoted_before {s : Bytes} (h : 34 ∉ s) (q : Bytes) :
    replaceDoubleQuoted (s ++ q) = s ++ replaceDoubleQuoted q := by
  have hcopied := @scan_copied (quotedNext 34 false) none s q fun u d v hu => by
    refine if_neg fun hd => h ?_
    rw [hu, hd.1]
    simp
  have hbehind : ∀ prev, scan (quotedNext 34 false) 0 prev q =
      scan (quotedNext 34 false) 0 none q := by
    intro prev
    cases q with
    | nil => rw [scan_nil, scan_nil]
    | cons c q =>
      have hnext : quotedNext 34 false prev c q = quotedNext 34 false none c q := by
        simp [quotedNext]
      rw [scan, scan, hnext]
  rw [replaceDoubleQuoted, replaceQuoted_pass, replaceQuoted_pass, pass, hcopied, hbehind]
  rfl

/-- A quoted text between gaps is replaced, and what stands around it is passed over on its own. -/
theorem replaceSingleQuoted_between {p q body : Bytes} (hp : 39 ∉ p) (hend : EndsIn isGap p)
    (hbody : ∀ c ∈ body, c ≠ 39 ∧ c ≠ 13 ∧ c ≠ 10) (hq : StartsIn isGap q) :
    replaceSingleQuoted (p ++ 39 :: (body ++ 39 :: q)) =
      p ++ (ascii "<str>" ++ (scan (quotedNext 39 true) 0 (some 39) q).flatten) := by
  have hcopied := @scan_copied (quotedNext 39 true) none p (39 :: (body ++ 39 :: q))
    fun u d v hu => by
    refine if_neg fun hd => hp ?_
    rw [hu, hd.1]
    simp
  have hin : ∀ c ∈ body, inQuotes 39 c = true := fun c hc => decide_eq_true (hbody c hc)
  have hdrop : (body ++ 39 :: q).dropWhile (inQuotes 39) = 39 :: q := by
    rw [List.dropWhile_append_of_pos hin]
    rfl
  have htake : (body ++ 39 :: q).takeWhile (inQuotes 39) = body := by
    rw [List.takeWhile_append_of_pos hin, List.takeWhile_cons_of_neg (by decide), List.append_nil]
  have hahead : wordAhead q = false := by
    cases q with
    | nil => rfl
    | cons c q =>
      show isWord c = false
      simpa [isGap] using hq c rfl
  have hbehind : ((lastOr none p).map isWord).getD false = false := by
    rw [lastOr, Option.or_none]
    cases hlast : p.getLast? with
    | none => rfl
    | some c => simpa [isGap] using hend c hlast
  have hnext : quotedNext 39 true (lastOr none p) 39 (body ++ 39 :: q) =
      (ascii "<str>", body.length + 1) := by
    rw [quotedNext, hdrop, htake, closes, hahead, hbehind]
    rfl
  rw [replaceSingleQuoted, replaceQuoted_pass, pass, hcopied, scan, hnext,
    List.flatten_cons, scan_skip_add]
  rfl

/-- What is in the quotes stays in them until the quotes are replaced. -/
theorem normalizeMessage_quoted {p q x y : Bytes} (hp : 34 ∉ p ∧ 39 ∉ p) (hend : EndsIn isGap p)
    (hq : StartsIn isGap q) (hx : IsQuoted x) (hy : IsQuoted y) :
    normalizeMessage (some (p ++ (x ++ q))) = normalizeMessage (some (p ++ (y ++ q))) := by
  have hreplaces := emailPattern.replaces (ascii "<email>")
  have hsingle : ∀ {z : Bytes}, IsQuoted z →
      replaceSingleQuoted (replaceDoubleQuoted (replaceEmails (p ++ (z ++ q)))) =
        replaceEmails p ++ (ascii "<str>" ++
          (scan (quotedNext 39 true) 0 (some 39)
            (replaceDoubleQuoted (replaceEmails q))).flatten) := by
    intro z hz
    obtain ⟨body, rfl, hbody⟩ := hz.exists_body
    have hemails : replaceEmails (p ++ (39 :: (body ++ [39]) ++ q)) =
        replaceEmails p ++ 39 :: (replaceEmails body ++ 39 :: replaceEmails q) := by
      have hsplit : p ++ (39 :: (body ++ [39]) ++ q) = p ++ 39 :: (body ++ 39 :: q) := by simp
      simp only [replaceEmails_eq, replaceAll, hsplit, quote_barrier.pass]
    have hp34 : 34 ∉ replaceEmails p := fun hmem => by
      rw [replaceEmails_eq] at hmem
      exact (hreplaces.mem_pass hmem).elim hp.1 fun h => (not_in_email_marker h).1 rfl
    have hp39 : 39 ∉ replaceEmails p := fun hmem => by
      rw [replaceEmails_eq] at hmem
      exact (hreplaces.mem_pass hmem).elim hp.2 fun h => (not_in_email_marker h).2.1 rfl
    have hbodyE : ∀ c ∈ replaceEmails body, c ≠ 34 ∧ c ≠ 39 ∧ c ≠ 13 ∧ c ≠ 10 := fun c hmem => by
      rw [replaceEmails_eq] at hmem
      exact (hreplaces.mem_pass hmem).elim (hbody c) not_in_email_marker
    have hendE : EndsIn isGap (replaceEmails p) := by
      rw [replaceEmails_eq]
      exact (hreplaces.endsIn_scan (by decide) (endsIn_gap rfl) hend).1
    have hqE : StartsIn isGap (replaceEmails q) := by
      rw [replaceEmails_eq]
      exact hreplaces.startsIn_scan (by decide) (startsIn_gap rfl) hq none
    have hqD : StartsIn isGap (replaceDoubleQuoted (replaceEmails q)) := by
      rw [replaceDoubleQuoted, replaceQuoted_pass]
      exact (quotedNext_replaces 34 false).startsIn_scan (by decide) (startsIn_gap rfl) hqE none
    have hbefore : 34 ∉ replaceEmails p ++ 39 :: (replaceEmails body ++ [39]) := by
      simp only [List.mem_append, List.mem_cons, List.not_mem_nil, or_false, not_or]
      exact ⟨hp34, by decide, fun hmem => (hbodyE 34 hmem).1 rfl, by decide⟩
    have hdouble : replaceDoubleQuoted
        (replaceEmails p ++ 39 :: (replaceEmails body ++ 39 :: replaceEmails q)) =
          replaceEmails p ++ 39 :: (replaceEmails body ++ 39 ::
            replaceDoubleQuoted (replaceEmails q)) := by
      have hstep := replaceDoubleQuoted_before hbefore (replaceEmails q)
      simpa using hstep
    rw [hemails, hdouble]
    exact replaceSingleQuoted_between hp39 hendE (fun c hc => (hbodyE c hc).2) hqD
  simp only [normalizeMessage, Option.getD_some, hsingle hx, hsingle hy]

/-! ## Emails -/

/-- An email that the pattern matches as a whole. -/
structure IsEmail (x : Bytes) : Prop where
  exists_parts : ∃ name domain letters, x = name ++ 64 :: (domain ++ 46 :: letters) ∧
    name ≠ [] ∧ (∀ c ∈ name, isEmailLocal c = true) ∧ domain ≠ [] ∧
    (∀ c ∈ domain, isEmailDomain c = true) ∧ 2 ≤ letters.length ∧ ∀ c ∈ letters, isAlpha c = true

/-- Such an email is taken whole when its domain does not go on behind it. -/
theorem emailAt_isEmail {x : Bytes} (hx : IsEmail x) {q : Bytes}
    (hq : StartsIn (fun c => !isEmailDomain c) q) : emailAt (x ++ q) = x.length := by
  obtain ⟨name, domain, letters, rfl, hne, hname, hdne, hdomain, hlong, hletters⟩ := hx.exists_parts
  have hstop : ∀ c ∈ q.head?, isEmailDomain c = false := fun c hc => by simpa using hq c hc
  have halpha : ∀ c ∈ q.head?, isAlpha c = false := by
    intro c hc
    by_contra h
    rw [Bool.not_eq_false] at h
    exact Bool.false_ne_true ((hstop c hc).symm.trans (isEmailDomain_of_isAlpha h))
  have hall : ∀ c ∈ domain ++ 46 :: letters, isEmailDomain c = true := by
    intro c hc
    rcases List.mem_append.mp hc with hc | hc
    · exact hdomain c hc
    · rcases List.mem_cons.mp hc with rfl | hc
      · rfl
      · exact isEmailDomain_of_isAlpha (hletters c hc)
  have hrun : ((domain ++ 46 :: letters ++ q).takeWhile isEmailDomain).length =
      domain.length + 1 + letters.length := by
    rw [takeWhile_append_stop hstop, List.takeWhile_eq_self_iff.mpr hall, List.length_append,
      List.length_cons]
    omega
  have hnoDot : 46 ∉ letters := fun hmem => absurd (hletters 46 hmem) (by decide)
  have hmatch : domainMatch (domain ++ 46 :: letters ++ q) (domain.length + 1 + letters.length) =
      domain.length + 1 + letters.length := by
    have hback := domainMatch_noDot hnoDot (domain ++ [46]) q (Nat.le_refl _)
    have hsplit : domain ++ [46] ++ (letters ++ q) = domain ++ 46 :: letters ++ q := by simp
    rw [hsplit, List.length_append, List.length_singleton] at hback
    rw [hback]
    obtain ⟨k, hk⟩ : ∃ k, domain.length = k + 1 :=
      ⟨domain.length - 1, by have := List.length_pos_iff.mpr hdne; omega⟩
    have hdot : (domain ++ 46 :: letters ++ q)[k + 1]? = some 46 := by
      rw [← hk, List.append_assoc, List.getElem?_append_right (Nat.le_refl _), Nat.sub_self]
      rfl
    have hdrop : (domain ++ 46 :: letters ++ q).drop (k + 1 + 1) = letters ++ q := by
      have hbehind : domain ++ 46 :: letters ++ q = (domain ++ [46]) ++ (letters ++ q) := by simp
      rw [hbehind, ← hk]
      exact List.drop_left' (by simp)
    have hletter : (letters ++ q).takeWhile isAlpha = letters := by
      rw [takeWhile_append_stop halpha, List.takeWhile_eq_self_iff.mpr hletters]
    rw [hk, domainMatch]
    simp only [hdot, hdrop, hletter]
    rw [if_pos ⟨trivial, hlong⟩]
  have hparts : name ++ 64 :: (domain ++ 46 :: letters) ++ q =
      name ++ 64 :: (domain ++ 46 :: letters ++ q) := by
    simp
  rw [hparts, emailAt_split hname rfl, hrun, hmatch, if_neg]
  · simp only [List.length_append, List.length_cons]
    omega
  · rintro (h | h | h)
    · exact hne h
    · exact h rfl
    · omega

/-- A byte that no part of an email before its domain goes on through. -/
def endsEmail (c : UInt8) : Bool := !isEmailLocal c && c != 64

theorem email_barrier (c : UInt8) (hc : endsEmail c = true) :
    Barrier (emailPattern.replaceNext (ascii "<email>")) c := by
  refine emailPattern.barrier ?_ _
  simp only [endsEmail, Bool.and_eq_true, Bool.not_eq_true', bne_iff_ne] at hc
  obtain ⟨hlocal, h64⟩ := hc
  have hdomain : isEmailDomain c = false := by
    simp only [isEmailLocal, isEmailDomain, Bool.or_eq_false_iff] at hlocal ⊢
    tauto
  have halpha : isAlpha c = false := by
    simp only [isEmailDomain, Bool.or_eq_false_iff] at hdomain
    tauto
  have h46 : c ≠ 46 := by
    rintro rfl
    exact absurd hlocal (by decide)
  simp [emailPattern, plus, atLeast, exactly, byte, avoids, hlocal, hdomain, halpha, h64, h46]

theorem replaceEmails_isEmail {p q x : Bytes} (hp : EndsIn endsEmail p) (hx : IsEmail x)
    (hq : StartsIn (fun c => !isEmailDomain c) q) :
    replaceEmails (p ++ (x ++ q)) = replaceEmails p ++ (ascii "<email>" ++ replaceEmails q) := by
  have hat := emailAt_isEmail hx hq
  have hne : x ≠ [] := by
    rintro rfl
    obtain ⟨name, domain, letters, heq, -⟩ := hx.exists_parts
    exact absurd heq (by simp)
  obtain ⟨e, z, rfl⟩ := List.exists_cons_of_ne_nil hne
  rw [List.cons_append] at hat
  have hstart : pass (emailPattern.replaceNext (ascii "<email>")) (e :: z ++ q) =
      ascii "<email>" ++ pass (emailPattern.replaceNext (ascii "<email>")) q := by
    have hbehind : ∀ prev, scan (emailPattern.replaceNext (ascii "<email>")) 0 prev q =
        scan (emailPattern.replaceNext (ascii "<email>")) 0 none q := by
      intro prev
      cases q with
      | nil => rw [scan_nil, scan_nil]
      | cons c q => rw [scan, scan, replaceNext_email, replaceNext_email]
    rw [pass, List.cons_append, scan, replaceNext_email, hat, List.length_cons,
      if_neg (Nat.succ_ne_zero _), List.flatten_cons, Nat.add_sub_cancel, scan_skip, hbehind]
    rfl
  simp only [replaceEmails_eq, replaceAll]
  rw [pass_append_of_endsIn email_barrier hp, hstart]

theorem normalizeMessage_emails {p q x y : Bytes} (hp : EndsIn endsEmail p)
    (hq : StartsIn (fun c => !isEmailDomain c) q) (hx : IsEmail x) (hy : IsEmail y) :
    normalizeMessage (some (p ++ (x ++ q))) = normalizeMessage (some (p ++ (y ++ q))) := by
  simp only [normalizeMessage, Option.getD_some, replaceEmails_isEmail hp hx hq,
    replaceEmails_isEmail hp hy hq]

/-! ## The message -/

/-- A message does not tell, once it is rewritten, which number, which quoted text or which email it
had. -/
theorem normalizeMessage_values (p q x y : Bytes) :
    (IsDigits x → IsDigits y → EndsIn isEdge p → StartsIn isEdge q →
      normalizeMessage (some (p ++ (x ++ q))) = normalizeMessage (some (p ++ (y ++ q)))) ∧
    (IsQuoted x → IsQuoted y → 34 ∉ p ∧ 39 ∉ p → EndsIn isGap p → StartsIn isGap q →
      normalizeMessage (some (p ++ (x ++ q))) = normalizeMessage (some (p ++ (y ++ q)))) ∧
    (IsEmail x → IsEmail y → EndsIn endsEmail p → StartsIn (fun c => !isEmailDomain c) q →
      normalizeMessage (some (p ++ (x ++ q))) = normalizeMessage (some (p ++ (y ++ q)))) :=
  ⟨fun hx hy hp hq => normalizeMessage_digits hp hq hx hy,
    fun hx hy hp hend hq => normalizeMessage_quoted hp hend hq hx hy,
    fun hx hy hp hq => normalizeMessage_emails hp hq hx hy⟩

theorem isDigits_of_all {x : Bytes} (hne : x ≠ []) (h : x.all isDigit = true) : IsDigits x :=
  ⟨hne, List.all_eq_true.mp h⟩

theorem endsIn_of_getLast? {edge : UInt8 → Bool} {s : Bytes} {c : UInt8} (hc : s.getLast? = some c)
    (h : edge c = true) : EndsIn edge s := by
  intro d hd
  obtain rfl : c = d := Option.some.inj (hc.symm.trans hd)
  exact h

theorem startsIn_of_head? {behind : UInt8 → Bool} {s : Bytes} {c : UInt8} (hc : s.head? = some c)
    (h : behind c = true) : StartsIn behind s := by
  intro d hd
  obtain rfl : c = d := Option.some.inj (hc.symm.trans hd)
  exact h

theorem normalizeMessage_values_user :
    normalizeMessage (some (ascii "user " ++ (ascii "42" ++ ascii " not found"))) =
        normalizeMessage (some (ascii "user " ++ (ascii "70031" ++ ascii " not found"))) ∧
      normalizeMessage (some (ascii "user " ++ (ascii "'ann'" ++ ascii " not found"))) =
        normalizeMessage (some (ascii "user " ++ (ascii "'bob@b.co'" ++ ascii " not found"))) ∧
      normalizeMessage (some (ascii "user " ++ (ascii "ann@a.org" ++ ascii " not found"))) =
        normalizeMessage
          (some (ascii "user " ++ (ascii "bob@mail.b.com" ++ ascii " not found"))) := by
  refine ⟨?_, ?_, ?_⟩
  · exact (normalizeMessage_values _ _ _ _).1 (isDigits_of_all (by simp [ascii]) rfl)
      (isDigits_of_all (by simp [ascii]) rfl) (endsIn_of_getLast? rfl rfl)
        (startsIn_of_head? rfl rfl)
  · exact (normalizeMessage_values _ _ _ _).2.1 ⟨ascii "ann", rfl, by simp [ascii]⟩
      ⟨ascii "bob@b.co", rfl, by simp [ascii]⟩ (by simp [ascii]) (endsIn_of_getLast? rfl rfl)
      (startsIn_of_head? rfl rfl)
  · refine (normalizeMessage_values _ _ _ _).2.2
      ⟨ascii "ann", ascii "a", ascii "org", rfl, by
        simp [ascii], List.all_eq_true.mp rfl, by
          simp [ascii], List.all_eq_true.mp rfl, by simp [ascii], List.all_eq_true.mp rfl⟩
      ⟨ascii "bob", ascii "mail.b", ascii "com", rfl, by
        simp [ascii], List.all_eq_true.mp rfl, by
          simp [ascii], List.all_eq_true.mp rfl, by simp [ascii], List.all_eq_true.mp rfl⟩
      (endsIn_of_getLast? rfl rfl) (startsIn_of_head? rfl rfl)

end ForgeOps.StrictPrivacy
