import ForgeOpsTracker.Lib.Regex
import ForgeOpsTracker.StrictPrivacy

/-! The rewriting of a message before it is fingerprinted, as global replacements of regular
expressions. The code scans by hand what every other sender leaves to its regex engine. -/

namespace ForgeOps.StrictPrivacy
open Byte Regex

/-- `[a-zA-Z0-9._%+-]+@[a-zA-Z0-9.-]+\.[a-zA-Z]{2,}` -/
def emailPattern : Regex :=
  seq (plus (set isEmailLocal)) (seq (byte 64)
    (seq (plus (set isEmailDomain)) (seq (byte 46) (atLeast 2 (set isAlpha)))))

/-- A quote, then what is no such quote and no line break, then the quote again. -/
def quotedPattern (quote : UInt8) (behind : Regex) : Regex :=
  seq (byte quote) (seq (star (set fun d => d ≠ quote ∧ d ≠ 13 ∧ d ≠ 10)) (seq (byte quote) behind))

def doubleQuotedPattern : Regex := quotedPattern 34 empty
def singleQuotedPattern : Regex := seq (notBehind isWord) (quotedPattern 39 (notAhead isWord))

/-- `0x[0-9a-fA-F]{4,}` -/
def hexObjectPattern : Regex := seq (byte 48) (seq (byte 120) (atLeast 4 (set isHex)))

/-- Groups of so many hex digits each, with a dash between two. -/
def hexGroupsPattern : List Nat → Regex
  | [] => empty
  | [n] => exactly n (set isHex)
  | n :: m :: groups => seq (exactly n (set isHex)) (seq (byte 45) (hexGroupsPattern (m :: groups)))

def uuidPattern : Regex :=
  seq (notBehind isWord) (seq (hexGroupsPattern [8, 4, 4, 4, 12]) (notAhead isWord))

def numberPattern : Regex := seq (notBehind isWord) (seq (plus (set isDigit)) (notAhead isWord))

/-! ## Emails -/

/-- The length that the last dot with two letters behind it gives, among the first `n` bytes. -/
theorem domainMatch_eq (domain : Bytes) (n : Nat) :
    ((List.range' 1 (n - 1)).reverse.findSome? fun k =>
      if domain[k]? = some 46 ∧ 2 ≤ runLength isAlpha (domain.drop (k + 1)) then
        some (k + 1 + runLength isAlpha (domain.drop (k + 1))) else none) =
      if domainMatch domain n = 0 then none else some (domainMatch domain n) := by
  induction n with
  | zero => rfl
  | succ n ih =>
    cases n with
    | zero => rfl
    | succ n =>
      have hrange : List.range' 1 (n + 1 + 1 - 1) = List.range' 1 (n + 1 - 1) ++ [n + 1] := by
        rw [Nat.add_sub_cancel, Nat.add_sub_cancel, List.range'_concat, Nat.one_mul, Nat.add_comm]
      rw [hrange, List.reverse_append, List.reverse_singleton, List.singleton_append,
        List.findSome?_cons, domainMatch]
      by_cases hdot : domain[n + 1]? = some 46 ∧ 2 ≤ runLength isAlpha (domain.drop (n + 1 + 1))
      · rw [if_pos hdot]
        have hmatch : domain[n + 1]? = some 46 ∧
            ((domain.drop (n + 1 + 1)).takeWhile isAlpha).length ≥ 2 := hdot
        simp only [if_pos hmatch]
        rw [if_neg (by omega)]
        rfl
      · rw [if_neg hdot]
        have hmatch : ¬ (domain[n + 1]? = some 46 ∧
            ((domain.drop (n + 1 + 1)).takeWhile isAlpha).length ≥ 2) := hdot
        simp only [if_neg hmatch]
        exact ih

/-- The part of an email behind its local part. -/
theorem first_domain (prev : Option UInt8) (domain : Bytes) :
    (seq (plus (set isEmailDomain)) (seq (byte 46) (atLeast 2 (set isAlpha)))).first prev domain =
      if domainMatch domain (runLength isEmailDomain domain) = 0 then none
      else some (domainMatch domain (runLength isEmailDomain domain)) := by
  have hturn : ∀ k, ((seq (byte 46) (atLeast 2 (set isAlpha))).first (lastOr prev (domain.take k))
      (domain.drop k)).map (k + ·) =
        if domain[k]? = some 46 ∧ 2 ≤ runLength isAlpha (domain.drop (k + 1)) then
          some (k + 1 + runLength isAlpha (domain.drop (k + 1))) else none := by
    intro k
    rw [first_byte_seq]
    have hhead : domain[k]? = (domain.drop k).head? := by rw [List.head?_drop]
    have htail : domain.drop (k + 1) = (domain.drop k).tail := by rw [List.tail_drop]
    rw [hhead, htail]
    cases hdrop : domain.drop k with
    | nil => simp
    | cons d rest =>
      simp only [first_atLeast_set, List.head?_cons, Option.some.injEq, List.tail_cons]
      by_cases hd : d = 46
      · by_cases hletters : 2 ≤ runLength isAlpha rest
        · simp [hd, hletters, Nat.add_assoc]
        · simp [hd, hletters]
      · simp [hd]
  rw [first_seq, plus, tries_atLeast_set]
  simp only [hturn]
  rw [← domainMatch_eq]
  by_cases hrun : 1 ≤ runLength isEmailDomain domain
  · -- the whole run is followed by no dot
    have hlast : domain[runLength isEmailDomain domain]? ≠ some 46 := by
      rw [← List.head?_drop]
      intro hdot
      exact absurd (head_drop_runLength hdot) (by decide)
    rw [range'_last hrun, List.reverse_append, List.reverse_singleton, List.singleton_append,
      List.findSome?_cons, if_neg fun h => hlast h.1]
  · rw [Nat.sub_eq_zero_of_le (by omega), Nat.sub_eq_zero_of_le (by omega)]

/-- The email at the head of a text is the one the pattern matches there. -/
theorem first_email (prev : Option UInt8) (s : Bytes) :
    emailPattern.first prev s = if emailAt s = 0 then none else some (emailAt s) := by
  have hinner : ∀ k, 1 ≤ k → k < runLength isEmailLocal s → (seq (byte 64)
      (seq (plus (set isEmailDomain)) (seq (byte 46) (atLeast 2 (set isAlpha))))).first
        (lastOr prev (s.take k)) (s.drop k) = none := by
    intro k _ hk
    obtain ⟨c, rest, hdrop, hc⟩ := head_drop_of_lt hk
    have hne : c ≠ 64 := by
      rintro rfl
      exact absurd hc (by decide)
    rw [hdrop, first_byte_seq]
    exact if_neg hne
  rw [emailPattern, plus, first_atLeast_set_seq hinner, first_byte_seq, emailAt]
  by_cases hlocal : s.takeWhile isEmailLocal = []
  · have hrun : ¬ 1 ≤ runLength isEmailLocal s := by simp [runLength, hlocal]
    rw [if_neg hrun, if_pos hlocal]
    rfl
  have hrun : 1 ≤ runLength isEmailLocal s := List.length_pos_iff.mpr hlocal
  rw [if_pos hrun]
  simp only [if_neg hlocal]
  have hsame : (s.takeWhile isEmailLocal).length = runLength isEmailLocal s := rfl
  rw [hsame]
  cases hdrop : s.drop (runLength isEmailLocal s) with
  | nil => rfl
  | cons d rest =>
    by_cases hd : d = 64
    · subst hd
      have hdomain : (rest.takeWhile isEmailDomain).length = runLength isEmailDomain rest := rfl
      simp only [if_true, first_domain, hdomain]
      by_cases hzero : domainMatch rest (runLength isEmailDomain rest) = 0
      · simp [hzero]
      · simp [hzero, Nat.add_assoc]
    · simp only [if_neg hd, Option.map_none]
      split
      · rename_i heq
        exact absurd (List.cons.inj heq).1 hd
      · rfl

/-- Whether an email starts in a run of its local part is decided behind the run. -/
theorem emailAt_eq_zero {s : Bytes} (h : s.takeWhile isEmailLocal ≠ []) : emailAt s = 0 ↔
    ∀ after, s.dropWhile isEmailLocal = 64 :: after →
      domainMatch after (after.takeWhile isEmailDomain).length = 0 := by
  simp only [emailAt, if_neg h, drop_length_takeWhile]
  split
  · rename_i after heq
    rw [heq]
    simp
  · rename_i hother
    exact iff_of_true rfl fun after hafter => absurd hafter (hother after)

theorem emailAt_in_run {run more : Bytes} (h : ∀ c ∈ run, isEmailLocal c = true)
    (hmore : emailAt (run ++ more) = 0) {u v : Bytes} {d : UInt8} (hu : run = u ++ d :: v) :
    emailAt (d :: (v ++ more)) = 0 := by
  subst hu
  have hd : isEmailLocal d = true := h d (by simp)
  have hrun : (u ++ d :: v ++ more).dropWhile isEmailLocal =
      (d :: (v ++ more)).dropWhile isEmailLocal := by
    rw [List.append_assoc, List.dropWhile_append_of_pos fun c hc => h c (List.mem_append_left _ hc)]
    rfl
  have hne : (u ++ d :: v ++ more).takeWhile isEmailLocal ≠ [] := by
    rw [List.append_assoc, List.takeWhile_append_of_pos fun c hc => h c (List.mem_append_left _ hc),
      List.cons_append, List.takeWhile_cons_of_pos hd]
    simp
  rw [emailAt_eq_zero hne, hrun] at hmore
  rw [emailAt_eq_zero (by rw [List.takeWhile_cons_of_pos hd]; exact List.cons_ne_nil _ _)]
  exact hmore

theorem replaceEmails_eq (s : Bytes) :
    replaceEmails s = emailPattern.replaceAll (ascii "<email>") s := by
  refine pass_eq_of_runs (fun prev c rest => ?_) s
  have hnone : ∀ prev d t, emailAt (d :: t) = 0 → emailPattern.first prev (d :: t) = none := by
    intro prev d t hzero
    rw [first_email, if_pos hzero]
  by_cases hc : isEmailLocal c = true
  · rw [if_pos hc]
    by_cases hzero : emailAt (c :: rest) = 0
    · refine .inr ⟨rest.takeWhile isEmailLocal, rest.dropWhile isEmailLocal,
        List.takeWhile_append_dropWhile.symm, ?_, ?_⟩
      · simp [hzero]
      · intro u d v hu
        refine replaceNext_of_none (hnone _ _ _ (emailAt_in_run ?_ ?_ hu))
        · intro e he
          rcases List.mem_cons.mp he with rfl | he
          · exact hc
          · exact List.mem_takeWhile_imp he
        · rwa [List.cons_append, List.takeWhile_append_dropWhile]
    · left
      obtain ⟨n, hn⟩ := Nat.exists_eq_succ_of_ne_zero hzero
      rw [replaceNext_of_some (n := n) (by rw [first_email, if_neg hzero, hn])]
      simp only [hn]
      rw [if_pos (Nat.succ_pos n)]
      rfl
  · left
    have hzero : emailAt (c :: rest) = 0 := by
      rw [emailAt, List.takeWhile_cons_of_neg hc]
      rfl
    rw [if_neg hc, replaceNext_of_none (hnone _ _ _ hzero)]

/-! ## Quoted texts -/

/-- What is written for a quote is decided at the next byte that is that quote or breaks the
line. -/
theorem first_quoted (quote : UInt8) (behind : Regex) (prev : Option UInt8) (c : UInt8)
    (rest : Bytes) : (quotedPattern quote behind).first prev (c :: rest) =
      if c = quote then
        match rest.dropWhile fun d => d ≠ quote ∧ d ≠ 13 ∧ d ≠ 10 with
        | q :: after => if q = quote then (behind.first (some q) after).map fun n =>
            1 + (runLength (fun d => d ≠ quote ∧ d ≠ 13 ∧ d ≠ 10) rest + (1 + n)) else none
        | [] => none
      else none := by
  have hinner : ∀ k < runLength (fun d => d ≠ quote ∧ d ≠ 13 ∧ d ≠ 10) rest,
      (seq (byte quote) behind).first (lastOr (some c) (rest.take k)) (rest.drop k) = none := by
    intro k hk
    obtain ⟨d, more, hdrop, hd⟩ := head_drop_of_lt hk
    rw [hdrop, first_byte_seq]
    exact if_neg (of_decide_eq_true hd).1
  rw [quotedPattern, first_byte_seq]
  by_cases hc : c = quote
  · simp only [if_pos hc, first_star_set_seq hinner]
    have hdrop : rest.drop (runLength (fun d => d ≠ quote ∧ d ≠ 13 ∧ d ≠ 10) rest) =
        rest.dropWhile fun d => d ≠ quote ∧ d ≠ 13 ∧ d ≠ 10 := drop_length_takeWhile _ rest
    rw [hdrop]
    cases rest.dropWhile fun d => decide (d ≠ quote ∧ d ≠ 13 ∧ d ≠ 10) with
    | nil => rfl
    | cons q after =>
      simp only [first_byte_seq]
      by_cases hq : q = quote
      · simp only [if_pos hq, Option.map_map]
        rfl
      · simp only [if_neg hq, Option.map_none]
  · simp only [if_neg hc]

/-- With word boundaries or without, a quoted text is replaced as by a pattern that differs from the
plain one only in these tests. -/
theorem replaceQuoted_eq {quote : UInt8} {atWordBoundary : Bool} {pattern behind : Regex}
    (hpattern : ∀ prev s, pattern.first prev s =
      if atWordBoundary = true ∧ (prev.map isWord).getD false = true then none
      else (quotedPattern quote behind).first prev s)
    (hbehind : ∀ prev after, behind.first prev after =
      if atWordBoundary = true ∧ wordAhead after = true then none else some 0)
    (s : Bytes) :
    replaceQuoted quote atWordBoundary s = pattern.replaceAll (ascii "<str>") s := by
  refine pass_eq_of_runs (fun prev c rest => .inl ?_) s
  simp only [drop_length_takeWhile]
  by_cases hprev : atWordBoundary = true ∧ (prev.map isWord).getD false = true
  · rw [replaceNext_of_none (by rw [hpattern, if_pos hprev]), if_neg]
    rintro ⟨-, h⟩
    exact h.elim (fun h => h hprev.1) (fun h => h hprev.2)
  have hprev' : ¬ atWordBoundary = true ∨ ¬ (prev.map isWord).getD false = true :=
    not_and_or.mp hprev
  have hfirst := hpattern prev (c :: rest)
  rw [if_neg hprev, first_quoted] at hfirst
  by_cases hc : c = quote
  · rw [if_pos hc] at hfirst
    rw [if_pos ⟨hc, hprev'⟩]
    cases hdrop : rest.dropWhile fun d => decide (d ≠ quote ∧ d ≠ 13 ∧ d ≠ 10) with
    | nil =>
      rw [hdrop] at hfirst
      rw [replaceNext_of_none hfirst]
    | cons q after =>
      rw [hdrop] at hfirst
      simp only [hbehind] at hfirst
      by_cases hq : q = quote ∧ (¬ atWordBoundary = true ∨ ¬ wordAhead after = true)
      · rw [if_pos hq.1, if_neg (not_and_or.mpr hq.2)] at hfirst
        have hlength : 1 + (runLength (fun d => d ≠ quote ∧ d ≠ 13 ∧ d ≠ 10) rest + (1 + 0)) =
            runLength (fun d => d ≠ quote ∧ d ≠ 13 ∧ d ≠ 10) rest + 1 + 1 := by omega
        rw [Option.map_some, hlength] at hfirst
        rw [replaceNext_of_some hfirst]
        exact if_pos hq
      · have hnone : pattern.first prev (c :: rest) = none := by
          rw [hfirst]
          by_cases hqq : q = quote
          · have hahead : atWordBoundary = true ∧ wordAhead after = true := by
              by_contra h
              exact hq ⟨hqq, not_and_or.mp h⟩
            rw [if_pos hqq, if_pos hahead]
            rfl
          · rw [if_neg hqq]
        rw [replaceNext_of_none hnone]
        exact if_neg hq
  · rw [if_neg hc] at hfirst
    rw [replaceNext_of_none hfirst, if_neg fun h => hc h.1]

theorem replaceDoubleQuoted_eq (s : Bytes) :
    replaceDoubleQuoted s = doubleQuotedPattern.replaceAll (ascii "<str>") s :=
  replaceQuoted_eq (fun _ _ => (if_neg fun h => Bool.false_ne_true h.1).symm)
    (fun _ _ => (if_neg fun h => Bool.false_ne_true h.1).symm) s

theorem replaceSingleQuoted_eq (s : Bytes) :
    replaceSingleQuoted s = singleQuotedPattern.replaceAll (ascii "<str>") s := by
  refine @replaceQuoted_eq 39 true singleQuotedPattern (notAhead isWord) (fun prev s => ?_)
    (fun prev after => ?_) s
  · rw [singleQuotedPattern, first_notBehind_seq]
    simp only [true_and]
  · rw [first_notAhead, wordAhead]
    simp only [true_and]

/-! ## Ids -/

theorem replaceHexObjectIds_eq (s : Bytes) :
    replaceHexObjectIds s = hexObjectPattern.replaceAll (ascii "0x") s := by
  refine pass_eq_of_runs (fun prev c rest => .inl ?_) s
  split
  · rename_i digits
    have hrun : (digits.takeWhile isHex).length = runLength isHex digits := rfl
    have hfirst : hexObjectPattern.first prev (48 :: 120 :: digits) =
        ((if 4 ≤ runLength isHex digits then some (runLength isHex digits) else none).map
          (1 + ·)).map (1 + ·) := by
      rw [hexObjectPattern, first_byte_seq]
      show Option.map _ ((seq (byte 120) (atLeast 4 (set isHex))).first (some 48)
        (120 :: digits)) = _
      rw [first_byte_seq, ← first_atLeast_set isHex 4 (some 120) digits]
      rfl
    simp only [hrun]
    by_cases hlong : 4 ≤ runLength isHex digits
    · rw [if_pos hlong, Option.map_some, Option.map_some] at hfirst
      have hlength : 1 + (1 + runLength isHex digits) = 1 + runLength isHex digits + 1 := by omega
      rw [hlength] at hfirst
      rw [replaceNext_of_some hfirst]
      exact if_pos hlong
    · rw [if_neg hlong] at hfirst
      rw [replaceNext_of_none hfirst]
      exact if_neg hlong
  · rename_i hother
    have hnone : hexObjectPattern.first prev (c :: rest) = none := by
      rw [hexObjectPattern, first_byte_seq]
      by_cases hc : c = 48
      · have hinner : (seq (byte 120) (atLeast 4 (set isHex))).first (some c) rest = none := by
          rw [first_byte_seq]
          cases rest with
          | nil => rfl
          | cons d digits =>
            have hd : d ≠ 120 := by
              rintro rfl
              exact hother digits hc rfl
            exact if_neg hd
        simp only [hinner, Option.map_none, ite_self]
      · exact if_neg hc
    rw [replaceNext_of_none hnone]

/-- The length of hex groups with dashes between them. -/
def groupsLength : List Nat → Nat
  | [] => 0
  | [n] => n
  | n :: m :: groups => n + (1 + groupsLength (m :: groups))

theorem tries_hexGroups (groups : List Nat) (prev : Option UInt8) (s : Bytes) :
    (hexGroupsPattern groups).tries prev s =
      if hexGroups groups s then [groupsLength groups] else [] := by
  have hrun : ∀ n (s : Bytes), ((decide ((s.take n).length = n) && (s.take n).all isHex) = true) ↔
      n ≤ runLength isHex s := by
    intro n s
    rw [runLength, le_length_takeWhile, Bool.and_eq_true, List.all_eq_true, decide_eq_true_eq,
      List.length_take, min_eq_left_iff]
  induction groups generalizing prev s with
  | nil => rfl
  | cons n groups ih =>
    cases groups with
    | nil =>
      rw [hexGroupsPattern, tries_exactly_set, hexGroups]
      simp only [hrun]
      rfl
    | cons m groups =>
      rw [hexGroupsPattern, tries_seq, tries_exactly_set, hexGroups]
      simp only [Bool.and_eq_true (decide _ && _), hrun]
      by_cases hn : n ≤ runLength isHex s
      · rw [if_pos hn, List.flatMap_cons, List.flatMap_nil, List.append_nil, tries_seq]
        cases hdrop : s.drop n with
        | nil => simp [byte, tries]
        | cons d rest =>
          by_cases hd : d = 45
          · subst hd
            simp only [byte, tries_set_cons, beq_self_eq_true, if_true, List.flatMap_cons,
              List.flatMap_nil, List.append_nil, List.drop_succ_cons, List.drop_zero, ih]
            by_cases hrest : hexGroups (m :: groups) rest = true
            · simp [hn, hrest, groupsLength]
            · simp [hrest]
          · simp [byte, tries_set_cons, hd]
      · rw [if_neg hn, if_neg fun h => hn h.1]
        rfl

theorem replaceUuids_eq (s : Bytes) :
    replaceUuids s = uuidPattern.replaceAll (ascii "<uuid>") s := by
  refine pass_eq_of_runs (fun prev c rest => .inl ?_) s
  have hfirst : uuidPattern.first prev (c :: rest) =
      if (prev.map isWord).getD false = true then none
      else if uuidAt (c :: rest) = true then
        if wordAhead ((c :: rest).drop uuidLength) = true then none else some uuidLength
      else none := by
    rw [uuidPattern, first_notBehind_seq, first_seq, tries_hexGroups]
    have hlength : groupsLength [8, 4, 4, 4, 12] = uuidLength := rfl
    rw [hlength]
    simp only [first_notAhead]
    rw [uuidAt, wordAhead]
    by_cases huuid : hexGroups [8, 4, 4, 4, 12] (c :: rest) = true
    · rw [if_pos huuid, if_pos huuid, List.findSome?_cons, List.findSome?_nil]
      cases hword : (((c :: rest).drop uuidLength).head?.map isWord).getD false <;> simp
    · rw [if_neg huuid, if_neg huuid, List.findSome?_nil]
  by_cases h : ¬ (prev.map isWord).getD false = true ∧ uuidAt (c :: rest) = true ∧
      ¬ wordAhead ((c :: rest).drop uuidLength) = true
  · rw [if_neg h.1, if_pos h.2.1, if_neg h.2.2] at hfirst
    rw [if_pos h, replaceNext_of_some (n := uuidLength - 1) hfirst]
  · rw [if_neg h, replaceNext_of_none]
    rw [hfirst]
    by_contra hsome
    apply h
    refine ⟨fun hprev => hsome (if_pos hprev), ?_, fun hahead => hsome ?_⟩
    · by_contra huuid
      exact hsome (by rw [if_neg huuid, ite_self])
    · rw [if_pos hahead, ite_self, ite_self]

/-! ## Numbers -/

theorem isWord_of_isDigit {c : UInt8} (h : isDigit c = true) : isWord c = true := by
  have hdigit : Byte.isDigit c = true := h
  simp [isWord, Byte.isWord, isAlnum, hdigit]

theorem first_number (prev : Option UInt8) (s : Bytes) : numberPattern.first prev s =
    if (prev.map isWord).getD false = true ∨ runLength isDigit s = 0 ∨
        wordAhead (s.drop (runLength isDigit s)) = true then none
        else some (runLength isDigit s) := by
  have hinner : ∀ k, 1 ≤ k → k < runLength isDigit s →
      (notAhead isWord).first (lastOr prev (s.take k)) (s.drop k) = none := by
    intro k _ hk
    obtain ⟨c, rest, hdrop, hc⟩ := head_drop_of_lt hk
    rw [first_notAhead, hdrop]
    exact if_pos (isWord_of_isDigit hc)
  rw [numberPattern, first_notBehind_seq, plus, first_atLeast_set_seq hinner,
    first_notAhead, wordAhead]
  by_cases hprev : (prev.map isWord).getD false = true
  · rw [if_pos hprev, if_pos (.inl hprev)]
  rw [if_neg hprev]
  by_cases hzero : runLength isDigit s = 0
  · rw [if_neg (by omega), if_pos (.inr (.inl hzero))]
  rw [if_pos (by omega)]
  by_cases hahead : ((s.drop (runLength isDigit s)).head?.map isWord).getD false = true
  · rw [if_pos hahead, if_pos (.inr (.inr hahead))]
    rfl
  · rw [if_neg hahead, if_neg (not_or.mpr ⟨hprev, not_or.mpr ⟨hzero, hahead⟩⟩)]
    rfl

theorem replaceNumbers_eq (s : Bytes) :
    replaceNumbers s = numberPattern.replaceAll (ascii "<n>") s := by
  refine pass_eq_of_runs (fun prev c rest => ?_) s
  by_cases hc : isDigit c = true
  swap
  · left
    have hzero : runLength isDigit (c :: rest) = 0 := by rw [runLength_cons, if_neg hc]
    rw [if_neg hc, replaceNext_of_none (by rw [first_number, if_pos (.inr (.inl hzero))])]
  rw [if_pos hc]
  have hrun : runLength isDigit (c :: rest) = (rest.takeWhile isDigit).length + 1 := by
    rw [runLength_cons, if_pos hc]
    rfl
  have hfirst := first_number prev (c :: rest)
  rw [hrun, List.drop_succ_cons] at hfirst
  by_cases h : ¬ (prev.map isWord).getD false = true ∧
      ¬ wordAhead (rest.drop (rest.takeWhile isDigit).length) = true
  · left
    rw [if_neg (not_or.mpr ⟨h.1, not_or.mpr ⟨Nat.succ_ne_zero _, h.2⟩⟩)] at hfirst
    rw [replaceNext_of_some hfirst]
    exact if_pos h
  · right
    refine ⟨rest.takeWhile isDigit, rest.dropWhile isDigit,
      List.takeWhile_append_dropWhile.symm, if_neg h, ?_⟩
    intro u d v hu
    apply replaceNext_of_none
    have hdigits : ∀ e ∈ c :: rest.takeWhile isDigit, isDigit e = true := by
      intro e he
      rcases List.mem_cons.mp he with rfl | he
      · exact hc
      · exact List.mem_takeWhile_imp he
    cases u with
    | nil =>
      obtain ⟨rfl, rfl⟩ := List.cons.inj hu
      rw [List.takeWhile_append_dropWhile, lastOr_nil, hfirst]
      exact if_pos (by tauto)
    | cons e u =>
      -- a digit stands before this one
      obtain ⟨last, hlast⟩ : ∃ last, (e :: u).getLast? = some last :=
        ⟨_, List.getLast?_eq_some_getLast (List.cons_ne_nil e u)⟩
      have hdigit : isDigit last = true :=
        hdigits last (hu ▸ List.mem_append_left _ (List.mem_of_getLast? hlast))
      have hprev : lastOr prev (e :: u) = some last := by rw [lastOr, hlast]; rfl
      rw [first_number, hprev]
      exact if_pos (.inl (isWord_of_isDigit hdigit))

/-! ## The message -/

/-- A message is rewritten as by the six replacements one after the other. -/
theorem normalizeMessage_eq (message : Option Bytes) : normalizeMessage message =
    numberPattern.replaceAll (ascii "<n>") (uuidPattern.replaceAll (ascii "<uuid>")
      (hexObjectPattern.replaceAll (ascii "0x") (singleQuotedPattern.replaceAll (ascii "<str>")
        (doubleQuotedPattern.replaceAll (ascii "<str>")
          (emailPattern.replaceAll (ascii "<email>") (message.getD [])))))) := by
  rw [normalizeMessage, replaceEmails_eq, replaceDoubleQuoted_eq, replaceSingleQuoted_eq,
    replaceHexObjectIds_eq, replaceUuids_eq, replaceNumbers_eq]

end ForgeOps.StrictPrivacy
