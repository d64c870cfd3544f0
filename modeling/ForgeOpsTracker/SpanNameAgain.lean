import ForgeOpsTracker.StrictPrivacy

/-! Strict privacy's rule for span names, applied a second time. A rewritten path is
left alone; a host that lost its scheme and its port may be taken for a path, and a
path that lost what stood behind its first slash for a host. -/

namespace ForgeOps.StrictPrivacy

/-! ## Segments -/

theorem segments_cons (c : UInt8) (s : Bytes) (hc : c ≠ 47) : ∃ first more,
    segments s = first :: more ∧ segments (c :: s) = (c :: first) :: more := by
  induction s with
  | nil => exact ⟨[], [], rfl, by simp [segments]⟩
  | cons d s ih =>
    rw [segments.eq_3 _ _ hc]
    cases h : segments (d :: s) with
    | nil =>
      exfalso
      by_cases hd : d = 47
      · subst hd
        exact absurd h (by simp [segments])
      · rw [segments.eq_3 _ _ hd] at h
        split at h <;> exact absurd h (by simp)
    | cons first more => exact ⟨first, more, rfl, rfl⟩

theorem segments_slash (s : Bytes) : segments (47 :: s) = [] :: segments s := rfl

/-- The first segment ends before the first slash. -/
theorem segments_append_slash {first : Bytes} (h : 47 ∉ first) (s : Bytes) :
    segments (first ++ 47 :: s) = first :: segments s := by
  induction first with
  | nil => rfl
  | cons c first ih =>
    rw [List.mem_cons, not_or] at h
    obtain ⟨f, more, hs, hcons⟩ := segments_cons c (first ++ 47 :: s) (Ne.symm h.1)
    rw [ih h.2] at hs
    obtain ⟨rfl, rfl⟩ := List.cons.inj hs
    exact hcons

theorem segments_single {first : Bytes} (h : 47 ∉ first) : segments first = [first] := by
  induction first with
  | nil => rfl
  | cons c first ih =>
    rw [List.mem_cons, not_or] at h
    obtain ⟨f, more, hs, hcons⟩ := segments_cons c first (Ne.symm h.1)
    rw [ih h.2] at hs
    obtain ⟨rfl, rfl⟩ := List.cons.inj hs
    exact hcons

/-- Leading slashes only add empty segments. -/
theorem segments_any_dropWhile {p : Bytes} :
    (segments (p.dropWhile (· = 47))).any isRouteParameter = (segments p).any isRouteParameter := by
  induction p with
  | nil => rfl
  | cons c p ih =>
    by_cases hc : c = 47
    · subst hc
      rw [List.dropWhile_cons_of_pos (by simp), ih, segments_slash, List.any_cons]
      rfl
    · rw [List.dropWhile_cons_of_neg (by simp [hc])]

/-! ## A path a second time -/

/-- Neither a query nor a fragment starts here. -/
def isPathByte (c : UInt8) : Bool := c ≠ 63 ∧ c ≠ 35

/-- What is written for a raw path: its first segment, and whether anything stands around it. -/
def rawPath (slash : Bool) (first : Bytes) (more : Bool) : Bytes :=
  (if slash then ascii "/" else []) ++ (if isIdSegment first then ascii ":id" else first) ++
    (if more then ascii "/:path" else [])

/-- The first segment of a raw path. -/
structure IsFirst (first : Bytes) : Prop where
  nonempty : first ≠ []
  noSlash : 47 ∉ first
  path : first.all isPathByte = true
  notRoute : isRouteParameter first = false

theorem takeWhile_path {p : Bytes} (h : p.all isPathByte = true) :
    (p.takeWhile fun c => c ≠ 63 ∧ c ≠ 35) = p :=
  List.takeWhile_eq_self_iff.mpr fun c hc => List.all_eq_true.mp h c hc

theorem strictPath_template {p : Bytes} (hpath : p.all isPathByte = true)
    (hroute : (segments p).any isRouteParameter = true) : strictPath (some p) = p := by
  simp only [strictPath, Option.getD_some, takeWhile_path hpath, if_pos hroute]

/-- What a path is rewritten to: a template stays, and of a raw path its first segment is left. -/
theorem strictPath_cases (path : Bytes) :
    ((path.takeWhile isPathByte).all isPathByte = true ∧
      (segments (path.takeWhile isPathByte)).any isRouteParameter = true ∧
        strictPath (some path) = path.takeWhile isPathByte) ∨
    (path.takeWhile isPathByte).dropWhile (· = 47) = [] ∧ strictPath (some path) = ascii "/" ∨
    ∃ first rest,
      IsFirst first ∧ (segments (path.takeWhile isPathByte)).any isRouteParameter = false ∧
      (path.takeWhile isPathByte).dropWhile (· = 47) = first ++ rest ∧
      (rest = [] ∨ ∃ r, rest = 47 :: r) ∧
        strictPath (some path) = rawPath ((path.takeWhile isPathByte).head? = some 47) first
          (rest.dropWhile (· = 47) ≠ []) := by
  have hbyte : (fun c : UInt8 => decide (c ≠ 63 ∧ c ≠ 35)) = isPathByte := rfl
  have hall : (path.takeWhile isPathByte).all isPathByte = true := List.all_takeWhile
  simp only [strictPath, Option.getD_some, hbyte]
  generalize path.takeWhile isPathByte = p at hall ⊢
  by_cases hroute : (segments p).any isRouteParameter = true
  · exact .inl ⟨hall, hroute, if_pos hroute⟩
  rw [if_neg hroute]
  by_cases hnil : p.dropWhile (· = 47) = []
  · exact .inr (.inl ⟨hnil, if_pos hnil⟩)
  rw [if_neg hnil]
  have hnoRoute := hroute
  rw [Bool.not_eq_true] at hnoRoute
  rw [← segments_any_dropWhile] at hroute
  obtain ⟨c, q, hq⟩ := List.exists_cons_of_ne_nil hnil
  have hc : c ≠ 47 := by simpa using not_of_dropWhile hq
  have hmem : ∀ d ∈ c :: q, d ∈ p := fun d hd =>
    (List.dropWhile_suffix _).subset (hq ▸ hd)
  have hfirst : (c :: q).takeWhile (· ≠ 47) = c :: q.takeWhile (· ≠ 47) :=
    List.takeWhile_cons_of_pos (by simpa using hc)
  have hnoSlash : 47 ∉ (c :: q).takeWhile (· ≠ 47) := fun hmem47 => by
    simpa using List.mem_takeWhile_imp hmem47
  have hsplit : (c :: q).takeWhile (· ≠ 47) ++ (c :: q).dropWhile (· ≠ 47) = c :: q :=
    List.takeWhile_append_dropWhile
  have hrest : (c :: q).dropWhile (· ≠ 47) = [] ∨ ∃ r, (c :: q).dropWhile (· ≠ 47) = 47 :: r := by
    cases hdrop : (c :: q).dropWhile (· ≠ 47) with
    | nil => exact .inl rfl
    | cons d r =>
      have hd := not_of_dropWhile hdrop
      simp only [ne_eq, decide_not, Bool.not_eq_eq_eq_not, Bool.not_false, decide_eq_true_eq] at hd
      exact .inr ⟨r, by rw [hd]⟩
  rw [hq] at hroute ⊢
  refine .inr (.inr ⟨(c :: q).takeWhile (· ≠ 47), (c :: q).dropWhile (· ≠ 47),
    ⟨?_, hnoSlash, ?_, ?_⟩, hnoRoute, hsplit.symm, hrest, ?_⟩)
  · rw [hfirst]
    exact List.cons_ne_nil _ _
  · rw [List.all_eq_true]
    intro d hd
    exact List.all_eq_true.mp hall d (hmem d ((List.takeWhile_prefix _).subset hd))
  · rw [← hsplit] at hroute
    rcases hrest with hnone | ⟨r, hslash⟩
    · rw [hnone, List.append_nil, segments_single hnoSlash] at hroute
      simpa using hroute
    · rw [hslash, segments_append_slash hnoSlash, List.any_cons, Bool.or_eq_true, not_or] at hroute
      simpa using hroute.1
  · rw [drop_length_takeWhile, rawPath]
    simp

theorem rawPath_path {first : Bytes} (h : IsFirst first) (slash more : Bool) :
    (rawPath slash first more).all isPathByte = true := by
  have hmid : (if isIdSegment first then ascii ":id" else first).all isPathByte = true := by
    split
    · decide
    · exact h.path
  rw [rawPath, List.all_append, List.all_append, hmid]
  cases slash <;> cases more <;> decide

/-- What is left of a raw path is left alone. -/
theorem strictPath_rawPath {first : Bytes} (h : IsFirst first) (slash more : Bool) :
    strictPath (some (rawPath slash first more)) = rawPath slash first more := by
  by_cases hroute : (segments (rawPath slash first more)).any isRouteParameter = true
  · exact strictPath_template (rawPath_path h slash more) hroute
  have hid : isIdSegment first = false := by
    by_contra hid
    rw [Bool.not_eq_false] at hid
    apply hroute
    rw [rawPath, hid, if_pos rfl]
    cases slash <;> cases more <;> decide
  have hmore : more = false := by
    by_contra hmore
    rw [Bool.not_eq_false] at hmore
    apply hroute
    rw [rawPath, hid, hmore, if_neg Bool.false_ne_true, if_pos rfl]
    have hlast : segments (first ++ ascii "/:path") = [first, ascii ":path"] :=
      segments_append_slash h.noSlash (ascii ":path")
    have hpath : isRouteParameter (ascii ":path") = true := by decide
    cases slash with
    | true =>
      show (segments (47 :: (first ++ ascii "/:path"))).any isRouteParameter = true
      rw [segments_slash, hlast]
      simp [hpath]
    | false =>
      show (segments (first ++ ascii "/:path")).any isRouteParameter = true
      rw [hlast]
      simp [hpath]
  have hall := rawPath_path h slash more
  have hraw : rawPath slash first more = (if slash then ascii "/" else []) ++ first := by
    rw [rawPath, hid, hmore, if_neg Bool.false_ne_true, if_neg Bool.false_ne_true, List.append_nil]
  rw [hraw] at hall hroute ⊢
  obtain ⟨c, f, rfl⟩ := List.exists_cons_of_ne_nil h.nonempty
  have hc : c ≠ 47 := fun hc => h.noSlash (by simp [hc])
  have hfirst : (c :: f).takeWhile (· ≠ 47) = c :: f :=
    List.takeWhile_eq_self_iff.mpr fun d hd => decide_eq_true fun hslash => h.noSlash (hslash ▸ hd)
  have hstart : ((if slash then ascii "/" else []) ++ c :: f).dropWhile (· = 47) = c :: f := by
    cases slash with
    | true =>
      exact (List.dropWhile_cons_of_pos rfl).trans (List.dropWhile_cons_of_neg (by simpa using hc))
    | false => exact List.dropWhile_cons_of_neg (by simpa using hc)
  simp only [strictPath, Option.getD_some, takeWhile_path hall, if_neg hroute, hstart, hfirst, hid,
    List.drop_length, List.dropWhile_nil]
  cases slash with
  | true =>
    have hslash : ascii "/" = [47] := rfl
    simp [hslash]
  | false => simp [hc]

/-- A rewritten path is left alone. -/
theorem strictPath_twice (path : Bytes) :
    strictPath (some (strictPath (some path))) = strictPath (some path) := by
  rcases strictPath_cases path with ⟨hpath, hroute, heq⟩ | ⟨-, heq⟩ |
    ⟨first, rest, hfirst, -, -, -, heq⟩
  · rw [heq]
    exact strictPath_template hpath hroute
  · rw [heq]
    decide
  · rw [heq]
    exact strictPath_rawPath hfirst _ _

/-! ## Hosts -/

def isAuthorityByte (c : UInt8) : Bool := c ≠ 47 ∧ c ≠ 63 ∧ c ≠ 35

/-- What stands between the scheme and the path, without user and password. -/
def authorityOf (target : Bytes) : Bytes :=
  afterLastAt ((target.drop (schemeLength target)).takeWhile isAuthorityByte)

def portDigits (authority : Bytes) : Nat := (authority.reverse.takeWhile isDigit).length

def hasPort (authority : Bytes) : Bool :=
  portDigits authority > 0 ∧ authority.reverse[portDigits authority]? = some 58

def withoutPort (authority : Bytes) : Bytes :=
  if hasPort authority then authority.take (authority.length - (portDigits authority + 1))
  else authority

/-- A host that counts as one without a scheme or a port. -/
def namesHost (host : Bytes) : Bool :=
  host.contains 46 || equalsIgnoringCase host (ascii "localhost")

theorem hostOf_eq (target : Bytes) : hostOf target =
    if withoutPort (authorityOf target) = [] then none
    else if schemeLength target = 0 ∧ hasPort (authorityOf target) = false ∧
        namesHost (withoutPort (authorityOf target)) = false then none
    else some (withoutPort (authorityOf target)) := by
  have hauthority : afterLastAt ((target.drop (schemeLength target)).takeWhile
      fun c => c ≠ 47 ∧ c ≠ 63 ∧ c ≠ 35) = authorityOf target := rfl
  simp only [hostOf, hauthority]
  generalize authorityOf target = a
  have hport : (a.reverse.takeWhile isDigit).length > 0 ∧
      a.reverse[(a.reverse.takeWhile isDigit).length]? = some 58 ↔ hasPort a = true := by
    simp [hasPort, portDigits]
  have hhost : (if (a.reverse.takeWhile isDigit).length > 0 ∧
      a.reverse[(a.reverse.takeWhile isDigit).length]? = some 58 then
        a.take (a.length - ((a.reverse.takeWhile isDigit).length + 1)) else a) = withoutPort a := by
    simp only [hport]
    rfl
  simp only [hhost]
  simp only [hport, namesHost, Bool.or_eq_false_iff, Bool.not_eq_true]

/-- What a host is made of, and what it is not. -/
structure IsHost (host : Bytes) : Prop where
  nonempty : host ≠ []
  plain : ∀ c ∈ host, isAuthorityByte c = true ∧ c ≠ 64 ∧ isSpace c = false

theorem IsHost.noSlash {host : Bytes} (h : IsHost host) : 47 ∉ host := fun hmem =>
  absurd (h.plain 47 hmem).1 (by decide)

theorem IsHost.path {host : Bytes} (h : IsHost host) : host.all isPathByte = true := by
  rw [List.all_eq_true]
  intro c hc
  have := (h.plain c hc).1
  simp only [isAuthorityByte, decide_eq_true_eq] at this
  simpa [isPathByte] using this.2

theorem withoutPort_subset {a : Bytes} {c : UInt8} (h : c ∈ withoutPort a) : c ∈ a := by
  unfold withoutPort at h
  split at h
  · exact List.mem_of_mem_take h
  · exact h

/-- A host found in a target that is one word. -/
theorem isHost_of_hostOf {target host : Bytes} (hword : ∀ c ∈ target, isSpace c = false)
    (h : hostOf target = some host) : IsHost host := by
  rw [hostOf_eq] at h
  split at h
  · exact absurd h (by simp)
  rename_i hne
  split at h
  · exact absurd h (by simp)
  obtain rfl := Option.some.inj h
  refine ⟨hne, fun c hc => ?_⟩
  have hc := withoutPort_subset hc
  rw [authorityOf, afterLastAt, List.mem_reverse] at hc
  have hat := List.mem_takeWhile_imp hc
  have hc := List.mem_reverse.mp ((List.takeWhile_prefix _).subset hc)
  exact ⟨List.mem_takeWhile_imp hc, by simpa using hat,
    hword c (List.mem_of_mem_drop ((List.takeWhile_prefix _).subset hc))⟩

/-- The two slashes of a scheme. -/
theorem two_slashes_of_scheme {s : Bytes} (h : schemeLength s ≠ 0) : 2 ≤ s.count 47 := by
  unfold schemeLength at h
  split at h
  · exact absurd rfl h
  rename_i c rest
  split at h
  swap
  · exact absurd rfl h
  dsimp only at h
  split at h
  swap
  · exact absurd rfl h
  rename_i hstarts
  rw [List.isPrefixOf_iff_prefix] at hstarts
  have hslashes : (ascii "://").count 47 = 2 := by decide
  calc 2
    _ = (ascii "://").count 47 := hslashes.symm
    _ ≤ (rest.drop _).count 47 := hstarts.sublist.count_le 47
    _ ≤ rest.count 47 := (List.drop_sublist _ _).count_le 47
    _ ≤ (c :: rest).count 47 := (List.sublist_cons_self c rest).count_le 47

theorem schemeLength_of_noSlash {s : Bytes} (h : 47 ∉ s) : schemeLength s = 0 := by
  by_contra hscheme
  have := two_slashes_of_scheme hscheme
  rw [List.count_eq_zero_of_not_mem h] at this
  exact absurd this (by decide)

theorem afterLastAt_of_not_mem {s : Bytes} (h : 64 ∉ s) : afterLastAt s = s := by
  rw [afterLastAt, List.takeWhile_eq_self_iff.mpr, List.reverse_reverse]
  intro c hc
  rw [decide_eq_true_eq]
  rintro rfl
  exact h (List.mem_reverse.mp hc)

theorem IsHost.authorityOf_eq {host : Bytes} (h : IsHost host) : authorityOf host = host := by
  rw [authorityOf, schemeLength_of_noSlash h.noSlash, List.drop_zero,
    List.takeWhile_eq_self_iff.mpr fun c hc => (h.plain c hc).1]
  exact afterLastAt_of_not_mem fun hat => (h.plain 64 hat).2.1 rfl

/-! ## A host a second time -/

/-- A host that is sent as it is when it is read again: it does not seem to end in a port, and
either counts as a host by itself or is left alone as a path. -/
def settledHost (host : Bytes) : Bool :=
  if hasPort host then withoutPort host = []
  else namesHost host || isRouteParameter host || !isIdSegment host

theorem strictPath_host {host : Bytes} (h : IsHost host) : strictPath (some host) =
    if isRouteParameter host = false ∧ isIdSegment host = true then ascii ":id" else host := by
  have hsegments : segments host = [host] := segments_single h.noSlash
  obtain ⟨c, f, rfl⟩ := List.exists_cons_of_ne_nil h.nonempty
  have hc : c ≠ 47 := fun hc => h.noSlash (by simp [hc])
  have hfirst : (c :: f).takeWhile (· ≠ 47) = c :: f :=
    List.takeWhile_eq_self_iff.mpr fun d hd => decide_eq_true fun hslash => h.noSlash (hslash ▸ hd)
  have hstart : (c :: f).dropWhile (· = 47) = c :: f :=
    List.dropWhile_cons_of_neg (by simpa using hc)
  simp only [strictPath, Option.getD_some, takeWhile_path h.path, hsegments,
    List.any_cons, List.any_nil, hstart, hfirst, List.drop_length, List.dropWhile_nil]
  cases isRouteParameter (c :: f) <;> cases isIdSegment (c :: f) <;> simp [hc]

/-- A port with nothing in front of it looks like a route parameter. -/
theorem isRouteParameter_of_port {host : Bytes} (h : IsHost host) (hport : hasPort host = true)
    (hnil : withoutPort host = []) : isRouteParameter host = true := by
  rw [withoutPort, if_pos hport, List.take_eq_nil_iff] at hnil
  simp only [hasPort, Bool.decide_and, Bool.and_eq_true, decide_eq_true_eq] at hport
  obtain ⟨hpos, hcolon⟩ := hport
  have hlength : host.length = portDigits host + 1 := by
    have hlt := (List.getElem?_eq_some_iff.mp hcolon).1
    rw [List.length_reverse] at hlt
    rcases hnil with hnil | hnil
    · omega
    · exact absurd hnil h.nonempty
  rw [List.getElem?_reverse (by omega), hlength, Nat.add_sub_cancel, Nat.sub_self] at hcolon
  obtain ⟨c, ds, rfl⟩ := List.exists_cons_of_ne_nil h.nonempty
  obtain rfl : c = 58 := Option.some.inj hcolon
  have hnewline : noNewline ds = true := by
    rw [noNewline, List.all_eq_true]
    intro d hd
    rw [decide_eq_true_eq]
    rintro rfl
    exact absurd (h.plain 10 (List.mem_cons_of_mem 58 hd)).2.2 (by decide)
  rw [isRouteParameter, if_pos ⟨by omega, rfl⟩]
  exact hnewline

theorem host_again {host : Bytes} (h : IsHost host) :
    (hostOf host).getD (strictPath (some host)) = host ↔ settledHost host = true := by
  rw [hostOf_eq, h.authorityOf_eq, schemeLength_of_noSlash h.noSlash, settledHost]
  cases hport : hasPort host with
  | true =>
    by_cases hnil : withoutPort host = []
    · rw [if_pos hnil, Option.getD_none, strictPath_host h, isRouteParameter_of_port h hport hnil]
      simp [hnil]
    · have hshort : withoutPort host ≠ host := by
        intro hsame
        have := congrArg List.length hsame
        rw [withoutPort, if_pos hport, List.length_take] at this
        have hpos := List.length_pos_iff.mpr h.nonempty
        omega
      simp [hnil, hshort]
  | false =>
    have hsame : withoutPort host = host := by
      rw [withoutPort, hport]
      exact if_neg Bool.false_ne_true
    have hid : ascii ":id" = host → isIdSegment host = false := by
      rintro rfl
      decide
    rw [hsame, if_neg h.nonempty, strictPath_host h]
    cases namesHost host with
    | true => simp
    | false =>
      cases isRouteParameter host with
      | true => simp
      | false =>
        cases hseg : isIdSegment host with
        | true =>
          have hne : ascii ":id" ≠ host := fun heq => by
            rw [hid heq] at hseg
            exact absurd hseg (by decide)
          simp [hne]
        | false => simp

/-! ## A path without a host -/

def isSchemeByte (c : UInt8) : Bool := isAlpha c || isDigit c || c == 43 || c == 46 || c == 45

theorem schemeByte_ne {c d : UInt8} (hc : isSchemeByte c = true)
    (hd : isSchemeByte d = false) : c ≠ d := by
  rintro rfl
  rw [hc] at hd
  exact absurd hd (by decide)

theorem scheme_spec {target : Bytes} (h : schemeLength target ≠ 0) : ∃ name rest : Bytes,
    target = name ++ ascii "://" ++ rest ∧ schemeLength target = name.length + 3 ∧
      name.all isSchemeByte = true := by
  unfold schemeLength at h ⊢
  split at h
  · exact absurd rfl h
  rename_i c s
  split at h
  swap
  · exact absurd rfl h
  rename_i halpha
  dsimp only at h ⊢
  split at h
  swap
  · exact absurd rfl h
  rename_i hstarts
  rw [if_pos halpha, if_pos hstarts]
  rw [List.isPrefixOf_iff_prefix, drop_length_takeWhile] at hstarts
  obtain ⟨rest, hrest⟩ := hstarts
  refine ⟨c :: s.takeWhile isSchemeByte, rest, ?_, ?_, ?_⟩
  · rw [List.cons_append, List.cons_append, List.append_assoc, hrest]
    exact congrArg (c :: ·) List.takeWhile_append_dropWhile.symm
  · rw [List.length_cons, Nat.add_comm 1]
    rfl
  · rw [List.all_cons, List.all_takeWhile, isSchemeByte, halpha]
    rfl

/-- A query or a fragment is no part of a scheme. -/
theorem schemeLength_append {q : Bytes} (hq : ∀ c ∈ q.head?, isPathByte c = false) (p : Bytes) :
    schemeLength (p ++ q) = schemeLength p := by
  have hne : ∀ c ∈ q.head?, c = 63 ∨ c = 35 := by
    intro c hc
    have := hq c hc
    simp only [isPathByte, decide_eq_false_iff_not] at this
    by_contra hboth
    rw [not_or] at hboth
    exact this hboth
  cases p with
  | nil =>
    cases q with
    | nil => rfl
    | cons c q =>
      have hc : isAlpha c = false := by
        rcases hne c rfl with rfl | rfl
        · rfl
        · rfl
      show schemeLength (c :: q) = 0
      simp [schemeLength, hc]
  | cons c p =>
    have hrun : (p ++ q).takeWhile (fun d => isAlpha d || isDigit d || d == 43 || d ==
        46 || d == 45) = p.takeWhile (fun d => isAlpha d || isDigit d || d == 43 || d ==
        46 || d == 45) := by
      refine takeWhile_append_stop (fun d hd => ?_) p
      rcases hne d hd with rfl | rfl
      · rfl
      · rfl
    have hle := (List.takeWhile_prefix (l := p)
      (fun d => isAlpha d || isDigit d || d == 43 || d == 46 || d == 45)).length_le
    rw [List.cons_append]
    simp only [schemeLength, hrun, List.drop_append_of_le_length hle]
    generalize p.drop _ = r
    have hstarts : (ascii "://").isPrefixOf (r ++ q) = (ascii "://").isPrefixOf r := by
      cases q with
      | nil => rw [List.append_nil]
      | cons d q =>
        have hd : d ∉ ascii "://" := by
          rcases hne d rfl with rfl | rfl
          · decide
          · decide
        rw [Bool.eq_iff_iff, List.isPrefixOf_iff_prefix, List.isPrefixOf_iff_prefix]
        exact prefix_append_cons_iff hd
    rw [hstarts]

theorem schemeLength_le (target : Bytes) : schemeLength target ≤ target.length := by
  by_cases h : schemeLength target = 0
  · rw [h]
    exact Nat.zero_le _
  · obtain ⟨name, rest, heq, hlength, -⟩ := scheme_spec h
    have := congrArg List.length heq
    simp only [List.length_append, show (ascii "://").length = 3 from rfl] at this
    omega

theorem takeWhile_split {α : Type*} (f : α → Bool) (s : List α) : ∃ q, s = s.takeWhile f ++ q ∧
    ∀ c ∈ q.head?, f c = false := by
  refine ⟨s.dropWhile f, List.takeWhile_append_dropWhile.symm, fun c hc => ?_⟩
  cases hq : s.dropWhile f with
  | nil => simp [hq] at hc
  | cons d q =>
    rw [hq] at hc
    obtain rfl : d = c := Option.some.inj hc
    exact not_of_dropWhile hq

theorem head?_of_takeWhile {α : Type*} {f : α → Bool} {s p : List α} {c : α}
    (h : s.takeWhile f = c :: p) : s.head? = some c := by
  cases s with
  | nil => exact absurd h (by simp)
  | cons d s =>
    rw [List.takeWhile_cons] at h
    split at h
    · exact congrArg some (List.cons.inj h).1
    · exact absurd h (by simp)

/-- A query or a fragment has no part in the host. -/
theorem hostOf_path (target : Bytes) : hostOf (target.takeWhile isPathByte) = hostOf target := by
  obtain ⟨q, htarget, hq⟩ := takeWhile_split isPathByte target
  have hstop : ∀ c ∈ q.head?, isAuthorityByte c = false := by
    intro c hc
    have := hq c hc
    simp only [isPathByte, decide_eq_false_iff_not] at this
    simp only [isAuthorityByte, decide_eq_false_iff_not]
    exact fun h => this h.2
  generalize target.takeWhile isPathByte = p at htarget
  subst htarget
  have hauthority : authorityOf (p ++ q) = authorityOf p := by
    rw [authorityOf, authorityOf, schemeLength_append hq,
      List.drop_append_of_le_length (schemeLength_le p), takeWhile_append_stop hstop]
  rw [hostOf_eq, hostOf_eq, hauthority, schemeLength_append hq]

theorem IsFirst.authority {first : Bytes} (h : IsFirst first) {c : UInt8} (hc : c ∈ first) :
    isAuthorityByte c = true := by
  have hpath := List.all_eq_true.mp h.path c hc
  have hslash : c ≠ 47 := fun hslash => h.noSlash (hslash ▸ hc)
  simp only [isPathByte, decide_eq_true_eq] at hpath
  simp only [isAuthorityByte, decide_eq_true_eq]
  exact ⟨hslash, hpath⟩

/-- The host that a second reading finds in the first segment of a path. -/
theorem hostOf_first {first : Bytes} (h : IsFirst first) (more : Bool) :
    hostOf (first ++ if more then ascii "/:path" else []) =
      if withoutPort (afterLastAt first) = [] then none
      else if hasPort (afterLastAt first) = false ∧ namesHost (withoutPort (afterLastAt first)) =
        false then none
      else some (withoutPort (afterLastAt first)) := by
  have hscheme : schemeLength (first ++ if more then ascii "/:path" else []) = 0 := by
    by_contra hscheme
    have htwo := two_slashes_of_scheme hscheme
    rw [List.count_append, List.count_eq_zero_of_not_mem h.noSlash] at htwo
    cases more with
    | true => exact absurd htwo (by decide)
    | false => exact absurd htwo (by decide)
  have hstop : ∀ c ∈ (if more then ascii "/:path" else []).head?, isAuthorityByte c = false := by
    intro c hc
    cases more with
    | true =>
      obtain rfl : 47 = c := Option.some.inj hc
      rfl
    | false => exact absurd hc (by simp)
  have hauthority : authorityOf (first ++ if more then ascii "/:path" else []) =
      afterLastAt first := by
    rw [authorityOf, hscheme, List.drop_zero, takeWhile_append_stop hstop,
      List.takeWhile_eq_self_iff.mpr fun c hc => h.authority hc]
  rw [hostOf_eq, hauthority, hscheme]
  simp only [true_and]

/-- A path that is sent as it is when it is read again: what stands behind a scheme with a dot
has not been cut off. -/
def settledPath (target : Bytes) : Bool :=
  let scheme := target.take (schemeLength target - 3)
  let path := target.takeWhile isPathByte
  !scheme.contains 46 || isIdSegment (scheme ++ [58]) || (segments path).any isRouteParameter ||
    (path.drop (scheme.length + 1)).all (· = 47)

/-- The first segment of a path that starts with a scheme is the scheme and its colon. -/
theorem first_of_scheme {target first rest : Bytes} (h : schemeLength target ≠ 0)
    (hsplit : target.takeWhile isPathByte = first ++ rest) (hfirst : 47 ∉ first)
    (hrest : rest = [] ∨ ∃ r, rest = 47 :: r) :
    first = target.take (schemeLength target - 3) ++ [58] ∧
      (target.take (schemeLength target - 3)).all isSchemeByte = true := by
  obtain ⟨name, t, htarget, hlength, hname⟩ := scheme_spec h
  have htake : target.take (schemeLength target - 3) = name := by
    rw [hlength, Nat.add_sub_cancel, htarget, List.append_assoc, List.take_left]
  rw [htake]
  refine ⟨?_, hname⟩
  have hne : ∀ (d : UInt8), isSchemeByte d = false → d ∉ name := fun d hd hmem =>
    schemeByte_ne (List.all_eq_true.mp hname d hmem) hd rfl
  have hpath : (name ++ ascii "://").all isPathByte = true := by
    rw [List.all_append, Bool.and_eq_true]
    refine ⟨?_, by decide⟩
    rw [List.all_eq_true]
    intro c hc
    rw [isPathByte, decide_eq_true_eq]
    exact ⟨fun h => hne 63 (by decide) (h ▸ hc), fun h => hne 35 (by decide) (h ▸ hc)⟩
  have hslashes : ascii "://" = 58 :: 47 :: [47] := rfl
  -- both sides are what stands before the first slash
  have hleft : (target.takeWhile isPathByte).takeWhile (· ≠ 47) = first := by
    have hall : first.takeWhile (· ≠ 47) = first :=
      List.takeWhile_eq_self_iff.mpr fun d hd => decide_eq_true fun hslash => hfirst (hslash ▸ hd)
    rw [hsplit, takeWhile_append_stop, hall]
    rcases hrest with rfl | ⟨r, rfl⟩
    · simp
    · simp
  have hright : (target.takeWhile isPathByte).takeWhile (· ≠ 47) = name ++ [58] := by
    have hall : (name ++ [58]).takeWhile (· ≠ 47) = name ++ [58] := by
      refine List.takeWhile_eq_self_iff.mpr fun d hd => decide_eq_true ?_
      rintro rfl
      rcases List.mem_append.mp hd with hd | hd
      · exact hne 47 (by decide) hd
      · exact absurd hd (by decide)
    rw [htarget, List.takeWhile_append_of_pos fun c hc => List.all_eq_true.mp hpath c hc, hslashes,
      show name ++ 58 :: 47 :: [47] = (name ++ [58]) ++ 47 :: [47] by simp, List.append_assoc,
      takeWhile_append_stop (by simp), hall]
  rw [← hleft, hright]

/-- A scheme counts as a host when it has a dot. -/
theorem hostOf_scheme {name : Bytes} (hname : name.all isSchemeByte = true)
    (h : IsFirst (name ++ [58])) (more : Bool) :
    hostOf ((name ++ [58]) ++ if more then ascii "/:path" else []) =
      if name.contains 46 then some (name ++ [58]) else none := by
  have hat : 64 ∉ name ++ [58] := by
    intro hmem
    rcases List.mem_append.mp hmem with hmem | hmem
    · exact schemeByte_ne (List.all_eq_true.mp hname 64 hmem) (d := 64) (by decide) rfl
    · exact absurd hmem (by decide)
  have hport : hasPort (name ++ [58]) = false := by
    have hdigits : portDigits (name ++ [58]) = 0 := by
      rw [portDigits, List.reverse_append]
      rfl
    rw [hasPort, hdigits]
    rfl
  have hhost : withoutPort (name ++ [58]) = name ++ [58] := by
    rw [withoutPort, hport]
    exact if_neg Bool.false_ne_true
  have hlocal : equalsIgnoringCase (name ++ [58]) (ascii "localhost") = false := by
    rw [equalsIgnoringCase, beq_eq_false_iff_ne]
    intro hsame
    have hlast := congrArg List.getLast? hsame
    rw [List.map_append, List.map_singleton, List.getLast?_append] at hlast
    have hsame : some (58 : UInt8) = some 116 := hlast
    exact absurd hsame (by decide)
  have hnames : namesHost (name ++ [58]) = name.contains 46 := by
    rw [namesHost, hlocal, Bool.or_false, Bool.eq_iff_iff, List.contains_iff_mem,
      List.contains_iff_mem]
    simp
  rw [hostOf_first h, afterLastAt_of_not_mem hat, hhost, hport, hnames, if_neg (by simp)]
  cases name.contains 46 <;> simp

theorem path_again {target : Bytes} (hhead : target.head? ≠ some 47)
    (hnone : hostOf target = none) :
    ((if (strictPath (some target)).head? = some 47 then none
      else hostOf (strictPath (some target))).getD (strictPath (some (strictPath (some target))))) =
        strictPath (some target) ↔ settledPath target = true := by
  rw [strictPath_twice]
  have hkept : ∀ host : Option Bytes, host = none → host.getD (strictPath (some target)) =
      strictPath (some target) := by
    rintro _ rfl
    rfl
  rcases strictPath_cases target with ⟨-, hroute, heq⟩ | ⟨hnil, heq⟩ |
    ⟨first, rest, hfirst, hroute, hsplit, hrest, heq⟩
  · -- a template
    have hsettled : settledPath target = true := by
      rw [settledPath]
      simp only [hroute, Bool.or_true, Bool.true_or]
    refine iff_of_true (hkept _ ?_) hsettled
    rw [heq, hostOf_path, hnone, ite_self]
  · -- nothing but slashes, so nothing at all
    have hempty : target.takeWhile isPathByte = [] := by
      cases hp : target.takeWhile isPathByte with
      | nil => rfl
      | cons c p =>
        rw [hp] at hnil
        have hc := List.dropWhile_eq_nil_iff.mp hnil c List.mem_cons_self
        exfalso
        apply hhead
        rw [head?_of_takeWhile hp, of_decide_eq_true hc]
    have hsettled : settledPath target = true := by
      rw [settledPath]
      simp only [hempty, List.drop_nil, List.all_nil, Bool.or_true]
    rw [heq]
    exact iff_of_true (by decide) hsettled
  · have hslash : (target.takeWhile isPathByte).dropWhile (· = 47) = target.takeWhile isPathByte ∧
        (target.takeWhile isPathByte).head? ≠ some 47 := by
      cases hp : target.takeWhile isPathByte with
      | nil => exact ⟨rfl, by simp⟩
      | cons c p =>
        have hc : c ≠ 47 := by
          rintro rfl
          exact hhead (head?_of_takeWhile hp)
        exact ⟨List.dropWhile_cons_of_neg (by simpa using hc), by simpa using hc⟩
    rw [hslash.1] at hsplit
    have hraw : strictPath (some target) = rawPath false first (rest.dropWhile (· = 47) ≠ []) := by
      rw [heq, decide_eq_false hslash.2]
    generalize hmore : decide (rest.dropWhile (· = 47) ≠ []) = more at hraw
    have hfirstHead : (first ++ if more then ascii "/:path" else []).head? ≠ some 47 := by
      obtain ⟨c, f, rfl⟩ := List.exists_cons_of_ne_nil hfirst.nonempty
      intro hc
      exact hfirst.noSlash (by simpa using Or.inl (Option.some.inj hc).symm)
    cases hid : isIdSegment first with
    | true =>
      have hsettled : settledPath target = true := by
        by_cases hs : schemeLength target = 0
        · simp [settledPath, hs]
        · obtain ⟨hname, -⟩ := first_of_scheme hs hsplit hfirst.noSlash hrest
          simp [settledPath, ← hname, hid]
      refine iff_of_true (hkept _ ?_) hsettled
      rw [hraw, rawPath, hid, if_pos rfl, if_neg Bool.false_ne_true]
      cases more <;> decide
    | false =>
      have hX : strictPath (some target) = first ++ if more then ascii "/:path" else [] := by
        rw [hraw, rawPath, hid, if_neg Bool.false_ne_true, if_neg Bool.false_ne_true,
          List.nil_append]
      by_cases hs : schemeLength target = 0
      · -- the host was looked for in the same segment
        have hsettled : settledPath target = true := by simp [settledPath, hs]
        refine iff_of_true (hkept _ ?_) hsettled
        have hauthority : authorityOf target = afterLastAt first := by
          obtain ⟨q, htarget, hq⟩ := takeWhile_split isPathByte target
          have hstop : ∀ c ∈ (rest ++ q).head?, isAuthorityByte c = false := by
            intro c hc
            rcases hrest with rfl | ⟨r, rfl⟩
            · have hpath := hq c hc
              simp only [isPathByte, decide_eq_false_iff_not] at hpath
              simp only [isAuthorityByte, decide_eq_false_iff_not]
              exact fun h => hpath h.2
            · obtain rfl : 47 = c := Option.some.inj hc
              rfl
          rw [authorityOf, hs, List.drop_zero, htarget, hsplit, List.append_assoc,
            takeWhile_append_stop hstop,
            List.takeWhile_eq_self_iff.mpr fun c hc => hfirst.authority hc]
        rw [hX, if_neg hfirstHead, hostOf_first hfirst, ← hauthority]
        rw [hostOf_eq, hs] at hnone
        simpa using hnone
      · obtain ⟨hname, hbytes⟩ := first_of_scheme hs hsplit hfirst.noSlash hrest
        have hlength : (target.take (schemeLength target - 3)).length + 1 = first.length := by
          rw [hname, List.length_append]
          rfl
        have hsettled : settledPath target =
            (!(target.take (schemeLength target - 3)).contains 46 || !more) := by
          have hdrop : (target.takeWhile isPathByte).drop first.length = rest := by
            rw [hsplit, List.drop_left]
          have hslashes : rest.all (· = 47) = !more := by
            rw [← hmore, Bool.eq_iff_iff, List.all_eq_true]
            simp [List.dropWhile_eq_nil_iff]
          simp only [settledPath, hlength, hdrop, hroute, ← hname, hid, hslashes, Bool.or_false]
        have hhost := hostOf_scheme hbytes (hname ▸ hfirst) more
        rw [← hname] at hhost
        rw [hX, if_neg hfirstHead, hhost, hsettled]
        cases (target.take (schemeLength target - 3)).contains 46 with
        | false => simp
        | true =>
          have hne : ascii "/:path" ≠ [] := by decide
          cases more <;> simp [hne]

/-! ## Names -/

/-- A text that a name can have as its target. -/
structure IsTarget (s : Bytes) : Prop where
  nonempty : s ≠ []
  noSpace : ∀ c ∈ s, isSpace c = false

theorem noSpace_of_all {s : Bytes} (h : (s.all fun c => !isSpace c) = true) :
    ∀ c ∈ s, isSpace c = false :=
  fun c hc => by simpa using List.all_eq_true.mp h c hc

theorem strictPath_target {target : Bytes} (h : IsTarget target) :
    IsTarget (strictPath (some target)) := by
  have hsub : ∀ c ∈ target.takeWhile isPathByte, isSpace c = false := fun c hc =>
    h.noSpace c ((List.takeWhile_prefix _).subset hc)
  rcases strictPath_cases target with ⟨-, hroute, heq⟩ | ⟨-, heq⟩ |
    ⟨first, rest, hfirst, -, hsplit, -, heq⟩
  · rw [heq]
    refine ⟨fun hnil => ?_, hsub⟩
    rw [hnil] at hroute
    exact absurd hroute (by decide)
  · rw [heq]
    exact ⟨List.cons_ne_nil _ _, noSpace_of_all rfl⟩
  · rw [heq]
    generalize decide ((target.takeWhile isPathByte).head? = some 47) = slash
    generalize decide (rest.dropWhile (· = 47) ≠ []) = more
    have hmid : ∀ c ∈ (if isIdSegment first then ascii ":id" else first), isSpace c = false := by
      split
      · exact noSpace_of_all rfl
      · intro c hc
        refine hsub c ((List.dropWhile_suffix (· = 47)).subset ?_)
        rw [hsplit]
        exact List.mem_append_left rest hc
    have hne : (if isIdSegment first then ascii ":id" else first) ≠ [] := by
      split
      · decide
      · exact hfirst.nonempty
    have hpre : ∀ c ∈ (if slash then ascii "/" else []), isSpace c = false :=
      noSpace_of_all (by cases slash <;> rfl)
    have hpost : ∀ c ∈ (if more then ascii "/:path" else []), isSpace c = false :=
      noSpace_of_all (by cases more <;> rfl)
    refine ⟨by simp [rawPath, hne], fun c hc => ?_⟩
    rw [rawPath, List.mem_append, List.mem_append] at hc
    rcases hc with (hc | hc) | hc
    · exact hpre c hc
    · exact hmid c hc
    · exact hpost c hc

theorem leadingMethod_call {method : Bytes} (h : method ∈ httpMethods) (x : Bytes) :
    leadingMethod (method ++ 32 :: x) = some method := by
  simp only [httpMethods, List.mem_cons, List.not_mem_nil, or_false] at h
  rcases h with rfl | rfl | rfl | rfl | rfl | rfl | rfl
  · rfl
  · rfl
  · rfl
  · rfl
  · rfl
  · rfl
  · rfl

/-- The target behind the method of a name, as far as the next space. -/
def targetOf (name method : Bytes) : Bytes :=
  ((name.drop method.length).dropWhile isSpace).takeWhile fun c => ¬ isSpace c

theorem targetOf_call (method : Bytes) {x : Bytes} (h : IsTarget x) :
    targetOf (method ++ 32 :: x) method = x := by
  obtain ⟨c, s, rfl⟩ := List.exists_cons_of_ne_nil h.nonempty
  have hc : isSpace c = false := h.noSpace c List.mem_cons_self
  rw [targetOf, List.drop_left, List.dropWhile_cons_of_pos (by rfl),
    List.dropWhile_cons_of_neg (by simp [hc])]
  exact List.takeWhile_eq_self_iff.mpr fun d hd => by simp [h.noSpace d hd]

theorem isTarget_targetOf {name method : Bytes} (h : targetOf name method ≠ []) :
    IsTarget (targetOf name method) :=
  ⟨h, fun c hc => by simpa using List.mem_takeWhile_imp hc⟩

/-- What is written for an outbound call. -/
def callName (method target : Bytes) : Bytes :=
  method ++ 32 :: (if target.head? = some 47 then none else hostOf target).getD
    (strictPath (some target))

theorem spanName_call {name method : Bytes} (hhead : name.head? ≠ some 47)
    (hmethod : leadingMethod name = some method) (htarget : targetOf name method ≠ []) :
    spanName name = callName method (targetOf name method) := by
  have htargetOf : ((name.drop method.length).dropWhile isSpace).takeWhile (fun c => ¬ isSpace c) =
      targetOf name method := rfl
  simp only [spanName, if_neg hhead, hmethod, htargetOf, if_neg htarget, callName]
  rw [List.append_assoc]
  rfl

/-- The target of a rewritten call. -/
theorem isTarget_call {target : Bytes} (h : IsTarget target) :
    IsTarget ((if target.head? = some 47 then none else hostOf target).getD
      (strictPath (some target))) := by
  cases hhost : (if target.head? = some 47 then none else hostOf target) with
  | none => exact strictPath_target h
  | some host =>
    split at hhost
    · exact absurd hhost (by simp)
    · have := isHost_of_hostOf h.noSpace hhost
      exact ⟨this.nonempty, fun c hc => (this.plain c hc).2.2⟩

/-- A name that the rule rewrites to one that it leaves alone. -/
def settledName (name : Bytes) : Bool :=
  if name.head? = some 47 then true
  else
    match leadingMethod name with
    | none => true
    | some method =>
      let target := targetOf name method
      if target = [] ∨ target.head? = some 47 then true
      else
        match hostOf target with
        | some host => settledHost host
        | none => settledPath target

theorem method_head {method : Bytes} (h : method ∈ httpMethods) (x : Bytes) :
    (method ++ x).head? ≠ some 47 := by
  have hall : ∀ m ∈ httpMethods, m ≠ [] ∧ m.head? ≠ some 47 := by decide
  obtain ⟨hne, hhead⟩ := hall method h
  rwa [List.head?_append_of_ne_nil _ hne]

theorem strictPath_slash {path : Bytes} (h : path.head? = some 47) :
    (strictPath (some path)).head? = some 47 := by
  obtain ⟨c, s, rfl⟩ := List.exists_cons_of_ne_nil (fun hnil : path = [] => by simp [hnil] at h)
  obtain rfl : c = 47 := Option.some.inj h
  have hpath : ((47 :: s).takeWhile isPathByte).head? = some 47 := rfl
  rcases strictPath_cases (47 :: s) with ⟨-, -, heq⟩ | ⟨-, heq⟩ | ⟨first, rest, -, -, -, -, heq⟩
  · rw [heq, hpath]
  · rw [heq]
    rfl
  · rw [heq, hpath, decide_eq_true rfl]
    rfl

/-- A second time, the target of a call is what it was if and only if it is settled. -/
theorem target_again {target : Bytes} (h : IsTarget target) (hhead : target.head? ≠ some 47) :
    (let x := (if target.head? = some 47 then none else hostOf target).getD
        (strictPath (some target))
     (if x.head? = some 47 then none else hostOf x).getD (strictPath (some x)) = x) ↔
      (match hostOf target with
        | some host => settledHost host
        | none => settledPath target) = true := by
  rw [if_neg hhead]
  cases hhost : hostOf target with
  | none => exact path_again hhead hhost
  | some host =>
    have hplain := isHost_of_hostOf h.noSpace hhost
    have hslash : host.head? ≠ some 47 := fun hc => hplain.noSlash (List.mem_of_mem_head? hc)
    simp only [Option.getD_some, if_neg hslash]
    exact host_again hplain

/-- The rule for span names leaves a name alone that it has rewritten if and only if the name is
settled. -/
theorem spanName_again (name : Bytes) :
    spanName (spanName name) = spanName name ↔ settledName name = true := by
  by_cases hhead : name.head? = some 47
  · have hspan : spanName name = strictPath (some name) := if_pos hhead
    have hagain : spanName (strictPath (some name)) = strictPath (some (strictPath (some name))) :=
      if_pos (strictPath_slash hhead)
    rw [hspan, hagain, settledName, if_pos hhead]
    exact iff_of_true (strictPath_twice name) rfl
  rw [settledName, if_neg hhead]
  cases hmethod : leadingMethod name with
  | none =>
    have hspan : spanName name = name := by simp only [spanName, if_neg hhead, hmethod]
    exact iff_of_true (by rw [hspan, hspan]) rfl
  | some method =>
    have hmem : method ∈ httpMethods := List.mem_of_find?_eq_some hmethod
    dsimp only
    by_cases htarget : targetOf name method = []
    · have hspan : spanName name = name := by
        have htargetOf : ((name.drop method.length).dropWhile isSpace).takeWhile
            (fun c => ¬ isSpace c) = [] :=
          htarget
        simp only [spanName, if_neg hhead, hmethod, htargetOf, if_true]
      simp only [htarget, true_or, if_true]
      exact iff_of_true (by rw [hspan, hspan]) trivial
    have hcall := spanName_call hhead hmethod htarget
    have hword := isTarget_targetOf htarget
    generalize targetOf name method = target at htarget hcall hword ⊢
    have hx := isTarget_call hword
    have hagain : spanName (callName method target) =
        callName method ((if target.head? = some 47 then none else hostOf target).getD
          (strictPath (some target))) := by
      have htargetX := targetOf_call method hx
      rw [callName] at *
      rw [spanName_call (method_head hmem _) (leadingMethod_call hmem _)
        (by rw [htargetX]; exact hx.nonempty), htargetX]
    rw [hcall, hagain]
    by_cases hslash : target.head? = some 47
    · simp only [hslash, or_true, if_true]
      refine iff_of_true ?_ trivial
      rw [callName, callName, if_pos hslash, Option.getD_none, if_pos (strictPath_slash hslash),
        Option.getD_none, strictPath_twice]
    · have hsettled := target_again hword hslash
      have hcancel : ∀ x y : Bytes, method ++ 32 :: x = method ++ 32 :: y ↔ x = y := by simp
      simp only [htarget, hslash, or_self, if_false]
      rw [← hsettled, callName, callName, hcancel, if_neg hslash]

theorem transactionName_eq (name : Bytes) : transactionName name = spanName name := by
  cases name with
  | nil => rfl
  | cons c s => exact if_neg (List.cons_ne_nil c s)

/-- A name sent under strict privacy is the one the server stores when it applies the same rule,
for a span or for a transaction, if and only if the name is settled. -/
theorem names_twice (name : Bytes) :
    (spanName (spanName name) = spanName name ↔ settledName name = true) ∧
      (transactionName (transactionName name) = transactionName name ↔
        settledName name = true) := by
  refine ⟨spanName_again name, ?_⟩
  rw [transactionName_eq, transactionName_eq]
  exact spanName_again name

/-- Without its scheme a host that has a digit and no dot is taken for an id. -/
theorem bare_host_becomes_id :
    spanName (ascii "GET http://web1/patients") = ascii "GET web1" ∧
      spanName (ascii "GET web1") = ascii "GET :id" ∧
      transactionName (transactionName (ascii "GET http://web1/patients")) = ascii "GET :id" := by
  decide

end ForgeOps.StrictPrivacy
