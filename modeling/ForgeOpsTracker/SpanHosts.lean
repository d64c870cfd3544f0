import ForgeOpsTracker.SpanNameAgain

/-! Of the name of an outbound call to an address with a scheme strict privacy leaves the method and
the host. -/

namespace ForgeOps.StrictPrivacy

/-- The name of an outbound call: a method in any case, and an address cut into its parts. -/
structure OutboundCall where
  method : Bytes
  written : Bytes
  gap : Bytes
  scheme : Bytes
  userinfo : Option Bytes
  host : Bytes
  port : Bytes
  suffix : Bytes
  method_known : method ∈ httpMethods
  written_method : equalsIgnoringCase written method = true
  gap_ne : gap ≠ []
  gap_space : ∀ c ∈ gap, isSpace c = true
  scheme_letter : ∃ c ∈ scheme.head?, isAlpha c = true
  scheme_bytes : ∀ c ∈ scheme, isSchemeByte c = true
  userinfo_plain : ∀ user ∈ userinfo, ∀ c ∈ user, isAuthorityByte c = true ∧ isSpace c = false
  host_plain : IsHost host
  host_end : ∀ s digits, host = s ++ 58 :: digits → (∀ c ∈ digits, isDigit c = true) → digits = []
  port_digits : port = [] ∨ ∃ digits, port = 58 :: digits ∧ digits ≠ [] ∧
    ∀ c ∈ digits, isDigit c = true
  suffix_start : ∀ c ∈ suffix.head?, c = 47 ∨ c = 63 ∨ c = 35 ∨ isSpace c = true

namespace OutboundCall

variable (call : OutboundCall)

/-- `userinfo@` -/
def user : Bytes := (call.userinfo.map fun user => user ++ [64]).getD []

def authority : Bytes := call.user ++ (call.host ++ call.port)

def name : Bytes :=
  call.written ++ call.gap ++ call.scheme ++ ascii "://" ++ call.user ++ call.host ++
    call.port ++ call.suffix

/-- The address up to the first white space. -/
def target : Bytes :=
  call.scheme ++ (ascii "://" ++ (call.authority ++ call.suffix.takeWhile fun c => ¬ isSpace c))

/-! ## The method -/

theorem written_length : call.written.length = call.method.length := by
  have h := congrArg List.length (beq_iff_eq.mp call.written_method)
  simpa using h

end OutboundCall

theorem isSpace_cases {c : UInt8} (h : isSpace c = true) :
    c.toNat = 32 ∨ 9 ≤ c.toNat ∧ c.toNat ≤ 13 := by
  simpa [isSpace, Byte.isSpace, UInt8.le_iff_toNat_le, ← UInt8.toNat_inj] using h

theorem not_lower_of_isSpace {c : UInt8} (h : isSpace c = true) :
    Byte.isLower (Byte.toLower c) = false := by
  have hcases := isSpace_cases h
  have hupper : Byte.isUpper c = false := by
    simp only [Byte.isUpper, Bool.and_eq_false_iff, decide_eq_false_iff_not, UInt8.le_iff_toNat_le,
      UInt8.reduceToNat]
    omega
  rw [Byte.toLower, hupper, if_neg Bool.false_ne_true]
  simp only [Byte.isLower, Bool.and_eq_false_iff, decide_eq_false_iff_not, UInt8.le_iff_toNat_le,
    UInt8.reduceToNat]
  omega

/-- A method is all letters, in any case. -/
theorem lower_of_method {written method : Bytes} (hmethod : method ∈ httpMethods)
    (h : equalsIgnoringCase written method = true) {c : UInt8} (hc : c ∈ written) :
    Byte.isLower (Byte.toLower c) = true := by
  have hletters : httpMethods.all (fun m => m.all fun c => Byte.isLower (Byte.toLower c)) =
      true := by decide
  have hmem : Byte.toLower c ∈ method.map Byte.toLower := by
    rw [← beq_iff_eq.mp h]
    exact List.mem_map_of_mem hc
  obtain ⟨d, hd, heq⟩ := List.mem_map.mp hmem
  rw [← heq]
  exact List.all_eq_true.mp (List.all_eq_true.mp hletters method hmethod) d hd

theorem not_isSpace_of_method {written method : Bytes} (hmethod : method ∈ httpMethods)
    (h : equalsIgnoringCase written method = true) {c : UInt8} (hc : c ∈ written) :
    isSpace c = false := by
  by_contra hspace
  have hlower := lower_of_method hmethod h hc
  rw [not_lower_of_isSpace (by simpa using hspace)] at hlower
  exact absurd hlower Bool.false_ne_true

theorem schemeByte_not_space {c : UInt8} (h : isSchemeByte c = true) : isSpace c = false := by
  by_contra hspace
  have hcases := isSpace_cases (by simpa using hspace)
  simp only [isSchemeByte, isAlpha, isDigit, Byte.isAlpha, Byte.isUpper, Byte.isLower, Byte.isDigit,
    Bool.or_eq_true, Bool.and_eq_true, decide_eq_true_eq, beq_iff_eq, UInt8.le_iff_toNat_le,
    ← UInt8.toNat_inj, UInt8.reduceToNat] at h
  omega

theorem isDigit_plain {c : UInt8} (h : isDigit c = true) :
    isAuthorityByte c = true ∧ isSpace c = false := by
  have hrange : 48 ≤ c.toNat ∧ c.toNat ≤ 57 := by
    simpa [isDigit, Byte.isDigit, UInt8.le_iff_toNat_le] using h
  constructor
  · simp only [isAuthorityByte, ne_eq, decide_eq_true_eq, ← UInt8.toNat_inj, UInt8.reduceToNat]
    omega
  · by_contra hspace
    have hcases := isSpace_cases (by simpa using hspace)
    omega

/-- A method that is found in front of a name is all that stands before the first white space. -/
theorem takeWhile_of_method {name method : Bytes} (hmethod : method ∈ httpMethods)
    (h : equalsIgnoringCase (name.take method.length) method = true)
    (hspace : (name[method.length]?.map isSpace).getD false = true) :
    name.takeWhile (fun c => ¬ isSpace c) = name.take method.length := by
  have hstop : ∀ c ∈ (name.drop method.length).head?, decide (¬ isSpace c = true) = false := by
    intro c hc
    rw [List.head?_drop] at hc
    rw [hc] at hspace
    simpa using hspace
  have hword : ∀ c ∈ name.take method.length, decide (¬ isSpace c = true) = true := fun c hc => by
    simp [not_isSpace_of_method hmethod h hc]
  have hsplit := takeWhile_append_stop hstop (name.take method.length)
  rwa [List.take_append_drop, List.takeWhile_eq_self_iff.mpr hword] at hsplit

theorem find?_of_unique {α : Type*} {p : α → Bool} {l : List α} {a : α} (ha : a ∈ l)
    (hp : p a = true) (h : ∀ b ∈ l, p b = true → b = a) : l.find? p = some a := by
  obtain ⟨b, hb⟩ := Option.isSome_iff_exists.mp (List.find?_isSome.mpr ⟨a, ha, hp⟩)
  rw [hb, h b (List.mem_of_find?_eq_some hb) (List.find?_some hb)]

namespace OutboundCall

variable (call : OutboundCall)

theorem leadingMethod_name : leadingMethod call.name = some call.method := by
  obtain ⟨g, gap, hgap⟩ := List.exists_cons_of_ne_nil call.gap_ne
  obtain ⟨rest, hname⟩ : ∃ rest, call.name = call.written ++ g :: rest := by
    refine ⟨gap ++ call.scheme ++ ascii "://" ++ call.user ++ call.host ++ call.port ++
      call.suffix, ?_⟩
    simp [name, hgap]
  have hg : isSpace g = true := call.gap_space g (by simp [hgap])
  have htake : call.name.take call.method.length = call.written := by
    rw [hname, ← call.written_length, List.take_left]
  have hwritten : equalsIgnoringCase (call.name.take call.method.length) call.method = true := by
    rw [htake]
    exact call.written_method
  have hspace : (call.name[call.method.length]?.map isSpace).getD false = true := by
    rw [hname, ← call.written_length]
    simp [hg]
  apply find?_of_unique call.method_known
  · rw [hwritten, hspace]
    rfl
  · intro m hm hfound
    rw [Bool.and_eq_true] at hfound
    have hsame : call.name.take m.length = call.written := by
      rw [← takeWhile_of_method hm hfound.1 hfound.2,
        takeWhile_of_method call.method_known hwritten hspace, htake]
    rw [hsame] at hfound
    have hlower : m.map Byte.toLower = call.method.map Byte.toLower :=
      (beq_iff_eq.mp hfound.1).symm.trans (beq_iff_eq.mp call.written_method)
    have hdistinct : ∀ m ∈ httpMethods, ∀ m' ∈ httpMethods, m.map Byte.toLower =
        m'.map Byte.toLower → m = m' := by
      decide
    exact hdistinct m hm call.method call.method_known hlower

/-! ## The address -/

theorem name_head : call.name.head? ≠ some 47 := by
  intro h
  have hne : call.written ≠ [] := by
    have hmethods : ∀ m ∈ httpMethods, m ≠ [] := by decide
    rw [← List.length_pos_iff, call.written_length]
    exact List.length_pos_iff.mpr (hmethods call.method call.method_known)
  obtain ⟨c, w, hw⟩ := List.exists_cons_of_ne_nil hne
  have hc : c = 47 := by simpa [name, hw] using h
  have hlower := lower_of_method call.method_known call.written_method (c := c) (by simp [hw])
  rw [hc] at hlower
  exact absurd hlower (by decide)

theorem authority_not_space {c : UInt8} (h : c ∈ call.authority) :
    isAuthorityByte c = true ∧ isSpace c = false := by
  rcases List.mem_append.mp h with huser | hrest
  · cases huserinfo : call.userinfo with
    | none => simp [user, huserinfo] at huser
    | some u =>
      rw [user, huserinfo] at huser
      rcases List.mem_append.mp huser with hu | hat
      · exact call.userinfo_plain u huserinfo c hu
      · obtain rfl := List.mem_singleton.mp hat
        decide
  · rcases List.mem_append.mp hrest with hhost | hport
    · exact ⟨(call.host_plain.plain c hhost).1, (call.host_plain.plain c hhost).2.2⟩
    · rcases call.port_digits with hnil | ⟨digits, hdigits, -, hall⟩
      · rw [hnil] at hport
        exact absurd hport List.not_mem_nil
      · rw [hdigits] at hport
        rcases List.mem_cons.mp hport with rfl | hmem
        · decide
        · exact isDigit_plain (hall c hmem)

theorem targetOf_name : targetOf call.name call.method = call.target := by
  obtain ⟨c, hc, halpha⟩ := call.scheme_letter
  obtain ⟨rest, hscheme⟩ := List.head?_eq_some_iff.mp hc
  have hname : call.name =
      call.written ++
      (call.gap ++ (call.scheme ++ ascii "://" ++ call.authority ++ call.suffix)) := by
    simp [name, authority]
  have hword : ∀ d ∈ call.scheme ++ ascii "://" ++ call.authority,
      decide (¬ isSpace d = true) = true := by
    intro d hd
    rcases List.mem_append.mp hd with hd | hd
    · rcases List.mem_append.mp hd with hd | hd
      · simp [schemeByte_not_space (call.scheme_bytes d hd)]
      · have hmark : (ascii "://").all (fun d => !isSpace d) = true := by decide
        simpa using List.all_eq_true.mp hmark d hd
    · simp [(call.authority_not_space hd).2]
  have hfirst : (call.scheme ++ ascii "://" ++ call.authority ++ call.suffix).dropWhile isSpace =
      call.scheme ++ ascii "://" ++ call.authority ++ call.suffix := by
    rw [hscheme]
    exact List.dropWhile_cons_of_neg
      (by simp [schemeByte_not_space (call.scheme_bytes c (by simp [hscheme]))])
  rw [targetOf, hname, ← call.written_length, List.drop_left,
    List.dropWhile_append_of_pos call.gap_space, hfirst, List.takeWhile_append_of_pos hword, target]
  simp only [List.append_assoc]

theorem schemeLength_target : schemeLength call.target = call.scheme.length + 3 := by
  obtain ⟨c, hc, halpha⟩ := call.scheme_letter
  obtain ⟨rest, hscheme⟩ := List.head?_eq_some_iff.mp hc
  have hrest : ∀ d ∈ rest, isSchemeByte d = true := fun d hd =>
    call.scheme_bytes d (by simp [hscheme, hd])
  obtain ⟨more, hmore⟩ : ∃ more, call.target = c :: (rest ++ 58 :: 47 :: 47 :: more) := by
    refine ⟨call.authority ++ call.suffix.takeWhile fun c => ¬ isSpace c, ?_⟩
    rw [target, hscheme]
    rfl
  have htake : (rest ++ 58 :: 47 :: 47 :: more).takeWhile isSchemeByte = rest := by
    rw [List.takeWhile_append_of_pos hrest]
    exact List.append_nil rest
  have hbytes : (fun d : UInt8 => isAlpha d || isDigit d || d == 43 || d == 46 || d == 45) =
      isSchemeByte := rfl
  rw [hmore, schemeLength, if_pos halpha, hbytes]
  simp only [htake, List.drop_left, hscheme, List.length_cons]
  rw [if_pos (by rfl)]
  omega

theorem no_at {c : UInt8} (h : c ∈ call.host ++ call.port) : c ≠ 64 := by
  rcases List.mem_append.mp h with hhost | hport
  · exact (call.host_plain.plain c hhost).2.1
  · rcases call.port_digits with hnil | ⟨digits, hdigits, -, hall⟩
    · rw [hnil] at hport
      exact absurd hport List.not_mem_nil
    · rintro rfl
      rw [hdigits] at hport
      rcases List.mem_cons.mp hport with hcolon | hmem
      · exact absurd hcolon (by decide)
      · exact absurd (hall 64 hmem) (by decide)

theorem authorityOf_target : authorityOf call.target = call.host ++ call.port := by
  have hdrop : call.target.drop (call.scheme.length + 3) =
      call.authority ++ call.suffix.takeWhile fun c => ¬ isSpace c := by
    rw [target, ← List.append_assoc]
    exact List.drop_left' (by simp [ascii])
  have hstop : ∀ c ∈ (call.suffix.takeWhile fun c => ¬ isSpace c).head?,
      isAuthorityByte c = false := by
    intro c hc
    obtain ⟨s, hs⟩ := List.head?_eq_some_iff.mp hc
    have hmem : c ∈ call.suffix.takeWhile fun c => ¬ isSpace c := by
      rw [hs]
      exact List.mem_cons_self
    have hword := List.mem_takeWhile_imp hmem
    rcases call.suffix_start c (head?_of_takeWhile hs) with rfl | rfl | rfl | hspace
    · rfl
    · rfl
    · rfl
    · exact absurd hspace (of_decide_eq_true hword)
  rw [authorityOf, call.schemeLength_target, hdrop, takeWhile_append_stop hstop,
    List.takeWhile_eq_self_iff.mpr fun c hc => (call.authority_not_space hc).1, authority, user]
  cases call.userinfo with
  | none => exact afterLastAt_of_not_mem fun hat => call.no_at hat rfl
  | some u =>
    have hsplit : ((u ++ [64]) ++ (call.host ++ call.port)).reverse =
        (call.host ++ call.port).reverse ++ 64 :: u.reverse := by simp
    have hat : ∀ c ∈ (call.host ++ call.port).reverse, decide (c ≠ 64) = true := fun c hc =>
      decide_eq_true (call.no_at (List.mem_reverse.mp hc))
    rw [Option.map_some, Option.getD_some, afterLastAt, hsplit, List.takeWhile_append_of_pos hat,
      List.takeWhile_cons_of_neg (by decide), List.append_nil, List.reverse_reverse]

theorem hasPort_host : hasPort call.host = false := by
  by_contra hport
  rw [Bool.not_eq_false, hasPort, decide_eq_true_eq] at hport
  obtain ⟨hpos, hcolon⟩ := hport
  rw [← List.head?_drop, portDigits, drop_length_takeWhile] at hcolon
  obtain ⟨more, hmore⟩ := List.head?_eq_some_iff.mp hcolon
  have hsplit : call.host.reverse = call.host.reverse.takeWhile isDigit ++ 58 :: more := by
    rw [← hmore, List.takeWhile_append_dropWhile]
  have hhost : call.host = more.reverse ++ 58 :: (call.host.reverse.takeWhile isDigit).reverse := by
    have hreverse := congrArg List.reverse hsplit
    simpa using hreverse
  have hnil := call.host_end _ _ hhost fun c hc => List.mem_takeWhile_imp (List.mem_reverse.mp hc)
  rw [List.reverse_eq_nil_iff] at hnil
  rw [portDigits, hnil] at hpos
  exact absurd hpos (Nat.lt_irrefl 0)

theorem withoutPort_authority : withoutPort (call.host ++ call.port) = call.host := by
  rcases call.port_digits with hnil | ⟨digits, hdigits, hne, hall⟩
  · rw [hnil, List.append_nil, withoutPort, call.hasPort_host, if_neg Bool.false_ne_true]
  · have hreverse : (call.host ++ 58 :: digits).reverse =
        digits.reverse ++ 58 :: call.host.reverse := by simp
    have hcount : portDigits (call.host ++ 58 :: digits) = digits.length := by
      rw [portDigits, hreverse, List.takeWhile_append_of_pos
        fun c hc => hall c (List.mem_reverse.mp hc), List.takeWhile_cons_of_neg (by decide),
        List.append_nil, List.length_reverse]
    have hport : hasPort (call.host ++ 58 :: digits) = true := by
      have hcolon : (digits.reverse ++ 58 :: call.host.reverse)[digits.length]? = some 58 := by
        rw [List.getElem?_append_right (by simp)]
        simp
      rw [hasPort, hcount, hreverse, hcolon, decide_eq_true_eq]
      exact ⟨List.length_pos_iff.mpr hne, rfl⟩
    rw [hdigits, withoutPort, if_pos hport, hcount, List.length_append, List.length_cons,
      Nat.add_sub_cancel]
    exact List.take_left

theorem hostOf_target : hostOf call.target = some call.host := by
  rw [hostOf_eq, call.authorityOf_target, call.withoutPort_authority, call.schemeLength_target,
    if_neg call.host_plain.nonempty, if_neg fun h => absurd h.1 (Nat.succ_ne_zero _)]

end OutboundCall

/-- Of an outbound call only the method, in upper case, and the host are left. -/
theorem spanName_outbound (call : OutboundCall) :
    spanName call.name = call.method ++ ascii " " ++ call.host := by
  obtain ⟨c, hc, halpha⟩ := call.scheme_letter
  obtain ⟨rest, hscheme⟩ := List.head?_eq_some_iff.mp hc
  obtain ⟨more, hmore⟩ : ∃ more, call.target = c :: more :=
    ⟨_, by rw [OutboundCall.target, hscheme]; rfl⟩
  have hne : call.target ≠ [] := by
    rw [hmore]
    exact List.cons_ne_nil c more
  have hhead : call.target.head? ≠ some 47 := by
    rw [hmore]
    rintro hslash
    obtain rfl := Option.some.inj hslash
    exact absurd halpha (by decide)
  rw [spanName_call call.name_head call.leadingMethod_name (by rwa [call.targetOf_name]),
    call.targetOf_name, callName, if_neg hhead, call.hostOf_target, List.append_assoc]
  rfl

theorem spanName_outbound_jane :
    spanName (ascii "get https://jane:p@ss@api.example.com:8443/patients?q=1") =
      ascii "GET api.example.com" := by
  have huser : (ascii "jane:p@ss").all (fun c => isAuthorityByte c && !isSpace c) = true := by
    decide
  have hhost : (ascii "api.example.com").all (fun c => isAuthorityByte c && c != 64 && !isSpace c) =
      true := by decide
  have hcolon : (ascii "api.example.com").contains 58 = false := by decide
  exact spanName_outbound
    { method := ascii "GET", written := ascii "get", gap := ascii " ", scheme := ascii "https"
      userinfo := some (ascii "jane:p@ss"), host := ascii "api.example.com", port := ascii ":8443"
      suffix := ascii "/patients?q=1"
      method_known := by simp [httpMethods]
      written_method := by decide
      gap_ne := by decide
      gap_space := List.all_eq_true.mp (by decide)
      scheme_letter := ⟨104, rfl, by decide⟩
      scheme_bytes := List.all_eq_true.mp (by decide)
      userinfo_plain := by
        rintro _ ⟨⟩ c hc
        simpa using List.all_eq_true.mp huser c hc
      host_plain :=
        ⟨by decide, fun c hc => by
          simpa [and_assoc] using List.all_eq_true.mp hhost c hc⟩
      host_end := by
        intro s digits heq _
        have hmem : (58 : UInt8) ∈ ascii "api.example.com" := by simp [heq]
        have hfound := List.contains_iff_mem.mpr hmem
        rw [hcolon] at hfound
        exact absurd hfound Bool.false_ne_true
      port_digits := .inr ⟨ascii "8443", rfl, by decide, List.all_eq_true.mp (by decide)⟩
      suffix_start := by
        rintro _ ⟨⟩
        exact .inl rfl }

end ForgeOps.StrictPrivacy
