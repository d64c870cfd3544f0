import ForgeOpsTracker.Dsn
import ForgeOpsTracker.Lib.Labels
import ForgeOpsTracker.SpanNameAgain
import ForgeOpsTracker.TraceContext

/-! Where a trace goes on: of the address of an outbound call only the host is looked at, and a
header goes out only to a host that is one of the targets or lies below one, when there are targets
at all. -/

namespace ForgeOps.TraceParent

/-! ## The host of an address -/

/-- What ends the authority of an address. -/
def endsAuthority (c : UInt8) : Bool := c == 47 || c == 63 || c == 35

/-- A host as it stands in an address: a name, or numbers in brackets. -/
inductive IsAddressHost : Bytes → Prop
  | name {host : Bytes} (hne : host ≠ []) (hhead : host.head? ≠ some 91)
      (hplain : ∀ c ∈ host, endsAuthority c = false ∧ c ≠ 64 ∧ c ≠ 58) : IsAddressHost host
  | bracketed {inner : Bytes} (hplain : ∀ c ∈ inner, endsAuthority c = false ∧ c ≠ 64 ∧ c ≠ 93) :
      IsAddressHost (91 :: (inner ++ [93]))

theorem IsAddressHost.ne_nil {host : Bytes} (h : IsAddressHost host) : host ≠ [] := by
  cases h with
  | name hne => exact hne
  | bracketed => exact List.cons_ne_nil _ _

theorem IsAddressHost.plain {host : Bytes} (h : IsAddressHost host) :
    ∀ c ∈ host, endsAuthority c = false ∧ c ≠ 64 := by
  cases h with
  | name hne hhead hplain => exact fun c hc => ⟨(hplain c hc).1, (hplain c hc).2.1⟩
  | bracketed hplain =>
    intro c hc
    rcases List.mem_cons.mp hc with rfl | hc
    · exact ⟨by decide, by decide⟩
    · rcases List.mem_append.mp hc with hc | hc
      · exact ⟨(hplain c hc).1, (hplain c hc).2.1⟩
      · rw [List.mem_singleton.mp hc]
        exact ⟨by decide, by decide⟩

/-- A host in brackets ends with its bracket. -/
theorem IsAddressHost.bracket {host service rest : Bytes} (h : IsAddressHost host)
    (hhead : host ++ service = 91 :: rest) :
    (host ++ service).contains 93 = true ∧ ((host ++ service).takeWhile (· ≠ 93)).length + 1 =
      host.length := by
  cases h with
  | name hne hnot =>
    obtain ⟨c, host, rfl⟩ := List.exists_cons_of_ne_nil hne
    exact absurd (congrArg some (List.cons.inj hhead).1) hnot
  | @bracketed inner hplain =>
    have hall : ∀ d ∈ 91 :: inner, decide (d ≠ 93) = true := by
      intro d hd
      rcases List.mem_cons.mp hd with rfl | hd
      · decide
      · exact decide_eq_true (hplain d hd).2.2
    have hsplit : 91 :: (inner ++ [93]) ++ service = (91 :: inner) ++ 93 :: service := by simp
    rw [hsplit, List.takeWhile_append_of_pos hall, List.takeWhile_cons_of_neg (by decide),
      List.append_nil]
    exact ⟨List.contains_iff_mem.mpr (List.mem_append_right _ List.mem_cons_self), by simp⟩

/-- Any other ends before its port. -/
theorem IsAddressHost.colon {host service : Bytes} (h : IsAddressHost host)
    (hhead : ∀ rest, host ++ service ≠ 91 :: rest) (hservice : ∀ c ∈ service.head?, c = 58) :
    ((host ++ service).takeWhile (· ≠ 58)).length = host.length := by
  cases h with
  | name hne hnot hplain =>
    have hall : ∀ d ∈ host, decide (d ≠ 58) = true := fun d hd => decide_eq_true (hplain d hd).2.2
    rw [List.takeWhile_append_of_pos hall]
    cases service with
    | nil => rw [List.takeWhile_nil, List.append_nil]
    | cons d service =>
      rw [List.takeWhile_cons_of_neg (by rw [hservice d rfl]; decide), List.append_nil]
  | bracketed => exact absurd rfl (hhead _)

/-- The address of an outbound call. -/
structure Address where
  scheme : Bytes
  userinfo : Option Bytes
  host : Bytes
  port : Option Bytes
  tail : Bytes
  scheme_ne : scheme ≠ []
  scheme_plain : 58 ∉ scheme
  userinfo_plain : ∀ user ∈ userinfo, ∀ c ∈ user, endsAuthority c = false
  host_form : IsAddressHost host
  port_plain : ∀ digits ∈ port, ∀ c ∈ digits, endsAuthority c = false ∧ c ≠ 64
  tail_start : ∀ c ∈ tail.head?, endsAuthority c = true

namespace Address
variable (address : Address)

def login : Bytes := (address.userinfo.map fun user => user ++ [64]).getD []
def service : Bytes := (address.port.map fun digits => 58 :: digits).getD []

def url : Bytes :=
  address.scheme ++ ascii "://" ++ (address.login ++
    (address.host ++ address.service) ++ address.tail)

example : ∃ address : Address, address.url = ascii "https://me:pw@[::1]:8443/in?to=@x" :=
  ⟨⟨ascii "https", some (ascii "me:pw"), ascii "[::1]", some (ascii "8443"), ascii "/in?to=@x", by
    decide +kernel, by
      decide +kernel, by
        decide +kernel, @IsAddressHost.bracketed (ascii "::1") (by decide +kernel), by
          decide +kernel,
    by decide +kernel⟩, rfl⟩

theorem service_plain : ∀ c ∈ address.service, endsAuthority c = false ∧ c ≠ 64 := by
  intro c hc
  unfold service at hc
  cases hport : address.port with
  | none =>
    rw [hport] at hc
    exact absurd hc List.not_mem_nil
  | some digits =>
    rw [hport] at hc
    rcases List.mem_cons.mp hc with rfl | hc
    · exact ⟨by decide, by decide⟩
    · exact address.port_plain digits hport c hc

theorem login_plain : ∀ c ∈ address.login, endsAuthority c = false := by
  intro c hc
  unfold login at hc
  cases huserinfo : address.userinfo with
  | none =>
    rw [huserinfo] at hc
    exact absurd hc List.not_mem_nil
  | some user =>
    rw [huserinfo] at hc
    rcases List.mem_append.mp hc with hc | hc
    · exact address.userinfo_plain user huserinfo c hc
    · rw [List.mem_singleton.mp hc]
      decide

/-- The authority ends where the path, the query or the fragment begins. -/
theorem takeWhile_authority :
    (address.login ++ (address.host ++ address.service) ++ address.tail).takeWhile
      (fun c => c ≠ 47 ∧ c ≠ 63 ∧ c ≠ 35) = address.login ++ (address.host ++ address.service) := by
  have hfun : (fun c : UInt8 => decide (c ≠ 47 ∧ c ≠ 63 ∧ c ≠ 35)) = fun c => !endsAuthority c := by
    funext c
    rw [Bool.eq_iff_iff]
    simp [endsAuthority, and_assoc]
  have hall : ∀ c ∈ address.login ++ (address.host ++ address.service),
      (!endsAuthority c) = true := by
    intro c hc
    rw [Bool.not_eq_true']
    rcases List.mem_append.mp hc with hc | hc
    · exact address.login_plain c hc
    · rcases List.mem_append.mp hc with hc | hc
      · exact (address.host_form.plain c hc).1
      · exact (address.service_plain c hc).1
  rw [hfun, List.takeWhile_append_of_pos hall]
  cases htail : address.tail with
  | nil => rw [List.takeWhile_nil, List.append_nil]
  | cons c tail =>
    have hend := address.tail_start c (by rw [htail]; rfl)
    rw [List.takeWhile_cons_of_neg (by rw [hend]; decide), List.append_nil]

theorem afterLastAt_authority :
    StrictPrivacy.afterLastAt (address.login ++ (address.host ++ address.service)) =
      address.host ++ address.service := by
  have hat : 64 ∉ address.host ++ address.service := by
    intro hmem
    rcases List.mem_append.mp hmem with hmem | hmem
    · exact (address.host_form.plain 64 hmem).2 rfl
    · exact (address.service_plain 64 hmem).2 rfl
  unfold login
  cases address.userinfo with
  | none => exact StrictPrivacy.afterLastAt_of_not_mem hat
  | some user =>
    show StrictPrivacy.afterLastAt (user ++ [64] ++ (address.host ++ address.service)) = _
    generalize address.host ++ address.service = behind at hat
    have hall : ∀ c ∈ behind.reverse, decide (c ≠ 64) = true := fun c hc =>
      decide_eq_true fun heq => hat (heq ▸ List.mem_reverse.mp hc)
    rw [StrictPrivacy.afterLastAt, List.reverse_append, List.reverse_append,
      List.takeWhile_append_of_pos hall, List.reverse_singleton, List.singleton_append,
      List.takeWhile_cons_of_neg (by decide), List.append_nil, List.reverse_reverse]

theorem service_head : ∀ c ∈ address.service.head?, c = 58 := by
  intro c hc
  unfold service at hc
  cases hport : address.port with
  | none =>
    rw [hport] at hc
    exact absurd hc (Option.not_mem_none c)
  | some digits =>
    rw [hport] at hc
    exact (Option.some.inj hc).symm

/-- The host that is looked at, when its name fits. -/
def knownHost : Option Bytes :=
  if address.host.length < 256 then some (address.host.map Byte.toLower) else none

theorem urlHost_url : urlHost (some address.url) 256 = address.knownHost := by
  have hsplit : Configuration.splitAtFirst (ascii "://") address.url =
      some (address.scheme, address.login ++ (address.host ++ address.service) ++ address.tail) :=
    Configuration.splitAtFirst_append address.scheme_plain _
  have hpos : 0 < address.host.length := List.length_pos_iff.mpr address.host_form.ne_nil
  have hfits : (if address.host.length = 0 ∨ address.host.length ≥ 256 then none
      else some ((address.host ++ address.service).take address.host.length |>.map Byte.toLower)) =
      address.knownHost := by
    unfold knownHost
    by_cases hshort : address.host.length < 256
    · rw [if_neg (by omega), if_pos hshort, List.take_left]
    · rw [if_pos (by omega), if_neg hshort]
  rw [urlHost, hsplit]
  simp only [if_neg address.scheme_ne, takeWhile_authority, afterLastAt_authority]
  split
  · rename_i rest hhead
    obtain ⟨hcontains, hlength⟩ := address.host_form.bracket hhead
    rw [if_pos hcontains, hlength]
    exact hfits
  · rename_i hhead
    rw [address.host_form.colon (fun rest hrest => hhead rest hrest) address.service_head]
    exact hfits

end Address

/-! ## The targets -/

/-- A target says nothing with a leading dot. -/
def named (target : Bytes) : Bytes := if target.head? = some 46 then target.drop 1 else target

def labels (name : Bytes) : List Bytes := (name.map Byte.toLower).splitOn 46

/-- A host lies at or below a target when its last labels are all those of the target. -/
def Within (host target : Bytes) : Prop := named target ≠ [] ∧ labels (named target) <:+ labels host

theorem toLower_toLower (c : UInt8) : Byte.toLower (Byte.toLower c) = Byte.toLower c := by
  have hall : ∀ n < 256, Byte.toLower (Byte.toLower (UInt8.ofNat n)) =
      Byte.toLower (UInt8.ofNat n) := by decide +kernel
  have hc := hall c.toNat c.toNat_lt
  rwa [UInt8.ofNat_toNat] at hc

theorem labels_toLower (name : Bytes) : labels (name.map Byte.toLower) = labels name := by
  rw [labels, List.map_map, labels]
  congr 2
  funext c
  exact toLower_toLower c

theorem toLower_eq_dot_iff (c : UInt8) : Byte.toLower c = 46 ↔ c = 46 := by
  have hall : ∀ n < 256, Byte.toLower (UInt8.ofNat n) = 46 ↔ UInt8.ofNat n = 46 := by decide +kernel
  have hc := hall c.toNat c.toNat_lt
  rwa [UInt8.ofNat_toNat] at hc

/-- Ending with a dot and the target, in any case, is having its labels last. -/
theorem suffix_labels_iff {host target : Bytes} :
    labels target <:+ labels host ↔
      host.map Byte.toLower = target.map Byte.toLower ∨
        target.length < host.length ∧ host[host.length - target.length - 1]? = some 46 ∧
          (host.drop (host.length - target.length)).map Byte.toLower = target.map Byte.toLower := by
  rw [labels, labels, Labels.suffix_splitOn_iff]
  refine or_congr_right ⟨?_, ?_⟩
  · rintro ⟨before, hsplit⟩
    have hlength : host.length = before.length + (1 + target.length) := by
      simpa [Nat.add_comm 1] using congrArg List.length hsplit
    have hdot : (host.map Byte.toLower)[before.length]? = some 46 := by
      rw [hsplit, List.getElem?_append_right (Nat.le_refl _), Nat.sub_self, List.getElem?_cons_zero]
    have hbehind : (host.map Byte.toLower).drop (before.length + 1) = target.map Byte.toLower := by
      rw [hsplit, drop_add, List.drop_left, List.drop_succ_cons, List.drop_zero]
    rw [show host.length - target.length - 1 = before.length by omega,
      show host.length - target.length = before.length + 1 by omega, List.map_drop]
    refine ⟨by omega, ?_, hbehind⟩
    rw [List.getElem?_map] at hdot
    obtain ⟨c, hc, hlower⟩ := Option.map_eq_some_iff.mp hdot
    rw [hc, (toLower_eq_dot_iff c).mp hlower]
  · rintro ⟨hlt, hdot, hbehind⟩
    refine ⟨(host.take (host.length - target.length - 1)).map Byte.toLower, ?_⟩
    have hdrop := drop_of_getElem? hdot
    rw [show host.length - target.length - 1 + 1 = host.length - target.length by omega] at hdrop
    calc host.map Byte.toLower
      _ = (host.take (host.length - target.length - 1) ++
          host.drop (host.length - target.length - 1)).map Byte.toLower := by
        rw [List.take_append_drop]
      _ = _ := by
        rw [hdrop, List.map_append, List.map_cons, hbehind]
        rfl

theorem hostMatchesTarget_iff {host target : Bytes} :
    hostMatchesTarget host (some target) = true ↔ Within host target := by
  have hvalue : hostMatchesTarget host (some target) =
      if named target = [] ∨ host.length < (named target).length then false
      else if host.length = (named target).length then equalsIgnoringCase host (named target)
      else host[host.length - (named target).length - 1]? = some 46 &&
        equalsIgnoringCase (host.drop (host.length - (named target).length)) (named target) := rfl
  rw [hvalue, Within]
  generalize named target = name
  rw [suffix_labels_iff]
  by_cases hempty : name = []
  · simp [hempty]
  rcases Nat.lt_trichotomy host.length name.length with hlt | heq | hgt
  · rw [if_pos (.inr hlt)]
    refine iff_of_false Bool.false_ne_true ?_
    rintro ⟨-, hsame | ⟨hlonger, -⟩⟩
    · have := congrArg List.length hsame
      rw [List.length_map, List.length_map] at this
      omega
    · omega
  · rw [if_neg (not_or.mpr ⟨hempty, by omega⟩), if_pos heq, equalsIgnoringCase, beq_iff_eq]
    exact ⟨fun hsame => ⟨hempty, .inl hsame⟩, fun h => h.2.resolve_right fun hlonger => by omega⟩
  · rw [if_neg (not_or.mpr ⟨hempty, by omega⟩), if_neg (by omega), Bool.and_eq_true,
      decide_eq_true_eq, equalsIgnoringCase, beq_iff_eq]
    refine ⟨fun h => ⟨hempty, .inr ⟨hgt, h⟩⟩, ?_⟩
    rintro ⟨-, hsame | ⟨-, h⟩⟩
    · have := congrArg List.length hsame
      rw [List.length_map, List.length_map] at this
      omega
    · exact h

example : hostMatchesTarget (ascii "eu.Example.com") (some (ascii ".example.com")) = true := by
  decide
example : hostMatchesTarget (ascii "badexample.com") (some (ascii "example.com")) = false := by
  decide

/-- The traces of this configuration go on to this address. -/
def Address.Reached (address : Address) (config : Propagation) : Prop :=
  config.propagateTraces = true ∧ ∀ targets ∈ config.tracePropagationTargets,
    address.host.length < 256 ∧ ∃ target, some target ∈ targets ∧ Within address.host target

theorem shouldPropagateTrace_iff (address : Address) (config : Propagation) :
    shouldPropagateTrace (some config) address.knownHost = true ↔ address.Reached config := by
  unfold shouldPropagateTrace Address.Reached
  by_cases hpropagate : config.propagateTraces = true
  swap
  · simp [hpropagate]
  simp only [hpropagate, not_true_eq_false, if_false, true_and]
  cases htargets : config.tracePropagationTargets with
  | none => simp
  | some targets =>
    simp only [Option.mem_def, Option.some.injEq, forall_eq']
    unfold Address.knownHost
    by_cases hshort : address.host.length < 256
    · have hne : address.host.map Byte.toLower ≠ [] := fun h =>
        address.host_form.ne_nil (List.map_eq_nil_iff.mp h)
      simp only [hshort, if_true, hne, if_false, List.any_eq_true, true_and]
      constructor
      · rintro ⟨target, htarget, hmatch⟩
        cases target with
        | none => exact absurd hmatch Bool.false_ne_true
        | some target =>
          obtain ⟨hname, hlabels⟩ := hostMatchesTarget_iff.mp hmatch
          rw [labels_toLower] at hlabels
          exact ⟨target, htarget, hname, hlabels⟩
      · rintro ⟨target, htarget, hname, hlabels⟩
        refine ⟨some target, htarget, hostMatchesTarget_iff.mpr ⟨hname, ?_⟩⟩
        rw [labels_toLower]
        exact hlabels
    · simp [hshort]

end ForgeOps.TraceParent

namespace ForgeOps.Spans
open TraceParent

theorem httpSpanName_eq (method host : Option Bytes) :
    httpSpanName method host =
      (((method.getD (ascii "GET")).map Byte.toUpper) ++ ascii " " ++
      host.getD (ascii "unknown")).take
        (httpSpanNameSize - 1) := by
  rw [httpSpanName]
  generalize (method.getD (ascii "GET")).map Byte.toUpper = method
  generalize host.getD (ascii "unknown") = host
  show method.take (httpSpanNameSize - 1) ++
    (ascii " " ++ host).take (httpSpanNameSize -
      (method.take (httpSpanNameSize - 1)).length - 1) = _
  have hroom : httpSpanNameSize - (method.take (httpSpanNameSize - 1)).length - 1 =
      httpSpanNameSize - 1 - method.length := by
    rw [List.length_take]
    omega
  rw [hroom, List.append_assoc]
  exact List.take_append.symm

/-- What the header of an outbound call carries. -/
theorem httpSpanStart_header_eq (s : State) (config : Propagation) (method url : Option Bytes)
    (id : HexId 16) (startedAtUnixMs : Int) :
    (httpSpanStart s (some config) method url id startedAtUnixMs).2.header =
      match s.trace with
      | none => []
      | some trace =>
        if shouldPropagateTrace (some config) (urlHost url 256) then
          ascii "traceparent: " ++ build trace.traceId id
        else [] := by
  cases htrace : s.trace with
  | none =>
    simp only [httpSpanStart, start, htrace, List.getElem?_concat_length]
    rfl
  | some trace =>
    have hlength : (build trace.traceId id).length = 55 := by
      rw [build_eq,
        (@fields_at (ascii "00") (ascii "01") rfl rfl trace.traceId id []).2.2.2.2.2.2.2.2,
        List.length_nil]
    have hne : build trace.traceId id ≠ [] := fun h => by
      rw [h] at hlength
      exact absurd hlength (by decide)
    simp only [httpSpanStart, start, htrace, List.getElem?_concat_length, Option.join_some]
    by_cases hpropagate : shouldPropagateTrace (some config) (urlHost url 256) = true
    · rw [if_pos hpropagate, if_neg hne, Printf.snprintf_of_fits, if_pos hpropagate]
      rw [List.length_append, hlength, traceparentHeaderLineSize]
      decide
    · rw [if_neg hpropagate, if_pos rfl, if_neg hpropagate]

/-- The span of an outbound call has the method and the host for its name, and its header stands for
the open trace and the span, or for nothing when no trace is open or the address is not one that
traces go on to. -/
theorem httpSpanStart_address (address : Address) (s : State) (config : Propagation)
    (method : Option Bytes) (id : HexId 16) (startedAtUnixMs : Int) :
    let span := (httpSpanStart s (some config) method (some address.url) id startedAtUnixMs).2
    span.name = (((method.getD (ascii "GET")).map Byte.toUpper) ++ ascii " " ++
      address.knownHost.getD (ascii "unknown")).take (httpSpanNameSize - 1) ∧
    (∀ trace, s.trace = some trace → address.Reached config →
      span.header = ascii "traceparent: " ++ build trace.traceId id) ∧
    (s.trace = none ∨ ¬ address.Reached config → span.header = []) := by
  intro span
  have hheader := httpSpanStart_header_eq s config method (some address.url) id startedAtUnixMs
  rw [address.urlHost_url] at hheader
  refine ⟨?_, ?_, ?_⟩
  · have hname : span.name = httpSpanName method (urlHost (some address.url) 256) := rfl
    rw [hname, address.urlHost_url, httpSpanName_eq]
  · intro trace htrace hreached
    rw [htrace] at hheader
    exact hheader.trans (if_pos ((shouldPropagateTrace_iff address config).mpr hreached))
  · rintro (htrace | hunreached)
    · rw [htrace] at hheader
      exact hheader
    · cases htrace : s.trace with
      | none =>
        rw [htrace] at hheader
        exact hheader
      | some trace =>
        rw [htrace] at hheader
        exact hheader.trans (if_neg (mt (shouldPropagateTrace_iff address config).mp hunreached))

end ForgeOps.Spans
