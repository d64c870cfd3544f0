import ForgeOpsTracker.Lib.Printf
import ForgeOpsTracker.Client
import ForgeOpsTracker.Dsn

/-! The requests of `client.c`: where each kind of payload is posted, and under which key, as the
DSN says it. The endpoints are told apart by the last segment of the URL alone, so they are six URLs
if it is "events", and otherwise one. -/

namespace ForgeOps.Configuration

def eventsSuffix : Bytes := ascii "/events"

/-- `swap_events_suffix`; `forgeops_configuration_performance_samples_url` and
`forgeops_configuration_spans_url` do the same in place. -/
def swapEventsSuffix (config : Configuration) (replacement : Bytes) : Option Bytes :=
  config.ingestionUrl.map fun url =>
    if eventsSuffix.isSuffixOf url then url.take (url.length - eventsSuffix.length) ++
      replacement else url

def performanceSamplesUrl (config : Configuration) : Option Bytes :=
  swapEventsSuffix config (ascii "/performance_samples")

def customMetricsUrl (config : Configuration) : Option Bytes :=
  swapEventsSuffix config (ascii "/custom_metrics")

def infrastructureMetricsUrl (config : Configuration) : Option Bytes :=
  swapEventsSuffix config (ascii "/infrastructure_metrics")

def changesUrl (config : Configuration) : Option Bytes := swapEventsSuffix config (ascii "/changes")

def spansUrl (config : Configuration) : Option Bytes := swapEventsSuffix config (ascii "/spans")

end ForgeOps.Configuration

namespace ForgeOps.Client
open ForgeOps.Configuration

/-- Which of the client's delivery functions posts. -/
inductive Endpoint
  | events
  | performanceSamples
  | customMetrics
  | infrastructureMetrics
  | changes
  | spans
  deriving DecidableEq, Repr

def Endpoint.url (config : Configuration) : Endpoint → Option Bytes
  | .events => config.ingestionUrl
  | .performanceSamples => config.performanceSamplesUrl
  | .customMetrics => config.customMetricsUrl
  | .infrastructureMetrics => config.infrastructureMetricsUrl
  | .changes => config.changesUrl
  | .spans => config.spansUrl

structure Request where
  url : Bytes
  headers : List Bytes
  body : Bytes
  deriving DecidableEq, Repr

def authHeaderSize : Nat := 512

/-- `post_json` as far as the request, or `none` where it returns 0 without one. -/
def postJson (config : Configuration) (url : Option Bytes) (payload : Bytes) : Option Request :=
  match url, config.apiKey with
  | some url, some key =>
    some ⟨url, [Printf.snprintf authHeaderSize (ascii "Authorization: Bearer " ++ key),
      ascii "Content-Type: application/json"], payload⟩
  | _, _ => none

/-- The request of `forgeops_client_deliver_status` and its siblings. -/
def Endpoint.request (config : Configuration) (endpoint : Endpoint) (payload : Bytes) :
    Option Request :=
  postJson config (endpoint.url config) payload

/-- The status they return, the server answering a request as it does; 0 stands for no response. -/
def Endpoint.deliverStatus (server : Request → Int) (config : Configuration) (endpoint : Endpoint)
    (payload : Bytes) : Int :=
  match endpoint.request config payload with
  | none => 0
  | some request => server request

/-! ## Six URLs or one -/

/-- The last segment of an endpoint's URL. -/
def Endpoint.path : Endpoint → Bytes
  | .events => ascii "/events"
  | .performanceSamples => ascii "/performance_samples"
  | .customMetrics => ascii "/custom_metrics"
  | .infrastructureMetrics => ascii "/infrastructure_metrics"
  | .changes => ascii "/changes"
  | .spans => ascii "/spans"

theorem path_injective : ∀ a b : Endpoint, a.path = b.path → a = b := by
  intro a b h
  cases a <;> cases b <;> first | rfl | exact absurd h (by decide)

theorem url_of_suffix {config : Configuration} {base : Bytes}
    (h : config.ingestionUrl = some (base ++ eventsSuffix)) (endpoint : Endpoint) :
    endpoint.url config = some (base ++ endpoint.path) := by
  have hsuffix : eventsSuffix.isSuffixOf (base ++ eventsSuffix) = true :=
    List.isSuffixOf_iff_suffix.mpr (List.suffix_append base eventsSuffix)
  have hswap : ∀ replacement, swapEventsSuffix config replacement = some (base ++ replacement) := by
    intro replacement
    rw [swapEventsSuffix, h, Option.map_some, if_pos hsuffix, List.length_append,
      Nat.add_sub_cancel, List.take_left]
  cases endpoint with
  | events => exact h
  | _ => exact hswap _

theorem url_of_not_suffix {config : Configuration}
    (h : ∀ base, config.ingestionUrl ≠ some (base ++ eventsSuffix)) (endpoint : Endpoint) :
    endpoint.url config = config.ingestionUrl := by
  have hswap : ∀ replacement, swapEventsSuffix config replacement = config.ingestionUrl := by
    intro replacement
    rw [swapEventsSuffix]
    cases hurl : config.ingestionUrl with
    | none => rfl
    | some url =>
      rw [Option.map_some, if_neg]
      intro hsuffix
      obtain ⟨base, rfl⟩ := List.isSuffixOf_iff_suffix.mp hsuffix
      exact h base hurl
  cases endpoint with
  | events => rfl
  | _ => exact hswap _

/-- No two endpoints share a URL if and only if the URL events are sent to ends in "/events". -/
theorem endpoints_apart_iff (config : Configuration) :
    (∀ a b : Endpoint, a.url config = b.url config → a = b) ↔
      ∃ base, config.ingestionUrl = some (base ++ eventsSuffix) := by
  by_cases h : ∃ base, config.ingestionUrl = some (base ++ eventsSuffix)
  · refine iff_of_true (fun a b hab => ?_) h
    obtain ⟨base, hbase⟩ := h
    rw [url_of_suffix hbase, url_of_suffix hbase] at hab
    exact path_injective a b (List.append_cancel_left (Option.some.inj hab))
  · have hall := url_of_not_suffix (not_exists.mp h)
    refine iff_of_false (fun hapart => ?_) h
    have hshared := hapart .events .spans ((hall _).trans (hall _).symm)
    exact absurd hshared (by decide)

/-! ## What a DSN makes of its requests -/

/-- The URL of the DSN ends in "/events": its path does, or it is the bare host `events`. -/
def EndsInEvents (dsn : Dsn) : Prop :=
  eventsSuffix <:+ dsn.tail ∨ dsn.tail = [] ∧ dsn.authority = ascii "events"

theorem eventsSuffix_eq : eventsSuffix = 47 :: ascii "events" := rfl

theorem eventsSuffix_suffix_tail {dsn : Dsn} (h : eventsSuffix <:+ dsn.url) :
    eventsSuffix <:+ dsn.tail ∨ dsn.tail = [] := by
  rcases List.suffix_or_suffix_of_suffix h
    (List.suffix_append _ dsn.tail) with htail | ⟨head, hhead⟩
  · exact .inl htail
  · cases hstart : dsn.tail with
    | nil => exact .inr rfl
    | cons c rest =>
      rw [hstart] at hhead
      cases head with
      | nil => exact .inl ⟨[], by rw [← hhead]; rfl⟩
      | cons d head =>
        -- the tail begins with a delimiter, and there is none behind the slash
        have hevents : head ++ c :: rest = ascii "events" :=
          (List.cons.inj (hhead.trans eventsSuffix_eq)).2
        have hc : c ∈ ascii "events" := hevents ▸ List.mem_append_right _ List.mem_cons_self
        have hdelimiter := dsn.tail_start c (by rw [hstart]; rfl)
        rcases hdelimiter with rfl | rfl | rfl <;> exact absurd hc (by decide)

theorem authority_of_eventsSuffix {dsn : Dsn}
    (h : eventsSuffix <:+ dsn.scheme ++ ascii "://" ++ dsn.authority) :
    dsn.authority = ascii "events" := by
  have hslash : 47 ∉ dsn.authority := fun hin => absurd (dsn.authority_plain 47 hin) (by decide)
  rcases List.suffix_or_suffix_of_suffix h
    (List.suffix_append _ dsn.authority) with hinside | ⟨head, hhead⟩
  · exact absurd (hinside.subset List.mem_cons_self) hslash
  · cases head with
    | nil =>
      rw [List.nil_append] at hhead
      exact absurd (hhead ▸ List.mem_cons_self) hslash
    | cons c head =>
      obtain ⟨rfl, hevents⟩ : c = 47 ∧ head ++ dsn.authority = ascii "events" :=
        List.cons.inj (hhead.trans eventsSuffix_eq)
      rcases List.eq_nil_or_concat head with rfl | ⟨head, d, rfl⟩
      · exact hevents
      · -- before the authority stands a slash, and there is none in "events"
        obtain ⟨base, hbase⟩ := h
        rw [← hhead, ← List.append_assoc] at hbase
        have hlast := congrArg List.getLast? (List.append_cancel_right hbase)
        have hd : d ∈ ascii "events" := hevents ▸ by simp
        have hscheme : (dsn.scheme ++ ascii "://").getLast? = some 47 := by simp [ascii]
        rw [hscheme, List.concat_eq_append, ← List.cons_append, ← List.append_assoc,
          List.getLast?_concat] at hlast
        exact absurd (Option.some.inj hlast ▸ hd) (by decide)

theorem eventsSuffix_suffix_iff (dsn : Dsn) : eventsSuffix <:+ dsn.url ↔ EndsInEvents dsn := by
  constructor
  · intro h
    rcases eventsSuffix_suffix_tail h with htail | hnone
    · exact .inl htail
    · rw [Dsn.url, hnone, List.append_nil] at h
      exact .inr ⟨hnone, authority_of_eventsSuffix h⟩
  · rintro (htail | ⟨hnone, hauthority⟩)
    · exact htail.trans (List.suffix_append _ _)
    · refine ⟨dsn.scheme ++ ascii ":/", ?_⟩
      rw [Dsn.url, hnone, hauthority, List.append_nil, List.append_assoc, List.append_assoc]
      rfl

/-- The URL an endpoint has by the DSN: the DSN's own without its login, with the endpoint's last
segment in the place of "events". -/
structure IsPostUrl (dsn : Dsn) (endpoint : Endpoint) (url : Bytes) : Prop where
  swapped : ∀ base, dsn.url = base ++ eventsSuffix → url = base ++ endpoint.path
  kept : ¬EndsInEvents dsn → url = dsn.url

theorem IsPostUrl.unique {dsn : Dsn} {endpoint : Endpoint} {url other : Bytes}
    (h : IsPostUrl dsn endpoint url) (hother : IsPostUrl dsn endpoint other) : url = other := by
  by_cases hends : EndsInEvents dsn
  · obtain ⟨base, hevents⟩ := (eventsSuffix_suffix_iff dsn).mpr hends
    rw [h.swapped base hevents.symm, hother.swapped base hevents.symm]
  · rw [h.kept hends, hother.kept hends]

theorem ingestionUrl_suffix_iff {dsn : Dsn} {config : Configuration}
    (hurl : config.ingestionUrl = some dsn.url) :
    (∃ base, config.ingestionUrl = some (base ++ eventsSuffix)) ↔ EndsInEvents dsn := by
  rw [← eventsSuffix_suffix_iff]
  constructor
  · rintro ⟨base, hbase⟩
    exact ⟨base, (Option.some.inj (hurl.symm.trans hbase)).symm⟩
  · rintro ⟨base, hbase⟩
    exact ⟨base, hurl.trans (congrArg some hbase.symm)⟩

theorem url_isPostUrl {dsn : Dsn} {config : Configuration}
    (hurl : config.ingestionUrl = some dsn.url) (endpoint : Endpoint) :
    ∃ url, endpoint.url config = some url ∧ IsPostUrl dsn endpoint url := by
  by_cases hends : EndsInEvents dsn
  · obtain ⟨base, hevents⟩ := (ingestionUrl_suffix_iff hurl).mpr hends
    refine ⟨_, url_of_suffix hevents endpoint, fun other hother => ?_,
      fun hnot => absurd hends hnot⟩
    rw [Option.some.inj (hurl.symm.trans hevents)] at hother
    rw [List.append_cancel_right hother]
  · have hother :=
      url_of_not_suffix (not_exists.mp ((ingestionUrl_suffix_iff hurl).not.mpr hends)) endpoint
    refine ⟨_, hother.trans hurl, fun base hevents => ?_, fun _ => rfl⟩
    exact absurd ((eventsSuffix_suffix_iff dsn).mp ⟨base, hevents.symm⟩) hends

/-- The key a DSN gives: its userinfo decoded, when there is any. -/
theorem isKey_some_iff {dsn : Dsn} {found : Option Bytes} (h : dsn.IsKey found) (key : Bytes) :
    found = some key ↔ ∃ userinfo, dsn.userinfo = some userinfo ∧ userinfo ≠ [] ∧
    PercentDecoded userinfo key := by
  unfold Dsn.IsKey at h
  split at h
  · rename_i hnone
    rw [h]
    exact iff_of_false nofun fun ⟨_, hsome, _⟩ => nomatch hnone.symm.trans hsome
  · rename_i hempty
    rw [h]
    exact iff_of_false nofun fun ⟨_, hsome, hne, _⟩ =>
      hne (Option.some.inj (hempty.symm.trans hsome)).symm
  · rename_i userinfo hne huser
    obtain ⟨decoded, rfl, hdecoded⟩ := h
    constructor
    · intro heq
      exact ⟨userinfo, huser, hne, Option.some.inj heq ▸ hdecoded⟩
    · rintro ⟨other, hother, -, hkey⟩
      obtain rfl := Option.some.inj (huser.symm.trans hother)
      rw [hdecoded.unique hkey]

/-- A request that carries the payload to the endpoint, as the DSN says it. -/
structure Posts (dsn : Dsn) (endpoint : Endpoint) (payload : Bytes) (request : Request) : Prop where
  url : IsPostUrl dsn endpoint request.url
  headers : ∃ userinfo key, dsn.userinfo = some userinfo ∧ userinfo ≠ [] ∧
    PercentDecoded userinfo key ∧ request.headers =
    [(ascii "Authorization: Bearer " ++ key).take 511, ascii "Content-Type: application/json"]
  body : request.body = payload

theorem request_iff {dsn : Dsn} {config : Configuration} (hkey : dsn.IsKey config.apiKey)
    (hurl : config.ingestionUrl = some dsn.url) (endpoint : Endpoint) (payload : Bytes)
    (request : Request) :
    endpoint.request config payload = some request ↔ Posts dsn endpoint payload request := by
  obtain ⟨url, hendpoint, hisUrl⟩ := url_isPostUrl hurl endpoint
  unfold Endpoint.request postJson
  rw [hendpoint]
  constructor
  · intro h
    cases hfound : config.apiKey with
    | none => rw [hfound] at h; cases h
    | some key =>
      rw [hfound] at h
      obtain ⟨userinfo, huser, hne, hdecoded⟩ := (isKey_some_iff hkey key).mp hfound
      obtain rfl := Option.some.inj h
      exact ⟨hisUrl, ⟨userinfo, key, huser, hne, hdecoded, rfl⟩, rfl⟩
  · rintro ⟨hposted, ⟨userinfo, key, huser, hne, hdecoded, hheaders⟩, hbody⟩
    rw [(isKey_some_iff hkey key).mpr ⟨userinfo, huser, hne, hdecoded⟩, hisUrl.unique hposted]
    obtain ⟨requestUrl, headers, body⟩ := request
    obtain rfl : headers = _ := hheaders
    obtain rfl : body = payload := hbody
    rfl

/-- A DSN that is read as it was written makes exactly the requests that it says, and no two
endpoints have one URL if and only if that URL ends in "/events". -/
theorem requests_of_dsn (dsn : Dsn) (config : Configuration)
    (h : dsn.userinfo ≠ none ∨ 64 ∉ dsn.tail) :
    let config := { config with dsn := some dsn.text }
    (∀ (endpoint : Endpoint) (payload : Bytes) (request : Request),
      endpoint.request config payload = some request ↔ Posts dsn endpoint payload request) ∧
    ((∀ a b : Endpoint, a.url config = b.url config → a = b) ↔ EndsInEvents dsn) := by
  intro config
  obtain ⟨hkey, hurl⟩ : dsn.IsRead config := by
    cases huser : dsn.userinfo with
    | some userinfo => exact Dsn.isRead_of_userinfo config huser
    | none => exact Dsn.isRead_of_plain config huser (h.resolve_left fun hne => hne huser)
  exact ⟨request_iff hkey hurl, (endpoints_apart_iff config).trans (ingestionUrl_suffix_iff hurl)⟩

theorem plain_of_all {s : Bytes} (h : s.all (fun c => !isDelimiter c) = true) :
    ∀ c ∈ s, isDelimiter c = false := by
  intro c hc
  simpa using List.all_eq_true.mp h c hc

/-- `http://a%2Bb@events`: the host is taken for the last segment. -/
def bareEvents : Dsn where
  scheme := ascii "http"
  userinfo := some (ascii "a%2Bb")
  authority := ascii "events"
  tail := []
  scheme_nonempty := by decide
  scheme_no_colon := by decide
  userinfo_plain := by
    rintro _ ⟨⟩
    exact plain_of_all (by decide)
  userinfo_no_nul := by
    rintro _ ⟨⟩
    exact ⟨by decide, by decide⟩
  authority_nonempty := by decide
  authority_plain := plain_of_all (by decide)
  tail_start := fun _ hc => absurd hc (Option.not_mem_none _)

theorem requests_of_dsn_bareEvents :
    let config : Configuration := { dsn := some bareEvents.text }
    (∀ (endpoint : Endpoint) (payload : Bytes) (request : Request),
      endpoint.request config payload = some request ↔ Posts bareEvents endpoint payload request) ∧
    ((∀ a b : Endpoint, a.url config = b.url config → a = b) ↔ EndsInEvents bareEvents) ∧
    Endpoint.changes.request config [] = some ⟨ascii "http:/" ++ ascii "/changes",
      [ascii "Authorization: Bearer a+b", ascii "Content-Type: application/json"], []⟩ :=
  have hall := requests_of_dsn bareEvents {} (.inl (Option.some_ne_none _))
  ⟨hall.1, hall.2, by decide⟩

end ForgeOps.Client
