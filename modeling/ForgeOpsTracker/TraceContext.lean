import ForgeOpsTracker.OpenTrace

/-! One trace over two services: the header that an outbound call takes along, and what the service
that is called makes of it. -/

namespace ForgeOps.TraceParent

/-! ## What is accepted -/

/-- The fields of a header value: version, trace id, parent id, flags and what newer versions
add. -/
def fields (version traceId parentSpanId flags rest : Bytes) : Bytes :=
  version ++ 45 :: (traceId ++ 45 :: (parentSpanId ++ 45 :: (flags ++ rest)))

/-- A value that carries these two ids. -/
structure IsTraceparent (value : Bytes) (traceId : HexId 32) (parentSpanId : HexId 16) : Prop where
  exists_fields : ∃ version flags rest, value =
    fields version traceId.text parentSpanId.text flags rest ∧ version.length = 2 ∧
    isLowerHex version = true ∧ version ≠ ascii "ff" ∧ flags.length = 2 ∧ isLowerHex flags = true ∧
    (rest = [] ∨ version ≠ ascii "00" ∧ ∃ text, rest = 45 :: text)

theorem drop_of_getElem? {s : Bytes} {n : Nat} {c : UInt8} (h : s[n]? = some c) :
    s.drop n = c :: s.drop (n + 1) := by
  obtain ⟨hlt, hget⟩ := List.getElem?_eq_some_iff.mp h
  rw [List.drop_eq_getElem_cons hlt, hget]

theorem drop_add (s : Bytes) (n m : Nat) :
    s.drop (n + m) = (s.drop n).drop m := by rw [List.drop_drop]

/-- A text with dashes where the fields meet is made of its fields. -/
theorem eq_fields {s : Bytes} (h2 : s[2]? = some 45) (h35 : s[35]? = some 45)
    (h52 : s[52]? = some 45) :
    s = fields (s.take 2) ((s.drop 3).take 32) ((s.drop 36).take 16) ((s.drop 53).take 2)
      (s.drop 55) := by
  have h53 : s.drop 53 = (s.drop 53).take 2 ++ s.drop 55 := by
    rw [(drop_add s 53 2 : s.drop 55 = _), List.take_append_drop]
  have h36 : s.drop 36 = (s.drop 36).take 16 ++ s.drop 52 := by
    rw [(drop_add s 36 16 : s.drop 52 = _), List.take_append_drop]
  have h3 : s.drop 3 = (s.drop 3).take 32 ++ s.drop 35 := by
    rw [(drop_add s 3 32 : s.drop 35 = _), List.take_append_drop]
  calc s
    _ = s.take 2 ++ s.drop 2 := (List.take_append_drop 2 s).symm
    _ = s.take 2 ++ 45 :: s.drop 3 := by rw [drop_of_getElem? h2]
    _ = s.take 2 ++ 45 :: ((s.drop 3).take 32 ++ s.drop 35) := by rw [← h3]
    _ = s.take 2 ++ 45 :: ((s.drop 3).take 32 ++ 45 :: s.drop 36) := by rw [drop_of_getElem? h35]
    _ = s.take 2 ++ 45 :: ((s.drop 3).take 32 ++ 45 :: ((s.drop 36).take 16 ++ s.drop 52)) := by
        rw [← h36]
    _ = s.take 2 ++ 45 :: ((s.drop 3).take 32 ++ 45 ::
        ((s.drop 36).take 16 ++ 45 :: s.drop 53)) := by
      rw [drop_of_getElem? h52]
    _ = _ := by rw [fields, ← h53]

/-- Where the fields of a value stand. -/
theorem fields_at {version flags : Bytes} (hversion : version.length = 2)
    (hflags : flags.length = 2) (traceId : HexId 32) (parentSpanId : HexId 16) (rest : Bytes) :
    let s := fields version traceId.text parentSpanId.text flags rest
    s.take 2 = version ∧ s[2]? = some 45 ∧ (s.drop 3).take 32 = traceId.text ∧ s[35]? = some 45 ∧
      (s.drop 36).take 16 = parentSpanId.text ∧ s[52]? = some 45 ∧ (s.drop 53).take 2 = flags ∧
      s.drop 55 = rest ∧ s.length = 55 + rest.length := by
  intro s
  have htrace := traceId.length_eq
  have hparent := parentSpanId.length_eq
  have hs : s = fields version traceId.text parentSpanId.text flags rest := rfl
  have h2 : s.drop 2 = 45 :: (traceId.text ++ 45 :: (parentSpanId.text ++ 45 :: (flags ++ rest))) :=
    List.drop_left' hversion
  have h3 : s.drop 3 = traceId.text ++ 45 :: (parentSpanId.text ++ 45 :: (flags ++ rest)) := by
    rw [(drop_add s 2 1 : s.drop 3 = _), h2, List.drop_succ_cons, List.drop_zero]
  have h35 : s.drop 35 = 45 :: (parentSpanId.text ++ 45 :: (flags ++ rest)) := by
    rw [(drop_add s 3 32 : s.drop 35 = _), h3]
    exact List.drop_left' htrace
  have h36 : s.drop 36 = parentSpanId.text ++ 45 :: (flags ++ rest) := by
    rw [(drop_add s 35 1 : s.drop 36 = _), h35, List.drop_succ_cons, List.drop_zero]
  have h52 : s.drop 52 = 45 :: (flags ++ rest) := by
    rw [(drop_add s 36 16 : s.drop 52 = _), h36]
    exact List.drop_left' hparent
  have h53 : s.drop 53 = flags ++ rest := by
    rw [(drop_add s 52 1 : s.drop 53 = _), h52, List.drop_succ_cons, List.drop_zero]
  have h55 : s.drop 55 = rest := by
    rw [(drop_add s 53 2 : s.drop 55 = _), h53]
    exact List.drop_left' hflags
  refine ⟨List.take_left' hversion, ?_, ?_, ?_, ?_, ?_, ?_, h55, ?_⟩
  · rw [← List.head?_drop, h2]; rfl
  · rw [h3]; exact List.take_left' htrace
  · rw [← List.head?_drop, h35]; rfl
  · rw [h36]; exact List.take_left' hparent
  · rw [← List.head?_drop, h52]; rfl
  · rw [h53]; exact List.take_left' hflags
  · simp only [hs, fields, List.length_append, List.length_cons, hversion, hflags, htrace, hparent]
    omega

theorem HexId.ofText_text {length : Nat} (id : HexId length) :
    HexId.ofText length id.text = some id :=
  dif_pos ⟨id.length_eq, id.lowerHex, id.nonzero⟩

theorem HexId.ofText_eq_some {length : Nat} {text : Bytes} {id : HexId length}
    (h : HexId.ofText length text = some id) : id.text = text := by
  unfold HexId.ofText at h
  split at h
  · exact (Option.some.inj h) ▸ rfl
  · exact absurd h (by simp)

/-- The parser takes a value if and only if, without the whitespace around it, it carries two ids,
and gives these. -/
theorem parse_eq_some_iff {value : Bytes} {traceId : HexId 32} {parentSpanId : HexId 16} :
    parse (some value) = some (traceId, parentSpanId) ↔
    IsTraceparent (trimmed value) traceId parentSpanId := by
  simp only [parse]
  generalize trimmed value = s
  constructor
  · intro h
    split at h
    · exact absurd h (by simp)
    rename_i hlong
    split at h
    · exact absurd h (by simp)
    rename_i hshape
    simp only [not_or, not_not] at hshape
    obtain ⟨hversion, h2, h35, h52, hflags⟩ := hshape
    split at h
    · exact absurd h (by simp)
    rename_i hff
    split at h
    · exact absurd h (by simp)
    rename_i hrest
    split at h
    swap
    · exact absurd h (by simp)
    rename_i t p ht hp
    obtain ⟨rfl, rfl⟩ := Prod.mk.inj (Option.some.inj h)
    rw [Nat.not_lt, fixedLength] at hlong
    refine ⟨s.take 2, (s.drop 53).take 2, s.drop 55, ?_, ?_, hversion, hff, ?_, hflags, ?_⟩
    · rw [HexId.ofText_eq_some ht, HexId.ofText_eq_some hp]
      exact eq_fields h2 h35 h52
    · exact List.length_take_of_le (by omega)
    · exact List.length_take_of_le (by rw [List.length_drop]; omega)
    · by_cases hlonger : s.length > fixedLength
      · right
        have hboth := not_or.mp fun h => hrest ⟨hlonger, h⟩
        exact ⟨hboth.1, s.drop 56, drop_of_getElem? (not_not.mp hboth.2)⟩
      · left
        rw [fixedLength] at hlonger
        exact List.drop_eq_nil_of_le (by omega)
  · rintro ⟨version, flags, rest, rfl, hversion, hversionHex, hff, hflags, hflagsHex, hrest⟩
    obtain ⟨htake, h2, htrace, h35, hparent, h52, hlast, hdrop, hlength⟩ :=
      fields_at hversion hflags traceId parentSpanId rest
    rw [if_neg (by rw [hlength, fixedLength]; omega),
      if_neg (by simp [htake, h2, h35, h52, hlast, hversionHex, hflagsHex]),
      if_neg (by rwa [htake]), if_neg]
    · simp only [htrace, hparent, HexId.ofText_text]
    · rintro ⟨hlonger, hbad⟩
      rw [hlength, fixedLength] at hlonger
      rcases hrest with rfl | ⟨hversion0, text, rfl⟩
      · simp at hlonger
      · rcases hbad with hbad | hbad
        · exact hversion0 (htake ▸ hbad)
        · rw [fixedLength, ← List.head?_drop, hdrop] at hbad
          exact hbad rfl

/-- `forgeops_traceparent_parse` with its two out-parameters, as they stand before and after. -/
def parseInto (value : Option Bytes) (traceId parentSpanId : Bytes) : Nat × Bytes × Bytes :=
  match parse value with
  | some ids => (1, ids.1.text, ids.2.text)
  | none => (0, traceId, parentSpanId)

theorem parseInto_eq_one_iff (value : Option Bytes) (traceId parentSpanId : Bytes) :
    (parseInto value traceId parentSpanId).1 = 1 ↔ ∃ v t p, value = some v ∧
    IsTraceparent (trimmed v) t p := by
  constructor
  · intro h
    cases value with
    | none => exact absurd h (by simp [parseInto, parse])
    | some v =>
      cases hparse : parse (some v) with
      | none => simp [parseInto, hparse] at h
      | some ids => exact ⟨v, ids.1, ids.2, rfl, parse_eq_some_iff.mp hparse⟩
  · rintro ⟨v, t, p, rfl, h⟩
    rw [parseInto, parse_eq_some_iff.mpr h]

theorem parseInto_eq_zero {value : Option Bytes} {traceId parentSpanId : Bytes}
    (h : (parseInto value traceId parentSpanId).1 = 0) :
    parseInto value traceId parentSpanId = (0, traceId, parentSpanId) := by
  unfold parseInto at h ⊢
  split at h
  · exact absurd h (by simp)
  · rfl

/-! ## What is written -/

def traceparentSize : Nat := 56

/-- `forgeops_traceparent_build` -/
def build (traceId : HexId 32) (spanId : HexId 16) : Bytes :=
  Printf.snprintf traceparentSize
    (ascii "00-" ++ traceId.text.take 32 ++ ascii "-" ++ spanId.text.take 16 ++ ascii "-01")

theorem build_eq (traceId : HexId 32) (spanId : HexId 16) :
    build traceId spanId = fields (ascii "00") traceId.text spanId.text (ascii "01") [] := by
  have htrace := traceId.length_eq
  have hspan := spanId.length_eq
  have htext : ascii "00-" ++ traceId.text.take 32 ++ ascii "-" ++
      spanId.text.take 16 ++ ascii "-01" = fields (ascii "00") traceId.text spanId.text
      (ascii "01") [] := by
    rw [List.take_of_length_le (by omega), List.take_of_length_le (by omega)]
    simp [fields, ascii]
  rw [build, htext, Printf.snprintf_of_fits]
  have hlength := (@fields_at (ascii "00") (ascii "01") rfl rfl traceId spanId []).2.2.2.2.2.2.2.2
  rw [hlength, traceparentSize]
  exact Nat.lt_succ_self 55

/-- The parser reads the ids that were written, also with whitespace around them. -/
theorem parse_build {traceId : HexId 32} {spanId : HexId 16} {value : Bytes}
    (h : trimmed value = build traceId spanId) : parse (some value) = some (traceId, spanId) := by
  rw [parse_eq_some_iff, h, build_eq]
  exact ⟨ascii "00", ascii "01", [], rfl, rfl, rfl, by decide, rfl, rfl, .inl rfl⟩

/-! ## Where it is written to -/

/-- `forgeops_url_host`; `none` for 0. -/
def urlHost (url : Option Bytes) (outSize : Nat) : Option Bytes :=
  match url with
  | none => none
  | some url =>
    match Configuration.splitAtFirst (ascii "://") url with
    | none => none
    | some (scheme, rest) =>
      if scheme = [] then none
      else
        let host := StrictPrivacy.afterLastAt (rest.takeWhile fun c => c ≠ 47 ∧ c ≠ 63 ∧ c ≠ 35)
        let length := match host with
          | 91 :: _ => if host.contains 93 then (host.takeWhile (· ≠ 93)).length + 1 else 0
          | _ => (host.takeWhile (· ≠ 58)).length
        if length = 0 ∨ length ≥ outSize then none else some ((host.take length).map Byte.toLower)

/-- The fields of the configuration about where a trace goes on: `propagate_traces` and
`trace_propagation_targets`. -/
structure Propagation where
  propagateTraces : Bool := true
  tracePropagationTargets : Option (List (Option Bytes)) := none

/-- `host_matches_target` -/
def hostMatchesTarget (host : Bytes) : Option Bytes → Bool
  | none => false
  | some target =>
    let target := if target.head? = some 46 then target.drop 1 else target
    if target = [] ∨ host.length < target.length then false
    else if host.length = target.length then equalsIgnoringCase host target
    else host[host.length - target.length - 1]? = some 46 &&
      equalsIgnoringCase (host.drop (host.length - target.length)) target

/-- `forgeops_configuration_should_propagate_trace` -/
def shouldPropagateTrace (config : Option Propagation) (host : Option Bytes) : Bool :=
  match config with
  | none => false
  | some config =>
    if ¬ config.propagateTraces then false
    else
      match config.tracePropagationTargets, host with
      | none, _ => true
      | some _, none => false
      | some targets, some host => if host = [] then false else targets.any (hostMatchesTarget host)

end ForgeOps.TraceParent

namespace ForgeOps.Spans
open TraceParent JsonText

/-- `forgeops_http_span_t`; its state is the handle of that number. -/
structure HttpSpan where
  name : Bytes
  traceparent : Bytes
  header : Bytes
  handle : Nat

def httpSpanNameSize : Nat := 300
def traceparentHeaderLineSize : Nat := 69

def httpSpanName (method host : Option Bytes) : Bytes :=
  let method := ((method.getD (ascii "GET")).map Byte.toUpper).take (httpSpanNameSize - 1)
  method ++ Printf.snprintf (httpSpanNameSize - method.length)
    (ascii " " ++ host.getD (ascii "unknown"))

/-- `forgeops_tracker_http_span_start` -/
def httpSpanStart (s : State) (config : Option Propagation) (method url : Option Bytes)
    (id : HexId 16) (startedAtUnixMs : Int) : State × HttpSpan :=
  let host := urlHost url 256
  let s' := start s id startedAtUnixMs
  let handle := s.handles.length
  let traceparent :=
    match s'.handles[handle]?.join, s'.trace with
    | some state, some trace =>
      if shouldPropagateTrace config host then build trace.traceId state.id else []
    | _, _ => []
  let header := if traceparent = [] then []
    else Printf.snprintf traceparentHeaderLineSize (ascii "traceparent: " ++ traceparent)
  (s', ⟨httpSpanName method host, traceparent, header, handle⟩)

/-- `forgeops_tracker_http_span_stop_with_data` -/
def httpSpanStop (s : State) (config : Option Configuration) (span : HttpSpan)
    (durationMs : Double) (data : Data) (alloc : Allocations) : State :=
  stop s config span.handle (some span.name) (some (ascii "http")) durationMs data alloc

/-- A header goes out only with a span, and names the trace and the span. -/
theorem httpSpanStart_header {s : State} {config : Option Propagation} {method url : Option Bytes}
    {id : HexId 16} {startedAtUnixMs : Int} {span : HttpSpan} {s' : State}
    (hstart : httpSpanStart s config method url id startedAtUnixMs = (s', span))
    (h : span.header ≠ []) :
    ∃ trace, s.trace = some trace ∧ s' = start s id startedAtUnixMs ∧
    span.handle = s.handles.length ∧
      s'.handles[span.handle]? = some (some ⟨id, trace.currentParent, startedAtUnixMs⟩) ∧
      span.traceparent = build trace.traceId id ∧
      span.header = ascii "traceparent: " ++ build trace.traceId id := by
  have hs' : start s id startedAtUnixMs = s' := congrArg Prod.fst hstart
  have hspan : (httpSpanStart s config method url id startedAtUnixMs).2 = span :=
    congrArg Prod.snd hstart
  have hheader : span.header = if span.traceparent = [] then [] else
      Printf.snprintf traceparentHeaderLineSize (ascii "traceparent: " ++ span.traceparent) := by
    rw [← hspan]
    rfl
  have hpresent : span.traceparent ≠ [] := by
    intro hempty
    rw [hheader, if_pos hempty] at h
    exact h rfl
  cases htrace : s.trace with
  | none =>
    exfalso
    apply hpresent
    rw [← hspan]
    simp only [httpSpanStart, start, htrace, List.getElem?_concat_length]
    rfl
  | some trace =>
    have hhandle : s'.handles[s.handles.length]? =
        some (some ⟨id, trace.currentParent, startedAtUnixMs⟩) := by
      rw [← hs']
      simp only [start, htrace, List.getElem?_concat_length]
    have hvalue : span.traceparent =
        if shouldPropagateTrace config (urlHost url 256) then build trace.traceId id else [] := by
      rw [← hspan]
      simp only [httpSpanStart, start, htrace, List.getElem?_concat_length, Option.join_some]
    have hbuilt : span.traceparent = build trace.traceId id := by
      by_cases hpropagate : shouldPropagateTrace config (urlHost url 256) = true
      · rw [hvalue, if_pos hpropagate]
      · exact absurd (hvalue.trans (if_neg hpropagate)) hpresent
    refine ⟨trace, rfl, hs'.symm, ?_, ?_, hbuilt, ?_⟩
    · rw [← hspan]
      rfl
    · rw [← hspan]
      exact hhandle
    · rw [hheader, if_neg hpresent, hbuilt, Printf.snprintf_of_fits]
      have hlength := (@fields_at (ascii "00") (ascii "01") rfl rfl trace.traceId id
        []).2.2.2.2.2.2.2.2
      rw [List.length_append, build_eq, hlength, traceparentHeaderLineSize]
      decide

/-! ## The span here -/

/-- The span of a handle keeps its id until it stops. -/
def Handle (i : Nat) (id : HexId 16) (s : State) : Prop :=
  i < s.handles.length ∧ ∀ state ∈ s.handles[i]?.join, state.id = id

theorem step_handle {i : Nat} {id : HexId 16} (s : State) (a : Action) (t : State)
    (h : Handle i id s) (ht : step s a = some t) : Handle i id t := by
  obtain ⟨hlt, hid⟩ := h
  cases a with
  | traceBegin config traceparent randomTraceId rootSpanId allocated =>
    obtain rfl := Option.some.inj ht
    rcases traceBegin_cases s config traceparent randomTraceId rootSpanId allocated with
      heq | ⟨-, trace, -, -, -, heq⟩
    · rw [heq]
      exact ⟨hlt, hid⟩
    · rw [heq]
      exact ⟨hlt, hid⟩
  | traceEnd config rootName startedAtUnixMs durationMs allocated alloc =>
    obtain rfl := Option.some.inj ht
    have hhandles := (traceEnd_trace s config rootName startedAtUnixMs durationMs allocated alloc).2
    rw [Handle, hhandles]
    exact ⟨hlt, hid⟩
  | start id' startedAtUnixMs =>
    obtain rfl := Option.some.inj ht
    have hhandles : ∃ new, (start s id' startedAtUnixMs).handles = s.handles ++ [new] := by
      unfold start
      split <;> exact ⟨_, rfl⟩
    obtain ⟨new, hnew⟩ := hhandles
    rw [Handle, hnew, List.getElem?_append_left hlt, List.length_append]
    exact ⟨Nat.lt_add_right _ hlt, hid⟩
  | stop config j name kind durationMs data alloc =>
    obtain rfl := Option.some.inj ht
    have hset : ∀ state ∈ (s.handles.set j none)[i]?.join, state.id = id := by
      intro state hstate
      rw [List.getElem?_set] at hstate
      split at hstate
      · split at hstate <;> exact absurd hstate (by simp)
      · exact hid state hstate
    rcases stop_cases s config j name kind durationMs data alloc with
      ⟨-, heq⟩ | ⟨state, -, ⟨-, heq⟩ | ⟨trace, config', span, -, -, -, -, heq⟩⟩
    · rw [heq]
      exact ⟨hlt, hid⟩
    · rw [heq]
      exact ⟨by simpa using hlt, hset⟩
    · rw [heq]
      exact ⟨by simpa using hlt, hset⟩
  | record config id' name kind startedAtUnixMs durationMs data alloc =>
    obtain rfl := Option.some.inj ht
    rcases record_cases s config id' name kind startedAtUnixMs durationMs data alloc with
      heq | ⟨trace, config', span, -, -, -, heq⟩
    · rw [heq]
      exact ⟨hlt, hid⟩
    · rw [heq]
      exact ⟨hlt, hid⟩

/-- Whatever a stop of the handle adds to a trace has its id. -/
theorem stop_id {s : State} {i : Nat} {id : HexId 16} (h : Handle i id s)
    {config : Option Configuration} {name kind : Option Bytes} {durationMs : Double} {data : Data}
    {alloc : Allocations} {trace after : Trace} (htrace : s.trace = some trace)
    (hafter : (stop s config i name kind durationMs data alloc).trace = some after) :
    after.traceId = trace.traceId ∧ ∀ f ∈ after.spans, f ∈ trace.spans ∨ f.span.id = id := by
  rcases stop_cases s config i name kind durationMs data alloc with
    ⟨-, heq⟩ | ⟨state, hi, ⟨-, heq⟩ | ⟨trace', config', span, htrace', -, hspan, -, heq⟩⟩
  · rw [heq, htrace] at hafter
    obtain rfl := Option.some.inj hafter
    exact ⟨rfl, fun f hf => .inl hf⟩
  · rw [heq] at hafter
    obtain rfl : trace = after := Option.some.inj (htrace.symm.trans hafter)
    exact ⟨rfl, fun f hf => .inl hf⟩
  · obtain rfl : trace = trace' := Option.some.inj (htrace.symm.trans htrace')
    rw [heq] at hafter
    obtain rfl := Option.some.inj hafter
    refine ⟨by rw [Trace.record_eq]; rfl, fun f hf => ?_⟩
    rw [Trace.record_spans] at hf
    rcases List.mem_append.mp hf with hf | hf
    · exact .inl hf
    · right
      split at hf
      · obtain rfl := List.mem_singleton.mp hf
        exact hspan.trans (h.2 state (by simp [hi]))
      · exact absurd hf List.not_mem_nil

/-! ## The trace there -/

/-- A trace is open that carries on these ids, under this `track_tracing`. -/
def CarriesOn (traceId : HexId 32) (parentSpanId : HexId 16) (send : Bool) (s : State) : Prop :=
  ∃ trace, s.trace = some trace ∧ trace.traceId = traceId ∧ trace.remoteParentSpanId =
    some parentSpanId ∧ trace.send = send

/-- A service that begins its trace with the header carries the ids on. -/
theorem traceBegin_carriesOn {s : State} (hs : s.trace = none) {config : Configuration}
    (henabled : config.isEnabled = true) {traceId : HexId 32} {spanId : HexId 16} {value : Bytes}
    (hvalue : trimmed value = build traceId spanId) (randomTraceId : HexId 32)
    (rootSpanId : HexId 16) : CarriesOn traceId spanId config.trackTracing
      (traceBegin s (some config) (some value) randomTraceId rootSpanId true) := by
  rw [traceBegin_opened hs henabled]
  refine ⟨_, rfl, ?_, ?_, rfl⟩
  · simp only [opened, parse_build hvalue, Option.map_some, Option.getD_some]
  · simp only [opened, parse_build hvalue, Option.map_some]

/-- Until the trace ends nothing changes its ids. -/
theorem step_carriesOn {traceId : HexId 32} {parentSpanId : HexId 16} {send : Bool} (s : State)
    (a : Action) (t : State) (h : CarriesOn traceId parentSpanId send s) (ha : ¬ EndsTrace a)
    (ht : step s a = some t) : CarriesOn traceId parentSpanId send t := by
  obtain ⟨trace, htrace, hid, hparent, hsend⟩ := h
  obtain ⟨after, hafter, hcontinues⟩ := step_continues ha ht htrace
  exact ⟨after, hafter, hcontinues.traceId.trans hid, hcontinues.remoteParentSpanId.trans hparent,
    hcontinues.send.trans hsend⟩

theorem prefix_spanJson (config : Configuration) (span : Span) (alloc : Allocations) :
    ascii "\x7b\"span_id\":" ++ jsonString span.id.text ++ ascii ",\"parent_span_id\":" ++
      jsonStringOrNull (span.parent.map HexId.text) <+: spanJson config span alloc := by
  simp only [spanJson, List.append_assoc, List.prefix_append_right_inj]
  exact List.prefix_append _ _

theorem prefix_commaSeparated (x : Bytes) (xs : List Bytes) : x <+: commaSeparated (x :: xs) := by
  cases xs with
  | nil => exact List.prefix_refl x
  | cons y ys =>
    rw [commaSeparated, List.append_assoc]
    exact List.prefix_append x _

/-- A body that belongs to this trace and whose root hangs under this span. -/
def RootUnder (traceId : HexId 32) (parentSpanId : HexId 16) (body : Bytes) : Prop :=
  ∃ rootSpanId : HexId 16,
    ascii "\x7b\"trace_id\":\"" ++ traceId.text ++ ascii "\",\"spans\":[\x7b\"span_id\":" ++
      jsonString rootSpanId.text ++ ascii ",\"parent_span_id\":" ++
      jsonString parentSpanId.text <+: body

/-- A body starts with the trace id and the root. -/
theorem Trace.body_rootUnder (trace : Trace) (config : Configuration) (rootName : Option Bytes)
    (startedAtUnixMs : Int) (durationMs : Double) (alloc : Allocations) {parentSpanId : HexId 16}
    (hparent : trace.remoteParentSpanId = some parentSpanId) :
    RootUnder trace.traceId parentSpanId
      (trace.body config (trace.root rootName startedAtUnixMs durationMs) alloc) := by
  let root := trace.root rootName startedAtUnixMs durationMs
  have hroot : ascii "\x7b\"span_id\":" ++ jsonString trace.rootSpanId.text ++
      ascii ",\"parent_span_id\":" ++ jsonString parentSpanId.text <+:
      spanJson config root alloc := by
    have h := prefix_spanJson config root alloc
    simpa only [root, Trace.root, hparent, Option.map_some, jsonStringOrNull] using h
  obtain ⟨rest, hrest⟩ := hroot.trans (prefix_commaSeparated _ (trace.spans.map Finished.json))
  have hlabel : ascii "\",\"spans\":[\x7b\"span_id\":" =
      ascii "\",\"spans\":[" ++ ascii "\x7b\"span_id\":" := rfl
  refine ⟨trace.rootSpanId, rest ++ ascii "]\x7d", ?_⟩
  rw [Trace.body, ← hrest, hlabel]
  simp only [List.append_assoc]

/-- What a trace that carries these ids on sends when it ends: nothing else, and its body where it
is sent. -/
theorem traceEnd_carriesOn {traceId : HexId 32} {parentSpanId : HexId 16} {send : Bool} {s : State}
    (h : CarriesOn traceId parentSpanId send s) (config : Option Configuration)
    (rootName : Option Bytes) (startedAtUnixMs : Int) (durationMs : Double) (allocated : Bool)
    (alloc : Allocations) :
    (∀ body ∈ (traceEnd s config rootName startedAtUnixMs durationMs allocated alloc).sent,
      body ∈ s.sent ∨ RootUnder traceId parentSpanId body) ∧
    ∀ c,
      config = some c → send = true → Double.le (.finite c.traceCaptureThresholdMs) durationMs =
        true → allocated = true →
      ∃ body,
        (traceEnd s config rootName startedAtUnixMs durationMs allocated alloc).sent =
          s.sent ++ [body] ∧ RootUnder traceId parentSpanId body := by
  obtain ⟨trace, htrace, rfl, hparent, rfl⟩ := h
  have hbody := fun c => Trace.body_rootUnder trace c rootName startedAtUnixMs
    durationMs alloc hparent
  constructor
  · intro body hmem
    unfold traceEnd at hmem
    rw [htrace] at hmem
    cases config with
    | none => exact .inl hmem
    | some c =>
      dsimp only at hmem
      split at hmem
      · rcases List.mem_append.mp hmem with hmem | hmem
        · exact .inl hmem
        · obtain rfl := List.mem_singleton.mp hmem
          exact .inr (hbody c)
      · exact .inl hmem
  · rintro c rfl hsend hthreshold hallocated
    have hsent : trace.isSent c durationMs = true ∧ allocated = true := by
      rw [Trace.isSent, hsend, hthreshold]
      exact ⟨rfl, hallocated⟩
    refine ⟨_, ?_, hbody c⟩
    simp only [traceEnd, htrace, if_pos hsent]

/-- What is recorded here of a call: nothing under another id; and the first stop in the trace that
the header names records it there under this id while there is room. -/
structure RecordedHere (begun : Trace) (id : HexId 16) (startedAtUnixMs : Int)
    (span : HttpSpan) (s : State) (here : List Action) (t : State) : Prop where
  only : ∀ config durationMs data alloc before after, t.trace = some before →
    (httpSpanStop t config span durationMs data alloc).trace = some after →
    ∀ f ∈ after.spans, f ∈ before.spans ∨ f.span.id = id
  first : Runs.EveryStep step (fun _ a => ¬ EndsTrace a ∧ ¬ StopsSpan span.handle a) s here →
    ∃ before, t.trace = some before ∧ before.traceId = begun.traceId ∧
      ∀ config durationMs data alloc, before.hasRoom → ∃ after parent,
        (httpSpanStop t (some config) span durationMs data alloc).trace = some after ∧
        after.spans = before.spans ++
          [⟨⟨id, some parent, some span.name, some (ascii "http"), startedAtUnixMs,
              durationMs, data⟩,
            spanJson config ⟨id, some parent, some span.name, some (ascii "http"), startedAtUnixMs,
              durationMs, data⟩ alloc⟩]

/-- What the service delivers that was called with the header: its trace has the id of the caller's,
and where it is sent, the body has a root that hangs under the span of the call. -/
structure DeliveredThere (traceId : HexId 32) (id : HexId 16) (config : Configuration)
    (u : State) : Prop where
  carriesOn : CarriesOn traceId id config.trackTracing u
  only : ∀ endConfig rootName startedAtUnixMs durationMs allocated alloc,
    ∀ body ∈ (traceEnd u endConfig rootName startedAtUnixMs durationMs allocated alloc).sent,
      body ∈ u.sent ∨ RootUnder traceId id body
  sends : ∀ (endConfig : Configuration) rootName startedAtUnixMs durationMs alloc,
    config.trackTracing = true →
    Double.le (.finite endConfig.traceCaptureThresholdMs) durationMs = true →
    ∃ body, (traceEnd u (some endConfig) rootName startedAtUnixMs durationMs true alloc).sent =
      u.sent ++ [body] ∧ RootUnder traceId id body

/-- The parser takes exactly the values that carry two ids and writes nothing for others; and a
service that begins its trace with the header of a call has the trace id of the caller and delivers
a root under the id that the call is recorded with, whatever both do in between. -/
theorem trace_context :
    (∀ value traceId parentSpanId,
      ((parseInto value traceId parentSpanId).1 = 1 ↔
        ∃ v t p, value = some v ∧ IsTraceparent (trimmed v) t p) ∧
      ((parseInto value traceId parentSpanId).1 = 0 →
        parseInto value traceId parentSpanId = (0, traceId, parentSpanId))) ∧
    ∀ s config method url id startedAtUnixMs s' span,
      httpSpanStart s config method url id startedAtUnixMs = (s', span) → span.header ≠ [] →
      ∃ trace, s.trace = some trace ∧ span.header = ascii "traceparent: " ++ span.traceparent ∧
        (∀ here t, Runs.exec step s' here = some t →
          RecordedHere trace id startedAtUnixMs span s' here t) ∧
        ∀ value r config randomTraceId rootSpanId there u,
          trimmed value = span.traceparent → r.trace = none → config.isEnabled = true →
          Runs.EveryStep step (fun _ a => ¬ EndsTrace a)
            (traceBegin r (some config) (some value) randomTraceId rootSpanId true) there →
          Runs.exec step (traceBegin r (some config) (some value) randomTraceId rootSpanId true)
            there = some u →
          DeliveredThere trace.traceId id config u := by
  refine ⟨fun value traceId parentSpanId => ⟨parseInto_eq_one_iff value traceId parentSpanId,
    parseInto_eq_zero⟩, ?_⟩
  intro s config method url id startedAtUnixMs s' span hstart hheader
  obtain ⟨trace, htrace, hs', hhandle, hactive, htraceparent, heq⟩ :=
    httpSpanStart_header hstart hheader
  refine ⟨trace, htrace, htraceparent ▸ heq, ?_, ?_⟩
  · intro here t hrun
    constructor
    · intro config durationMs data alloc before after hbefore hafter
      have hstarted : Handle span.handle id s' :=
        ⟨(List.getElem?_eq_some_iff.mp hactive).1, by simp [hactive]⟩
      have hkept : Handle span.handle id t :=
        (Runs.always_of_invariant step_handle s' here hstarted).last hrun
      exact (stop_id hkept hbefore hafter).2
    · intro hsteps
      have hstarted : step s (.start id startedAtUnixMs) = some s' := congrArg some hs'.symm
      have hgoes : ¬ EndsTrace (.start id startedAtUnixMs) := not_false
      have hwithin : Within trace span.handle ⟨id, trace.currentParent, startedAtUnixMs⟩ s' :=
        ⟨hactive, step_continues hgoes hstarted htrace⟩
      obtain ⟨hstill, before, hbefore, hsame⟩ :=
        (Runs.always_of_steps step_within s' here hwithin hsteps).last hrun
      refine ⟨before, hbefore, hsame.traceId, fun config durationMs data alloc hroom => ?_⟩
      obtain ⟨after, hafter, hspans⟩ :=
        stop_active hstill hbefore hroom config (some span.name) (some (ascii "http"))
        durationMs data alloc
      exact ⟨after, trace.currentParent, hafter, hspans⟩
  · intro value r config randomTraceId rootSpanId there u hvalue hr henabled hopen hrun
    have hbegun := traceBegin_carriesOn hr henabled
      (hvalue.trans htraceparent) randomTraceId rootSpanId
    have hcarried : CarriesOn trace.traceId id config.trackTracing u :=
      (Runs.always_of_steps step_carriesOn _ there hbegun hopen).last hrun
    have hends := fun endConfig rootName startedAtUnixMs durationMs allocated alloc =>
      traceEnd_carriesOn hcarried endConfig rootName startedAtUnixMs durationMs allocated alloc
    refine ⟨hcarried, fun _ _ _ _ _ _ => (hends _ _ _ _ _ _).1, ?_⟩
    intro endConfig rootName startedAtUnixMs durationMs alloc hsend hthreshold
    exact (hends (some endConfig) rootName startedAtUnixMs durationMs true alloc).2 endConfig rfl
      hsend hthreshold rfl

def caller : State := (step initial begun).get rfl

def calling : HttpSpan :=
  (httpSpanStart caller (some {}) none (some (ascii "https://pay.example/in")) lateId 0).2

/-- A call with a header is recorded at its stop, and a service that begins its trace with the
header and ends it at once sends a root under the call. -/
theorem trace_context_calling :
    (∃ after parent,
        (httpSpanStop (start caller lateId 0) (some capturing) calling (.finite 3) []
          {}).trace = some after ∧
      after.spans.map Finished.span =
        [⟨lateId, some parent, some (ascii "GET pay.example"), some (ascii "http"), 0,
        .finite 3, []⟩]) ∧
    ∃ body, (traceEnd (traceBegin initial (some capturing) (some calling.traceparent)
        ⟨ascii "53995c3f42cd8ad853995c3f42cd8ad8", rfl, rfl, rfl⟩
          ⟨ascii "53995c3f42cd8ad8", rfl, rfl, rfl⟩ true)
      (some capturing) none 0 (.finite 0) true {}).sent = [body] ∧
      RootUnder ⟨ascii "0af7651916cd43dd8448eb211c80319c", rfl, rfl, rfl⟩ lateId body := by
  obtain ⟨trace, htrace, -, hhere, hthere⟩ :=
    trace_context.2 caller (some {}) none
      (some (ascii "https://pay.example/in")) lateId 0 _ calling rfl (by decide)
  obtain rfl := Option.some.inj htrace
  constructor
  · obtain ⟨before, hbefore, -, hrecords⟩ := (hhere [] _ rfl).first trivial
    obtain rfl := Option.some.inj hbefore
    obtain ⟨after, parent, hafter, hspans⟩ := hrecords capturing (.finite 3) [] {} (by decide)
    exact ⟨after, parent, hafter, by rw [hspans]; rfl⟩
  · exact (hthere calling.traceparent initial capturing _ _ [] _ (by decide) rfl
      (by decide) trivial rfl).sends capturing
      none 0 (.finite 0) {} rfl (by decide)

end ForgeOps.Spans
