import ForgeOpsTracker.Breadcrumbs
import ForgeOpsTracker.EventFailures
import ForgeOpsTracker.Performance
import ForgeOpsTracker.Spans

/-! Texts that go out, or are kept, as they are. Wherever the SDK rewrites a text first, a
rewriting that answers `NULL` for want of memory leaves the text in its place; this module says
exactly when that happens, for the breadcrumbs, the spans and the performance tallies as for the
payload. -/

namespace ForgeOps.Breadcrumbs
open Rewriting PiiScrubber

/-! ## Breadcrumbs -/

/-- A pair's value when it has to be scrubbed. -/
def pairText (config : Configuration) (a : PairAllocations) (pair : Bytes × Bytes) :
    Option Rewriting :=
  if config.scrubPii && !isSensitiveKey
    (some pair.1) then some (scrubbing a.scrubbed pair.2) else none

/-- The values that are scrubbed of the pairs that are copied, from the `i`-th on. -/
def pairTexts (config : Configuration) (a : Nat → PairAllocations) (i : Nat) :
    List (Bytes × Bytes) → List Rewriting
  | [] => []
  | pair :: pairs =>
    match copyPair config (a i) pair with
    | none => []
    | some _ => (pairText config (a i) pair).toList ++ pairTexts config a (i + 1) pairs

def Call.messageText (call : Call) (a : Allocations) (message : Bytes) : Option Rewriting :=
  if call.config.scrubPii then some (scrubbing a.message message) else none

/-- Whether a call gets to encode its entry. -/
def Call.encodes (call : Call) (a : Allocations) (trail : Trail) : Bool :=
  call.enabled && decide (0 < call.maxEntries) && (trail.isSome || a.ring) && a.encoded 0

/-- The texts the entry is first encoded with; a pair may be left out again to make it fit. -/
def Call.texts (call : Call) (a : Allocations) (trail : Trail) : List Rewriting :=
  match call.message with
  | none => []
  | some message =>
    if call.encodes a trail then
      (call.messageText a message).toList ++
        if a.arrays then pairTexts call.config a.pair 0 call.data else []
    else []

/-- Every string of a pair could be copied. -/
def Copied (config : Configuration) (a : PairAllocations) (pair : Bytes × Bytes) : Prop :=
  a.key = true ∧ (a.value = true ∨ config.scrubPii = true ∧ isSensitiveKey (some pair.1) = false ∧
    a.scrubbed = true)

theorem copyPair_isSome (config : Configuration) (a : PairAllocations) (pair : Bytes × Bytes) :
    (copyPair config a pair).isSome ↔ Copied config a pair := by
  obtain ⟨key, scrubbed, value⟩ := a
  unfold copyPair Copied
  generalize isSensitiveKey (some pair.1) = sensitive
  generalize scrubString pair.2 = out
  cases config.scrubPii <;> cases sensitive <;> cases key <;> cases scrubbed <;>
    cases value <;> simp

/-- The copy of a value is what came of scrubbing it. -/
theorem copyPair_value {config : Configuration} {a : PairAllocations} {pair copy : Bytes × Bytes}
    (h : copyPair config a pair = some copy) (hkey : isSensitiveKey (some pair.1) = false) :
    copy = (pair.1, ((pairText config a pair).map used).getD pair.2) := by
  obtain ⟨key, scrubbed, value⟩ := a
  unfold copyPair at h
  unfold pairText
  rw [hkey] at h ⊢
  generalize hout : scrubString pair.2 = out at h
  cases hscrub : config.scrubPii <;> cases key <;> cases scrubbed <;> cases value <;>
    simp_all [scrubbing]

/-- The entry is encoded from what came of scrubbing its message. -/
theorem encoded_texts (call : Call) (a : Allocations) (message : Bytes) : call.encoded a message =
    fitEntry a.encoded (((call.messageText a message).map used).getD message)
      (call.category.getD (ascii "custom")) (call.level.getD (ascii "info"))
      (Calendar.timestamp call.now)
      (if a.arrays then copyPairs call.config a.pair 0 call.data else []) 0 maxMessageBytes
      (if a.arrays then copyPairs call.config a.pair 0 call.data else []).length := by
  have hmessage : ((call.messageText a message).map used).getD message =
      if call.config.scrubPii && a.message then scrubString message else message := by
    unfold Call.messageText
    cases call.config.scrubPii with
    | false => rfl
    | true =>
      simp only [if_true, Option.map_some, Option.getD_some, scrubbing, call_used, Bool.true_and]
  rw [hmessage, Call.encoded]

theorem pairTexts_done {config : Configuration} (hscrub : config.scrubPii = true)
    (a : Nat → PairAllocations) (i : Nat) (pairs : List (Bytes × Bytes)) :
    AllDone (pairTexts config a i pairs) ↔
      ∀ k pair, pairs[k]? = some pair → (∀ j ≤ k, ∀ p ∈ pairs[j]?, Copied config (a (i + j)) p) →
        isSensitiveKey (some pair.1) = false → (a (i + k)).scrubbed = true := by
  induction pairs generalizing i with
  | nil => exact ⟨fun _ k pair h => absurd h (by simp), fun _ => allDone_nil⟩
  | cons pair pairs ih =>
    rw [pairTexts]
    by_cases hcopied : Copied config (a i) pair
    swap
    · rw [← copyPair_isSome, Option.not_isSome_iff_eq_none] at hcopied
      rw [hcopied]
      refine ⟨fun _ k _ _ hall => ?_, fun _ => allDone_nil⟩
      have hfirst := hall 0 (Nat.zero_le k) pair rfl
      rw [Nat.add_zero, ← copyPair_isSome, hcopied] at hfirst
      exact absurd hfirst (by simp)
    have hhead : AllDone (pairText config (a i) pair).toList ↔
        (isSensitiveKey (some pair.1) = false → (a i).scrubbed = true) := by
      rw [pairText, hscrub, Bool.true_and]
      cases isSensitiveKey (some pair.1) with
      | true => exact ⟨fun _ h => absurd h (by simp), fun _ => allDone_nil⟩
      | false =>
        have hcall := allDone_call scrubString (a i).scrubbed (some pair.2)
        exact ⟨fun h _ => hcall.mp h rfl, fun h => hcall.mpr fun _ => h rfl⟩
    obtain ⟨copy, hcopy⟩ := Option.isSome_iff_exists.mp
      ((copyPair_isSome config (a i) pair).mpr hcopied)
    rw [hcopy]
    show AllDone (_ ++ _) ↔ _
    rw [allDone_append, hhead, ih (i + 1)]
    constructor
    · rintro ⟨hfirst, hrest⟩ k p hget hall hkey
      cases k with
      | zero =>
        obtain rfl := Option.some.inj hget
        exact hfirst hkey
      | succ k =>
        rw [← Nat.add_assoc, Nat.add_right_comm]
        refine hrest k p hget (fun j hj q hq => ?_) hkey
        rw [Nat.add_assoc, Nat.add_comm 1]
        exact hall (j + 1) (Nat.succ_le_succ hj) q hq
    · intro hall
      refine ⟨fun hkey => ?_, fun k p hget hcopies hkey => ?_⟩
      · refine hall 0 pair rfl (fun j hj q hq => ?_) hkey
        obtain rfl := Nat.le_zero.mp hj
        obtain rfl := Option.some.inj hq
        exact hcopied
      · rw [Nat.add_assoc, Nat.add_comm 1]
        refine hall (k + 1) p hget (fun j hj q hq => ?_) hkey
        cases j with
        | zero =>
          obtain rfl := Option.some.inj hq
          exact hcopied
        | succ j =>
          rw [← Nat.add_assoc, Nat.add_right_comm]
          exact hcopies j (Nat.le_of_succ_le_succ hj) q hq

theorem pairTexts_unscrubbed {config : Configuration} (hscrub : config.scrubPii = false)
    (a : Nat → PairAllocations) (i : Nat) (pairs : List (Bytes × Bytes)) :
    pairTexts config a i pairs = [] := by
  induction pairs generalizing i with
  | nil => rfl
  | cons pair pairs ih =>
    have htext : pairText config (a i) pair = none := by
      rw [pairText, hscrub]
      rfl
    rw [pairTexts, htext, ih (i + 1)]
    split
    · rfl
    · rfl

/-- Every scrub of a call was answered. -/
structure Call.Answered (call : Call) (a : Allocations) : Prop where
  message : a.message = true
  data : a.arrays = true → ∀ k pair, call.data[k]? = some pair →
    (∀ j ≤ k, ∀ p ∈ call.data[j]?, Copied call.config (a.pair j) p) →
      isSensitiveKey (some pair.1) = false → (a.pair k).scrubbed = true

theorem Call.texts_done (call : Call) (a : Allocations) (trail : Trail) :
    AllDone (call.texts a trail) ↔ (call.config.scrubPii = true → call.message.isSome →
      call.encodes a trail = true → call.Answered a) := by
  unfold Call.texts
  cases call.message with
  | none => exact ⟨fun _ _ h => absurd h (by simp), fun _ => allDone_nil⟩
  | some message =>
    simp only [Option.isSome_some, true_imp_iff]
    cases call.encodes a trail with
    | false => exact ⟨fun _ _ h => absurd h (by simp), fun _ => allDone_nil⟩
    | true =>
      rw [if_pos rfl, allDone_append]
      cases hscrub : call.config.scrubPii with
      | false =>
        have hmessage : call.messageText a message = none := by
          rw [Call.messageText, hscrub]
          rfl
        rw [hmessage, pairTexts_unscrubbed hscrub, ite_self]
        exact ⟨fun _ h => absurd h (by simp), fun _ => ⟨allDone_nil, allDone_nil⟩⟩
      | true =>
        have hmessage : AllDone (call.messageText a message).toList ↔ a.message = true := by
          have hcall := allDone_call scrubString a.message (some message)
          rw [Call.messageText, hscrub]
          exact ⟨fun h => hcall.mp h rfl, fun h => hcall.mpr fun _ => h⟩
        have hdata : AllDone (if a.arrays then pairTexts call.config a.pair 0 call.data else []) ↔
            (a.arrays = true → ∀ k pair, call.data[k]? = some pair →
              (∀ j ≤ k, ∀ p ∈ call.data[j]?, Copied call.config (a.pair j) p) →
                isSensitiveKey (some pair.1) = false → (a.pair k).scrubbed = true) := by
          have hpairs := pairTexts_done hscrub a.pair 0 call.data
          simp only [Nat.zero_add] at hpairs
          cases a.arrays with
          | false => exact ⟨fun _ h => absurd h (by simp), fun _ => allDone_nil⟩
          | true => exact ⟨fun h _ => hpairs.mp h, fun h => hpairs.mpr (h rfl)⟩
        rw [hmessage, hdata]
        exact ⟨fun h _ _ => ⟨h.1, h.2⟩, fun h => ⟨(h rfl rfl).message, (h rfl rfl).data⟩⟩

end ForgeOps.Breadcrumbs

/-! ## Spans -/

namespace ForgeOps.Spans
open Rewriting

/-- A span's name when it has to be rewritten. -/
def nameText (config : Configuration) (span : Span) (alloc : Allocations) : Option Rewriting :=
  if config.strictPrivacy then span.name.map (call StrictPrivacy.spanName alloc.strictName)
  else none

theorem nameText_used (config : Configuration) (span : Span) (alloc : Allocations) :
    (if config.strictPrivacy ∧ alloc.strictName then span.name.map StrictPrivacy.spanName
    else none).or span.name = ((nameText config span alloc).map used).or span.name := by
  unfold nameText
  cases config.strictPrivacy with
  | false => rfl
  | true =>
    cases span.name with
    | none => exact congrArg (Option.or · none) (ite_self none)
    | some name =>
      simp only [true_and, if_true, Option.map_some, call_used]
      split
      · rfl
      · rfl

/-- A span is written with what came of rewriting its name. -/
theorem spanJson_name (config : Configuration) (span : Span) (alloc : Allocations) :
    ascii "\x7b\"span_id\":" ++ JsonText.jsonString span.id.text ++ ascii ",\"parent_span_id\":" ++
      JsonText.jsonStringOrNull (span.parent.map TraceParent.HexId.text) ++ ascii ",\"name\":" ++
        JsonText.jsonString ((((nameText config span alloc).map used).or span.name).getD []) <+:
          spanJson config span alloc := by
  rw [← nameText_used]
  simp only [spanJson, List.append_assoc, List.prefix_append_right_inj]
  exact List.prefix_append _ _

theorem nameText_done (config : Configuration) (span : Span) (alloc : Allocations) :
    AllDone (nameText config span alloc).toList ↔
      (config.strictPrivacy = true → span.name.isSome → alloc.strictName = true) := by
  unfold nameText
  cases config.strictPrivacy with
  | false => exact ⟨fun _ h => absurd h (by simp), fun _ => allDone_nil⟩
  | true =>
    rw [if_pos rfl, allDone_call]
    exact ⟨fun h _ => h, fun h => h rfl⟩

end ForgeOps.Spans

/-! ## Performance -/

namespace ForgeOps.Performance
open Rewriting

/-- A transaction's name when it is tallied and has to be rewritten. -/
def nameText (config : Option Configuration) (transactionName : Option Bytes)
    (alloc : Allocations) : Option Rewriting :=
  match config with
  | none => none
  | some config =>
    if config.trackPerformance ∧ config.isEnabled ∧ config.strictPrivacy then
      transactionName.map (call StrictPrivacy.transactionName alloc.strictName)
    else none

/-- The name that is tallied. -/
theorem nameText_used {δ : Type*} [Zero δ] [Add δ] [Sub δ] [LT δ] [DecidableLT δ] (s : State δ)
    (config : Configuration) (name : Bytes) (durationMs : δ) (now : Nat) (alloc : Allocations) :
    record s (some config) (some name) durationMs now alloc =
      if config.trackPerformance ∧ config.isEnabled then
        tally s (((nameText (some config) (some name) alloc).map used).getD name)
          durationMs now alloc
      else s := by
  simp only [record]
  by_cases hon : config.trackPerformance ∧ config.isEnabled
  · rw [if_pos hon, if_pos hon]
    congr 1
    simp only [nameText, hon.1, hon.2, true_and, Option.map_some]
    cases config.strictPrivacy with
    | false => rfl
    | true =>
      simp only [true_and, if_true, Option.map_some, call_used, Option.getD_some]
      split
      · rfl
      · rfl
  · rw [if_neg hon, if_neg hon]

theorem nameText_done (config : Option Configuration) (transactionName : Option Bytes)
    (alloc : Allocations) : AllDone (nameText config transactionName alloc).toList ↔
      ∀ c ∈ config, c.trackPerformance = true → c.isEnabled = true → c.strictPrivacy = true →
        transactionName.isSome → alloc.strictName = true := by
  cases config with
  | none => exact ⟨fun _ c h => absurd h (by simp), fun _ => allDone_nil⟩
  | some config =>
    simp only [nameText, Option.mem_some_iff, forall_eq']
    by_cases hrewrites : config.trackPerformance ∧ config.isEnabled ∧ config.strictPrivacy
    · rw [if_pos hrewrites, allDone_call]
      exact ⟨fun h _ _ _ => h, fun h => h hrewrites.1 hrewrites.2.1 hrewrites.2.2⟩
    · rw [if_neg hrewrites]
      exact ⟨fun _ h₁ h₂ h₃ => absurd ⟨h₁, h₂, h₃⟩ hrewrites, fun _ => allDone_nil⟩

end ForgeOps.Performance

namespace ForgeOps.EventBuilder
open Rewriting

/-! ## The four call sites -/

/-- No text is written or kept as it is, at any of the places that rewrite one, exactly where every
rewriting that was asked for was answered. -/
theorem rawTexts_iff (config : Configuration) (a : Allocations) (event : Event) (s : Surroundings)
    (call : Breadcrumbs.Call) (crumb : Breadcrumbs.Allocations) (trail : Breadcrumbs.Trail)
    (span : Spans.Span) (spanAlloc : Spans.Allocations)
    (tracked : Option Configuration) (transactionName : Option Bytes)
    (recordAlloc : Performance.Allocations) :
    ((∀ payload ∈ buildEventJsonWithSqlIn config a event s, AllDone payload.scrubbed) ↔
      (config.scrubPii = true → a.payload = true → Answered config a event)) ∧
    (AllDone (call.texts crumb trail) ↔
      (call.config.scrubPii = true → call.message.isSome → call.encodes crumb trail = true →
        call.Answered crumb)) ∧
    (AllDone (Spans.nameText config span spanAlloc).toList ↔
      (config.strictPrivacy = true → span.name.isSome → spanAlloc.strictName = true)) ∧
    (AllDone (Performance.nameText tracked transactionName recordAlloc).toList ↔
      ∀ c ∈ tracked, c.trackPerformance = true → c.isEnabled = true → c.strictPrivacy = true →
        transactionName.isSome → recordAlloc.strictName = true) :=
  ⟨buildEventJsonWithSqlIn_done config a event s, call.texts_done crumb trail,
    Spans.nameText_done config span spanAlloc,
    Performance.nameText_done tracked transactionName recordAlloc⟩

def mailEvent : Event where
  exceptionClass := some (ascii "NotFound")
  message := some (ascii "jane@example.com")

/-- The scrub of the message has no memory, and the message goes out. -/
theorem unscrubbed_message_sent : ∃ payload,
    buildEventJsonWithSqlIn { scrubPii := true } { message := false } mailEvent
      ⟨0, none, none⟩ = some payload ∧ ¬ AllDone payload.scrubbed ∧
        payload.text.take 58 =
        ascii "\x7b\"exception_class\":\"NotFound\",\"message\":\"jane@example.com\"" := by
  refine ⟨_, rfl, fun hall => ?_, rfl⟩
  have hdone := hall (PiiScrubber.scrubbing false (ascii "jane@example.com"))
    (List.mem_append_left _ (List.mem_append_left _ List.mem_cons_self))
  exact absurd ((call_done _ _ _).mp hdone) (by simp)

end ForgeOps.EventBuilder
