import Mathlib.Algebra.Order.Group.Defs
import Mathlib.Algebra.BigOperators.Group.List.Basic
import ForgeOpsTracker.Performance
import ForgeOpsTracker.Flushes

/-! What became of every performance record: per name, the number and the sum of the
durations recorded is what the batches let go took with them and what the bucket still
holds, as long as flushes do not overlap. Durations are of any ordered group: exact
arithmetic. -/

namespace ForgeOps.Performance
open Client Flushes

variable {δ : Type*}

/-- A flush starts only when no other one is under way, and durations are not negative. -/
def Serial [Zero δ] [LE δ] (s : State δ) : Action δ → Prop
  | .record _ _ durationMs _ _ => 0 ≤ durationMs
  | .flushSnapshot _ _ => s.flushes = []
  | .flushSubtraction _ _ => True

instance [Zero δ] [LE δ] [DecidableLE δ] [DecidableEq δ] (s : State δ) : ∀ a, Decidable (Serial s a)
  | .record _ _ durationMs _ _ => inferInstanceAs (Decidable (0 ≤ durationMs))
  | .flushSnapshot _ _ => inferInstanceAs (Decidable (_ = []))
  | .flushSubtraction _ _ => inferInstanceAs (Decidable True)

/-- No step of the code reads the history. -/
structure Ledger (δ : Type*) where
  state : State δ
  finished : List (Finished (Flush δ))
  deriving DecidableEq, Repr

namespace Ledger

def initial : Ledger δ := ⟨Performance.initial, []⟩

section
variable [Zero δ] [Add δ] [Sub δ] [LT δ] [DecidableLT δ]

/-- The history after a step. -/
def finishedAfter (l : Ledger δ) : Action δ → List (Finished (Flush δ))
  | .flushSubtraction i status =>
    l.finished ++ (l.state.flushes[i]?).toList.map fun f => ⟨f, status, letsGo l.state status⟩
  | _ => l.finished

/-- A step of the code, and the history it makes. -/
def step (l : Ledger δ) (a : Action δ) : Option (Ledger δ) :=
  (Performance.step l.state a).map fun s => ⟨s, l.finishedAfter a⟩

/-- The history changes nothing. -/
theorem step_state (l : Ledger δ) (a : Action δ) :
    (l.step a).map Ledger.state = Performance.step l.state a := by
  rw [step, Option.map_map]
  exact Option.map_id'

end

/-! ## Amounts -/

section
variable [Zero δ]

/-- A number of records and the sum of their durations. -/
def amount (b : Bucket δ) : ℕ × δ := (b.count, b.durationSumMs)

/-- What the bucket of a name holds. -/
def amountOf (name : Bytes) (buckets : List (Bucket δ)) : ℕ × δ :=
  (findBucket name buckets).elim 0 amount

variable [Add δ]

/-- What was recorded under a name. -/
def recorded (name : Bytes) (records : List (Record δ)) : ℕ × δ :=
  ((records.filter fun r => r.name = name).map fun r => (1, r.durationMs)).sum

/-- What the batches let go took with them. -/
def taken (name : Bytes) (finished : List (Finished (Flush δ))) : ℕ × δ :=
  ((settled finished).map fun f => amountOf name f.snapshot).sum

/-- Nothing recorded is lost or counted twice. -/
def Balanced (l : Ledger δ) : Prop :=
  ∀ name, recorded name l.state.accepted = taken name l.finished + amountOf name l.state.buckets

/-- A failed batch is let go by the fifth failed flush in a row only. -/
def FifthOnly (l : Ledger δ) : Prop :=
  LastOnly maxConsecutiveFailures l.finished l.state.consecutiveFailures

end

variable [AddCommGroup δ]

theorem recorded_append (name : Bytes) (rs qs : List (Record δ)) :
    recorded name (rs ++ qs) = recorded name rs + recorded name qs := by
  rw [recorded, List.filter_append, List.map_append, List.sum_append]
  rfl

theorem recorded_singleton (name : Bytes) (r : Record δ) :
    recorded name [r] = if r.name = name then (1, r.durationMs) else 0 := by
  by_cases h : r.name = name <;> simp [recorded, h]

theorem taken_concat (name : Bytes) (finished : List (Finished (Flush δ)))
    (g : Finished (Flush δ)) : taken name (finished ++ [g]) =
      taken name finished + if g.letGo then amountOf name g.batch.snapshot else 0 := by
  rw [taken, settled_concat, List.map_append, List.sum_append]
  split
  · rw [List.map_singleton, List.sum_singleton]
    rfl
  · rfl

/-- No record, no duration. -/
theorem recorded_eq_zero {name : Bytes} {rs : List (Record δ)} (h : (recorded name rs).1 = 0) :
    recorded name rs = 0 := by
  induction rs with
  | nil => rfl
  | cons r rs ih =>
    rw [← List.singleton_append, recorded_append, recorded_singleton] at h ⊢
    split at h
    · rw [Prod.fst_add] at h
      exact absurd h (by simp)
    · rename_i hname
      rw [if_neg hname, zero_add] at *
      exact ih h

theorem amountOf_found {name : Bytes} {buckets : List (Bucket δ)} {b : Bucket δ}
    (h : findBucket name buckets = some b) : amountOf name buckets = amount b := by
  rw [amountOf, h]
  rfl

theorem amountOf_none {name : Bytes} {buckets : List (Bucket δ)}
    (h : findBucket name buckets = none) : amountOf name buckets = 0 := by
  rw [amountOf, h]
  rfl

/-- Every bucket counts something. -/
def AllCounted (buckets : List (Bucket δ)) : Prop :=
  ∀ name b, findBucket name buckets = some b → 0 < b.count

variable [LinearOrder δ]

/-- What the amounts are after a record. -/
theorem amountOf_tally {name : Bytes} {durationMs : δ} {s t : State δ}
    (h : Tally name durationMs s t) : (t.accepted = s.accepted ∧ t.buckets = s.buckets) ∨
      (t.accepted = s.accepted ++ [⟨name, durationMs⟩] ∧
        (AllCounted s.buckets → AllCounted t.buckets) ∧ ∀ n, amountOf n t.buckets =
          amountOf n s.buckets + recorded n [⟨name, durationMs⟩]) := by
  rcases h.outcome with hnothing | ⟨haccepted, hfind⟩
  · exact .inl hnothing
  refine .inr ⟨haccepted, fun hcounted n b hb => ?_, fun n => ?_⟩
  · rw [hfind] at hb
    split at hb
    · obtain rfl := Option.some.inj hb
      exact Nat.succ_pos _
    · exact hcounted n b hb
  · rw [amountOf, hfind, recorded_singleton]
    by_cases hn : n = name
    · subst hn
      rw [if_pos rfl, if_pos rfl]
      cases hold : findBucket n s.buckets with
      | none =>
        rw [amountOf_none hold]
        rfl
      | some b =>
        rw [amountOf_found hold]
        rfl
    · rw [if_neg hn, if_neg (Ne.symm hn), add_zero]
      rfl

theorem length_subtractAll (snapshot buckets : List (Bucket δ)) :
    (snapshot.foldl subtractOne buckets).length ≤ buckets.length := by
  induction snapshot generalizing buckets with
  | nil => exact Nat.le_refl _
  | cons sent snapshot ih =>
    refine Nat.le_trans (ih _) ?_
    unfold subtractOne
    split
    · exact Nat.le_refl _
    · dsimp only
      split
      · unfold removeAt
        split
        · exact Nat.le_refl _
        · rw [List.length_dropLast, List.length_set]
          exact Nat.sub_le _ _
      · rw [List.length_set]

/-! ## The invariant -/

structure Sound (l : Ledger δ) : Prop where
  distinct : DistinctNames l.state.buckets
  few : l.state.buckets.length ≤ maxTransactions
  counted : AllCounted l.state.buckets
  single : l.state.flushes.length ≤ 1
  distinctSent : ∀ f ∈ l.state.flushes, DistinctNames f.snapshot
  before : ∀ f ∈ l.state.flushes, f.acceptedBefore ≤ l.state.accepted.length
  beyond : ∀ f ∈ l.state.flushes, ∀ n, amountOf n l.state.buckets =
    amountOf n f.snapshot + recorded n (l.state.accepted.drop f.acceptedBefore)
  nonneg : ∀ r ∈ l.state.accepted, 0 ≤ r.durationMs
  balanced : l.Balanced
  fifth : l.FifthOnly

theorem initial_sound : Sound (initial : Ledger δ) := by
  refine ⟨List.nodup_nil, Nat.zero_le _, ?_, Nat.zero_le _, ?_, ?_, ?_, ?_, ?_,
    LastOnly.nil (by decide)⟩
  · exact fun n b hb => absurd hb (by simp [initial, Performance.initial, findBucket])
  · exact fun f hf => absurd hf List.not_mem_nil
  · exact fun f hf => absurd hf List.not_mem_nil
  · exact fun f hf => absurd hf List.not_mem_nil
  · exact fun r hr => absurd hr List.not_mem_nil
  · exact fun n => (add_zero (0 : ℕ × δ)).symm

section
variable {l : Ledger δ} (h : Sound l)
include h

theorem record_sound {name : Bytes} {durationMs : δ} {t : State δ}
    (htally : Tally name durationMs l.state t) (hnonneg : 0 ≤ durationMs) :
    Sound ⟨t, l.finished⟩ := by
  have hfifth : LastOnly maxConsecutiveFailures l.finished t.consecutiveFailures :=
    htally.consecutiveFailures ▸ h.fifth
  have hflushes := htally.flushes
  rcases amountOf_tally htally with ⟨haccepted, hbuckets⟩ | ⟨haccepted, hcounted, hamount⟩
  · refine ⟨htally.distinct, htally.few h.few, ?_, ?_, ?_, ?_, ?_, ?_, ?_, hfifth⟩
    · simpa only [hbuckets] using h.counted
    · simpa only [hflushes] using h.single
    · simpa only [hflushes] using h.distinctSent
    · simpa only [hflushes, haccepted] using h.before
    · simpa only [hflushes, haccepted, hbuckets] using h.beyond
    · simpa only [haccepted] using h.nonneg
    · simpa only [Balanced, haccepted, hbuckets] using h.balanced
  · refine ⟨htally.distinct, htally.few h.few, hcounted h.counted, ?_, ?_, ?_, ?_, ?_, ?_, hfifth⟩
    · simpa only [hflushes] using h.single
    · simpa only [hflushes] using h.distinctSent
    · intro f hf
      have := h.before f (hflushes ▸ hf)
      simp only [haccepted, List.length_append]
      omega
    · intro f hf n
      have hold := hflushes ▸ hf
      simp only [haccepted]
      rw [hamount, h.beyond f hold n, List.drop_append_of_le_length (h.before f hold),
        recorded_append, add_assoc]
    · intro r hr
      simp only [haccepted] at hr
      rcases List.mem_append.mp hr with hr | hr
      · exact h.nonneg r hr
      · rw [List.mem_singleton.mp hr]
        exact hnonneg
    · intro n
      simp only [haccepted]
      rw [recorded_append, h.balanced n, hamount, add_assoc]

theorem flushSnapshot_sound (now : Nat) (allocated : Bool) (hnone : l.state.flushes = []) :
    Sound ⟨flushSnapshot l.state now allocated, l.finished⟩ := by
  unfold flushSnapshot
  split
  · exact h
  have hone : ∀ {P : Flush δ → Prop}, P ⟨l.state.buckets, l.state.periodStartedAt, now,
      l.state.accepted.length, l.state.settled.length⟩ → ∀ f ∈ l.state.flushes ++ [⟨l.state.buckets,
        l.state.periodStartedAt, now, l.state.accepted.length, l.state.settled.length⟩], P f := by
    intro P hP f hf
    rw [hnone, List.nil_append] at hf
    rw [List.mem_singleton.mp hf]
    exact hP
  refine ⟨h.distinct, h.few, h.counted, ?_, hone h.distinct, hone (Nat.le_refl _),
    hone fun n => ?_, h.nonneg, h.balanced, h.fifth⟩
  · simp only [hnone, List.nil_append, List.length_singleton]
    exact Nat.le_refl _
  · rw [List.drop_length]
    exact (add_zero _).symm

end

variable [IsOrderedAddMonoid δ]

theorem recorded_nonneg {name : Bytes} {rs : List (Record δ)} (h : ∀ r ∈ rs, 0 ≤ r.durationMs) :
    0 ≤ (recorded name rs).2 := by
  induction rs with
  | nil => exact le_refl (0 : δ)
  | cons r rs ih =>
    have hrest := ih fun q hq => h q (List.mem_cons_of_mem r hq)
    rw [← List.singleton_append, recorded_append, recorded_singleton, Prod.snd_add]
    split
    · exact add_nonneg (h r List.mem_cons_self) hrest
    · rw [Prod.snd_zero, zero_add]
      exact hrest

/-- Subtracting a snapshot leaves what was recorded since, when that is what the buckets hold beyond
it. -/
theorem amountOf_subtractAll {buckets snapshot : List (Bucket δ)} {since : List (Record δ)}
    (hd : DistinctNames buckets) (hs : DistinctNames snapshot) (hcounted : AllCounted buckets)
    (hsince : ∀ r ∈ since, 0 ≤ r.durationMs)
    (hbeyond : ∀ n, amountOf n buckets = amountOf n snapshot + recorded n since) :
    AllCounted (snapshot.foldl subtractOne buckets) ∧
      ∀ n, amountOf n (snapshot.foldl subtractOne buckets) = recorded n since := by
  have hleft : ∀ n,
      (∀ c, findBucket n (snapshot.foldl subtractOne buckets) = some c → 0 < c.count) ∧
        amountOf n (snapshot.foldl subtractOne buckets) = recorded n since := by
    intro n
    have hfind := (findBucket_subtractAll n hs hd).2
    have hn := hbeyond n
    rw [amountOf, hfind]
    cases hb : findBucket n buckets with
    | none =>
      rw [amountOf_none hb] at hn
      have hzero : (recorded n since).1 = 0 := by
        have hfst := congrArg Prod.fst hn
        rw [Prod.fst_add] at hfst
        exact (Nat.add_eq_zero_iff.mp hfst.symm).2
      exact ⟨fun c hc => absurd hc (by simp), (recorded_eq_zero hzero).symm⟩
    | some b =>
      rw [amountOf_found hb] at hn
      cases hsnap : findBucket n snapshot with
      | none =>
        rw [amountOf_none hsnap, zero_add] at hn
        refine ⟨fun c hc => ?_, hn⟩
        obtain rfl : b = c := by simpa using hc
        exact hcounted n b hb
      | some s =>
        rw [amountOf_found hsnap] at hn
        have hcount : b.count = s.count + (recorded n since).1 := congrArg Prod.fst hn
        have hsum : b.durationSumMs = s.durationSumMs + (recorded n since).2 := congrArg Prod.snd hn
        have hremaining := b.count_subtract s
        simp only [Option.bind_some, Option.elim_some, Bucket.remaining]
        split
        · rename_i hzero
          refine ⟨fun c hc => absurd hc (by simp), (recorded_eq_zero ?_).symm⟩
          omega
        · rename_i hpos
          refine ⟨fun c hc => ?_, ?_⟩
          · obtain rfl := Option.some.inj hc
            exact Nat.pos_of_ne_zero hpos
          · -- the sum is not below zero, so nothing is cut off
            have hsub : (b.subtract s).durationSumMs = (recorded n since).2 := by
              have hback : b.durationSumMs - s.durationSumMs = (recorded n since).2 := by
                rw [hsum, add_sub_cancel_left]
              simp only [Bucket.subtract, hback]
              exact if_neg (not_lt.mpr (recorded_nonneg hsince))
            apply Prod.ext
            · show (b.subtract s).count = _
              omega
            · exact hsub
  exact ⟨fun n c hc => (hleft n).1 c hc, fun n => (hleft n).2⟩

theorem flushSubtraction_sound {l : Ledger δ} (h : Sound l) {i : Nat} {f : Flush δ}
    (hf : l.state.flushes[i]? = some f) (status : Int) :
    Sound ⟨flushSubtraction { l.state with flushes := l.state.flushes.eraseIdx i } f status,
      l.finished ++ [⟨f, status, letsGo l.state status⟩]⟩ := by
  have hmem := List.mem_of_getElem? hf
  have hnone : l.state.flushes.eraseIdx i = [] := Flushes.eraseIdx_eq_nil hf h.single
  have hfifth := h.fifth.concat (g := ⟨f, status, letsGo l.state status⟩)
    (by simp [letsGo, Finished.failed])
  have hempty : ∀ {P : Flush δ → Prop}, ∀ g ∈ l.state.flushes.eraseIdx i, P g := by
    intro P g hg
    rw [hnone] at hg
    exact absurd hg List.not_mem_nil
  have hzero : (l.state.flushes.eraseIdx i).length ≤ 1 := by
    rw [hnone]
    exact Nat.zero_le _
  cases hgo : letsGo l.state status with
  | true =>
    rw [hgo] at hfifth
    obtain ⟨hcounted, hamount⟩ := amountOf_subtractAll h.distinct (h.distinctSent f hmem) h.counted
      (fun r hr => h.nonneg r (List.mem_of_mem_drop hr)) (h.beyond f hmem)
    have hsubtraction : flushSubtraction
        { l.state with flushes := l.state.flushes.eraseIdx i } f status =
        { l.state with
          flushes := l.state.flushes.eraseIdx i
          consecutiveFailures := 0
          buckets := f.snapshot.foldl subtractOne l.state.buckets
          periodStartedAt := f.periodEnd
          settled := l.state.settled ++ [⟨f, status,
            if deliveryOutcomeForStatus status = .failed then l.state.consecutiveFailures + 1
            else l.state.consecutiveFailures⟩] } := if_pos hgo
    rw [hsubtraction]
    refine ⟨(findBucket_subtractAll [] (h.distinctSent f hmem) h.distinct).1,
      Nat.le_trans (length_subtractAll _ _) h.few, hcounted, hzero, hempty, hempty,
      hempty, h.nonneg, fun n => ?_, hfifth⟩
    have hbalanced := h.balanced n
    rw [h.beyond f hmem n] at hbalanced
    show recorded n l.state.accepted = taken n (l.finished ++ [⟨f, status, true⟩]) +
      amountOf n (f.snapshot.foldl subtractOne l.state.buckets)
    rw [hamount, hbalanced, taken_concat, if_pos rfl, add_assoc]
  | false =>
    rw [hgo] at hfifth
    have hkept : flushSubtraction { l.state with flushes := l.state.flushes.eraseIdx i } f status =
        { l.state with
          flushes := l.state.flushes.eraseIdx i
          consecutiveFailures := l.state.consecutiveFailures + 1 } := flushSubtraction_kept f hgo
    rw [hkept]
    refine ⟨h.distinct, h.few, h.counted, hzero, hempty, hempty, hempty, h.nonneg,
      fun n => ?_, hfifth⟩
    show recorded n l.state.accepted = taken n (l.finished ++ [⟨f, status, false⟩]) +
      amountOf n l.state.buckets
    rw [taken_concat, if_neg Bool.false_ne_true, add_zero]
    exact h.balanced n

theorem step_sound (l : Ledger δ) (a : Action δ) (l' : Ledger δ) (h : Sound l)
    (hserial : Serial l.state a) (hstep : l.step a = some l') : Sound l' := by
  cases a with
  | record config transactionName durationMs now alloc =>
    obtain rfl := Option.some.inj hstep
    obtain ⟨name, htally⟩ := record_spec l.state config transactionName durationMs now
      alloc h.distinct
    exact record_sound h htally hserial
  | flushSnapshot now allocated =>
    obtain rfl := Option.some.inj hstep
    exact flushSnapshot_sound h now allocated hserial
  | flushSubtraction i status =>
    obtain ⟨s, hs, rfl⟩ := Option.map_eq_some_iff.mp hstep
    obtain ⟨f, hf, rfl⟩ := Option.map_eq_some_iff.mp hs
    have hfinished : l.finishedAfter (.flushSubtraction i status) =
        l.finished ++ [⟨f, status, letsGo l.state status⟩] := by
      rw [finishedAfter, hf]
      rfl
    rw [hfinished]
    exact flushSubtraction_sound h hf status

/-- As long as flushes do not overlap, at every point of a run the books are balanced for every
name, the names are distinct and few enough, and a failed batch is let go by the fifth failure. -/
theorem balanced_of_serial (actions : List (Action δ))
    (h : Runs.EveryStep step (fun l => Serial l.state) initial actions) :
    Runs.Always step (fun l : Ledger δ => l.Balanced ∧ DistinctNames l.state.buckets ∧
      l.state.buckets.length ≤ maxTransactions ∧ l.FifthOnly) initial actions :=
  (Runs.always_of_steps step_sound initial actions initial_sound h).imp fun _ hs =>
    ⟨hs.balanced, hs.distinct, hs.few, hs.fifth⟩

/-- A record that lands during a delivery, a failed flush, and the batch they end up in. -/
theorem balanced_of_serial_run :
    let run := [recordOne 5, .flushSnapshot 60 true, recordOne 7, .flushSubtraction 0 200,
      .flushSnapshot 120 true, .flushSubtraction 0 503, recordOne 2, .flushSnapshot 180 true,
      .flushSubtraction 0 404, recordOne 1]
    Runs.EveryStep step (fun l => Serial l.state) (initial : Ledger ℤ) run ∧
      Runs.Always step (fun l : Ledger ℤ => l.Balanced ∧ DistinctNames l.state.buckets ∧
        l.state.buckets.length ≤ maxTransactions ∧ l.FifthOnly) initial run :=
  ⟨by decide, balanced_of_serial _ (by decide)⟩

end Ledger

end ForgeOps.Performance
