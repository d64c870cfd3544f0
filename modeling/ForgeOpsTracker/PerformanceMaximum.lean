import ForgeOpsTracker.PerformanceLedger

/-! The maximum a sample is sent with. A flush takes the counts and sums it has sent off
the buckets again, but leaves their maxima, so a bucket that outlives the subtraction
goes on with a maximum that may be none of its own records'. -/

namespace ForgeOps.Performance
open Client

variable {δ : Type*}

/-- Where the records that no batch has taken yet start: at the snapshot of the last batch let
go. -/
def windowStart (settled : List (Settled δ)) : Nat :=
  (settled.getLast?.map fun g => g.flush.acceptedBefore).getD 0

/-- The records the samples of a flush cover. -/
def covered (s : State δ) (f : Flush δ) : List (Record δ) :=
  (s.accepted.take f.acceptedBefore).drop (windowStart (s.settled.take f.settledBefore))

section
variable [LE δ]

/-- Every sample's maximum is at most the duration of one of the records it covers. -/
def MaximumCovered (s : State δ) (f : Flush δ) : Prop :=
  ∀ b ∈ f.snapshot, ∃ r ∈ covered s f, r.name = b.name ∧ b.maxDurationMs ≤ r.durationMs

/-- So it is for every flush under way. -/
def MaximaCovered (s : State δ) : Prop := ∀ f ∈ s.flushes, MaximumCovered s f

/-- A record that landed during the delivery is at least as long as the sample's maximum, if one
landed at all. -/
def Outdone (s : State δ) (f : Flush δ) (sent : Bucket δ) : Prop :=
  (∃ r ∈ s.accepted.drop f.acceptedBefore, r.name = sent.name) →
    ∃ r ∈ s.accepted.drop f.acceptedBefore, r.name = sent.name ∧ sent.maxDurationMs ≤ r.durationMs

/-- A flush lets its batch go only when every maximum in it is outdone. -/
def MaximaOutdone (s : State δ) : Action δ → Prop
  | .flushSubtraction i status =>
    ∀ f ∈ s.flushes[i]?, letsGo s status → ∀ sent ∈ f.snapshot, Outdone s f sent
  | _ => True

end

instance [LE δ] [DecidableLE δ] (s : State δ) : Decidable (MaximaCovered s) :=
  inferInstanceAs (Decidable (∀ f ∈ s.flushes, ∀ b ∈ f.snapshot, ∃ r ∈ covered s f,
    r.name = b.name ∧ b.maxDurationMs ≤ r.durationMs))

instance [LE δ] [DecidableLE δ] (s : State δ) (f : Flush δ) (sent : Bucket δ) :
    Decidable (Outdone s f sent) :=
  inferInstanceAs (Decidable ((∃ r ∈ _, _) → ∃ r ∈ _, _ ∧ _))

instance [LE δ] [DecidableLE δ] (s : State δ) : ∀ a, Decidable (MaximaOutdone s a)
  | .flushSubtraction _ _ => inferInstanceAs (Decidable (∀ f ∈ _, _ → ∀ sent ∈ _, _))
  | .record .. => inferInstanceAs (Decidable True)
  | .flushSnapshot .. => inferInstanceAs (Decidable True)

/-! ## The invariant -/

/-- One of the records, of that name, is at least as long. -/
def Reached [LE δ] (records : List (Record δ)) (name : Bytes) (durationMs : δ) : Prop :=
  ∃ r ∈ records, r.name = name ∧ durationMs ≤ r.durationMs

section
variable [LE δ]

theorem Reached.append {records : List (Record δ)} {name : Bytes} {durationMs : δ}
    (h : Reached records name durationMs) (more : List (Record δ)) :
    Reached (records ++ more) name durationMs := by
  obtain ⟨r, hr, hname, hle⟩ := h
  exact ⟨r, List.mem_append_left _ hr, hname, hle⟩

/-- How a bucket stands to a snapshot under delivery: a record since then has its maximum, or the
snapshot has, and if the bucket counts more a record has landed. -/
def Beyond (s : State δ) (f : Flush δ) (n : Bytes) (b : Bucket δ) : Prop :=
  Reached (s.accepted.drop f.acceptedBefore) n b.maxDurationMs ∨
    ∃ sent, findBucket n f.snapshot = some sent ∧ b.maxDurationMs ≤ sent.maxDurationMs ∧
      (sent.count < b.count → ∃ r ∈ s.accepted.drop f.acceptedBefore, r.name = n)

structure MaximaSound (s : State δ) : Prop where
  distinct : DistinctNames s.buckets
  window : windowStart s.settled ≤ s.accepted.length
  maxima : ∀ n b, findBucket n s.buckets = some b →
    Reached (s.accepted.drop (windowStart s.settled)) n b.maxDurationMs
  single : s.flushes.length ≤ 1
  distinctSent : ∀ f ∈ s.flushes, DistinctNames f.snapshot
  before : ∀ f ∈ s.flushes, f.acceptedBefore ≤ s.accepted.length
  beyond : ∀ f ∈ s.flushes, ∀ n b, findBucket n s.buckets = some b → Beyond s f n b
  covered : MaximaCovered s
  current : ∀ f ∈ s.flushes, f.settledBefore = s.settled.length

end

theorem findBucket_of_mem {buckets : List (Bucket δ)} (hd : DistinctNames buckets) {b : Bucket δ}
    (hb : b ∈ buckets) : findBucket b.name buckets = some b := by
  induction buckets with
  | nil => exact absurd hb List.not_mem_nil
  | cons c buckets ih =>
    obtain ⟨hout, hrest⟩ := List.nodup_cons.mp hd
    rw [findBucket_cons]
    rcases List.mem_cons.mp hb with rfl | hb
    · exact if_pos rfl
    · have hne : c.name ≠ b.name := fun heq => hout (heq ▸ List.mem_map_of_mem hb)
      rw [if_neg hne, ih hrest hb]

section
variable [LE δ]

theorem initial_maximaSound : MaximaSound (initial : State δ) := by
  refine ⟨List.nodup_nil, Nat.le_refl _, ?_, Nat.zero_le _, ?_, ?_, ?_, ?_, ?_⟩
  · exact fun n b hb => absurd hb (by simp [initial, findBucket])
  · exact fun f hf => absurd hf List.not_mem_nil
  · exact fun f hf => absurd hf List.not_mem_nil
  · exact fun f hf => absurd hf List.not_mem_nil
  · exact fun f hf => absurd hf List.not_mem_nil
  · exact fun f hf => absurd hf List.not_mem_nil

/-- Records that land behind a snapshot change nothing about what it covers. -/
theorem maximumCovered_append {s t : State δ} {f : Flush δ} (more : List (Record δ))
    (haccepted : t.accepted = s.accepted ++ more) (hsettled : t.settled = s.settled)
    (hbefore : f.acceptedBefore ≤ s.accepted.length) (h : MaximumCovered s f) :
    MaximumCovered t f := by
  have hsame : covered t f = covered s f := by
    rw [covered, covered, haccepted, hsettled, List.take_append_of_le_length hbefore]
  rw [MaximumCovered, hsame]
  exact h

end

variable [LinearOrder δ]

/-- A flush that takes its snapshot when every maximum is reached covers them. -/
theorem flushSnapshot_maximaSound {s : State δ} (h : MaximaSound s) (now : Nat) (allocated : Bool)
    (hnone : s.flushes = []) : MaximaSound (flushSnapshot s now allocated) := by
  unfold flushSnapshot
  split
  · exact h
  have hone : ∀ {P : Flush δ → Prop}, P ⟨s.buckets, s.periodStartedAt, now, s.accepted.length,
      s.settled.length⟩ → ∀ f ∈ s.flushes ++ [⟨s.buckets, s.periodStartedAt, now, s.accepted.length,
        s.settled.length⟩], P f := by
    intro P hP f hf
    rw [hnone, List.nil_append] at hf
    rw [List.mem_singleton.mp hf]
    exact hP
  refine ⟨h.distinct, h.window, h.maxima, ?_, hone h.distinct, hone (Nat.le_refl _),
    hone ?_, hone ?_, hone rfl⟩
  · simp only [hnone, List.nil_append, List.length_singleton]
    exact Nat.le_refl _
  · intro n b hb
    exact .inr ⟨b, hb, le_refl _, fun hlt => absurd hlt (Nat.lt_irrefl _)⟩
  · intro b hb
    have hreached := h.maxima b.name b (findBucket_of_mem h.distinct hb)
    show ∃ r ∈ (s.accepted.take s.accepted.length).drop
      (windowStart (s.settled.take s.settled.length)), _
    rw [List.take_length, List.take_length]
    exact hreached

variable [Zero δ] [Add δ]

/-- The maximum of a bucket a record was added to is at most the record's, or it is the one it
had. -/
theorem maxDurationMs_add (old : Option (Bucket δ)) (name : Bytes) {durationMs : δ}
    (h : 0 ≤ durationMs) : ((old.getD ⟨name, 0, 0, 0⟩).add durationMs).maxDurationMs ≤ durationMs ∨
      ∃ b, old = some b ∧ ((old.getD ⟨name, 0, 0, 0⟩).add durationMs).maxDurationMs =
        b.maxDurationMs := by
  simp only [Bucket.add]
  split
  · exact .inl (le_refl _)
  · cases old with
    | none => exact .inl h
    | some b => exact .inr ⟨b, rfl, rfl⟩

theorem record_maximaSound {s t : State δ} (h : MaximaSound s) {name : Bytes} {durationMs : δ}
    (htally : Tally name durationMs s t) (hnonneg : 0 ≤ durationMs) : MaximaSound t := by
  have hflushes := htally.flushes
  have hsettled := htally.settled
  rcases htally.outcome with ⟨haccepted, hbuckets⟩ | ⟨haccepted, hfind⟩
  · refine ⟨htally.distinct, ?_, ?_, ?_, ?_, ?_, ?_, ?_, ?_⟩
    · simpa only [hsettled, haccepted] using h.window
    · simpa only [hsettled, haccepted, hbuckets] using h.maxima
    · simpa only [hflushes] using h.single
    · simpa only [hflushes] using h.distinctSent
    · simpa only [hflushes, haccepted] using h.before
    · simpa only [Beyond, hflushes, haccepted, hbuckets] using h.beyond
    · simpa only [MaximaCovered, MaximumCovered, covered, hflushes, haccepted,
        hsettled] using h.covered
    · simpa only [hflushes, hsettled] using h.current
  have hnew : ∀ start, start ≤ s.accepted.length → ∀ d, d ≤ durationMs →
      Reached (t.accepted.drop start) name d := by
    intro start hstart d hd
    rw [haccepted, List.drop_append_of_le_length hstart]
    exact ⟨⟨name, durationMs⟩, List.mem_append_right _ (List.mem_singleton_self _), rfl, hd⟩
  have hold : ∀ start, start ≤ s.accepted.length → ∀ {n d}, Reached (s.accepted.drop start) n d →
      Reached (t.accepted.drop start) n d := by
    intro start hstart n d hreached
    rw [haccepted, List.drop_append_of_le_length hstart]
    exact hreached.append _
  have hmaximum : ∀ n b, findBucket n t.buckets = some b →
      n = name ∧ b.maxDurationMs ≤ durationMs ∨
        ∃ b', findBucket n s.buckets = some b' ∧ b.maxDurationMs = b'.maxDurationMs ∧
        (n = name ∨ b = b') := by
    intro n b hb
    rw [hfind] at hb
    split at hb
    · rename_i hn
      subst hn
      obtain rfl := Option.some.inj hb
      rcases maxDurationMs_add (findBucket n s.buckets) n hnonneg with hle | ⟨b', hsome, heq⟩
      · exact .inl ⟨rfl, hle⟩
      · exact .inr ⟨b', hsome, heq, .inl rfl⟩
    · exact .inr ⟨b, hb, rfl, .inr rfl⟩
  refine ⟨htally.distinct, ?_, fun n b hb => ?_, ?_, ?_, fun f hf => ?_, fun f hf n b hb => ?_,
    fun f hf => ?_, ?_⟩
  · have hwindow := h.window
    rw [hsettled, haccepted, List.length_append]
    omega
  · rw [hsettled]
    rcases hmaximum n b hb with ⟨rfl, hle⟩ | ⟨b', hsome, heq, -⟩
    · exact hnew _ h.window _ hle
    · rw [heq]
      exact hold _ h.window (h.maxima n b' hsome)
  · rw [hflushes]
    exact h.single
  · rw [hflushes]
    exact h.distinctSent
  · have hbefore := h.before f (hflushes ▸ hf)
    rw [haccepted, List.length_append]
    omega
  · have hf' := hflushes ▸ hf
    have hbefore := h.before f hf'
    rcases hmaximum n b hb with ⟨rfl, hle⟩ | ⟨b', hsome, heq, hwhich⟩
    · exact .inl (hnew _ hbefore _ hle)
    · rcases h.beyond f hf' n b' hsome with hreached | ⟨sent, hsent, hle, hmore⟩
      · left
        rw [heq]
        exact hold _ hbefore hreached
      · right
        refine ⟨sent, hsent, heq ▸ hle, fun hlt => ?_⟩
        rcases hwhich with rfl | rfl
        · obtain ⟨r, hr, hname, -⟩ := hnew _ hbefore _ (le_refl durationMs)
          exact ⟨r, hr, hname⟩
        · obtain ⟨r, hr, hname⟩ := hmore hlt
          refine ⟨r, ?_, hname⟩
          rw [haccepted, List.drop_append_of_le_length hbefore]
          exact List.mem_append_left _ hr
  · have hf' := hflushes ▸ hf
    exact maximumCovered_append _ haccepted hsettled (h.before f hf') (h.covered f hf')
  · rw [hflushes, hsettled]
    exact h.current

variable [Sub δ]

omit [Add δ] in
theorem flushSubtraction_maximaSound {s : State δ} (h : MaximaSound s) {i : Nat} {f : Flush δ}
    (hf : s.flushes[i]? = some f) (status : Int)
    (houtdone : letsGo s status → ∀ sent ∈ f.snapshot, Outdone s f sent) :
    MaximaSound (flushSubtraction { s with flushes := s.flushes.eraseIdx i } f status) := by
  have hmem := List.mem_of_getElem? hf
  have hnone : s.flushes.eraseIdx i = [] := Flushes.eraseIdx_eq_nil hf h.single
  have hempty : ∀ {P : Flush δ → Prop}, ∀ g ∈ s.flushes.eraseIdx i, P g := by
    intro P g hg
    rw [hnone] at hg
    exact absurd hg List.not_mem_nil
  have hsingle : (s.flushes.eraseIdx i).length ≤ 1 := by
    rw [hnone]
    exact Nat.zero_le _
  by_cases hgo : letsGo s status
  · have hsubtraction : flushSubtraction { s with flushes := s.flushes.eraseIdx i } f status =
        { s with
          flushes := s.flushes.eraseIdx i
          consecutiveFailures := 0
          buckets := f.snapshot.foldl subtractOne s.buckets
          periodStartedAt := f.periodEnd
          settled := s.settled ++ [⟨f, status,
            if deliveryOutcomeForStatus status = .failed then s.consecutiveFailures + 1
            else s.consecutiveFailures⟩] } := if_pos hgo
    have hwindow : ∀ status failures,
        windowStart (s.settled ++ [⟨f, status, failures⟩]) = f.acceptedBefore := by
      intro status failures
      rw [windowStart, List.getLast?_concat]
      rfl
    rw [hsubtraction]
    refine ⟨(findBucket_subtractAll [] (h.distinctSent f hmem) h.distinct).1, ?_,
      fun n c hc => ?_, hsingle, hempty, hempty, hempty, hempty, hempty⟩
    · simp only [hwindow]
      exact h.before f hmem
    · simp only [hwindow]
      have hfind := (findBucket_subtractAll n (h.distinctSent f hmem) h.distinct).2
      simp only at hc
      rw [hfind] at hc
      obtain ⟨b, hb, hrest⟩ := Option.bind_eq_some_iff.mp hc
      have hleft : c.maxDurationMs = b.maxDurationMs ∧
          ∀ sent, findBucket n f.snapshot = some sent → sent.count < b.count := by
        cases hsnap : findBucket n f.snapshot with
        | none =>
          rw [hsnap] at hrest
          obtain rfl := Option.some.inj hrest
          exact ⟨rfl, fun sent hsent => absurd hsent (by simp)⟩
        | some sent =>
          have hcount := b.count_subtract sent
          rw [hsnap] at hrest
          simp only [Option.elim_some, Bucket.remaining] at hrest
          split at hrest
          · exact absurd hrest (by simp)
          · obtain rfl := Option.some.inj hrest
            refine ⟨rfl, fun sent' hsent => ?_⟩
            obtain rfl := Option.some.inj hsent
            omega
      rw [hleft.1]
      rcases h.beyond f hmem n b hb with hreached | ⟨sent, hsent, hle, hmore⟩
      · exact hreached
      · -- a record has landed, so one has outdone what was sent
        have hname := (findBucket_some hsent).1
        obtain ⟨r, hr, hrname⟩ := hmore (hleft.2 sent hsent)
        obtain ⟨q, hq, hqname, hqle⟩ := houtdone hgo sent (List.mem_of_find?_eq_some hsent)
          ⟨r, hr, hrname.trans hname.symm⟩
        exact ⟨q, hq, hqname.trans hname, le_trans hle hqle⟩
  · have hkept : flushSubtraction { s with flushes := s.flushes.eraseIdx i } f status =
        { s with
          flushes := s.flushes.eraseIdx i
          consecutiveFailures := s.consecutiveFailures + 1 } :=
      flushSubtraction_kept f (Bool.not_eq_true _ ▸ hgo)
    rw [hkept]
    exact ⟨h.distinct, h.window, h.maxima, hsingle, hempty, hempty, hempty, hempty, hempty⟩

theorem step_maximaSound (s : State δ) (a : Action δ) (t : State δ) (h : MaximaSound s)
    (hq : Serial s a ∧ MaximaOutdone s a) (ht : step s a = some t) : MaximaSound t := by
  obtain ⟨hserial, houtdone⟩ := hq
  cases a with
  | record config transactionName durationMs now alloc =>
    obtain rfl := Option.some.inj ht
    obtain ⟨name, htally⟩ := record_spec s config transactionName durationMs now alloc h.distinct
    exact record_maximaSound h htally hserial
  | flushSnapshot now allocated =>
    obtain rfl := Option.some.inj ht
    exact flushSnapshot_maximaSound h now allocated hserial
  | flushSubtraction i status =>
    obtain ⟨f, hf, rfl⟩ := Option.map_eq_some_iff.mp ht
    exact flushSubtraction_maximaSound h hf status (houtdone f hf)

/-- As long as flushes do not overlap and a flush lets its batch go only when no record landed under
a name during the delivery or one that did is at least as long as the sample's maximum, every
sample of every batch is sent with a maximum that one of its own records reached. -/
theorem maxima_covered_of_outdone (actions : List (Action δ))
    (h : Runs.EveryStep step (fun s a => Serial s a ∧ MaximaOutdone s a) initial actions) :
    Runs.Always step MaximaCovered (initial : State δ) actions :=
  (Runs.always_of_steps step_maximaSound initial actions initial_maximaSound h).imp
    fun _ hs => hs.covered

/-- A longer request lands during the delivery, and another one after a failed flush. -/
theorem maxima_covered_of_outdone_run :
    let run := [recordOne 5, .flushSnapshot 60 true, recordOne 7, .flushSubtraction 0 200,
      .flushSnapshot 120 true, recordOne 2, .flushSubtraction 0 503, .flushSnapshot 180 true,
      .flushSubtraction 0 404, recordOne 1, .flushSnapshot 240 true]
    Runs.EveryStep step (fun s a => Serial s a ∧ MaximaOutdone s a) (initial : State ℤ) run ∧
      Runs.Always step MaximaCovered (initial : State ℤ) run :=
  ⟨by decide, maxima_covered_of_outdone _ (by decide)⟩

/-- A request of 100 ms is delivered while one of 5 ms lands; the next batch has the one of 5 ms
with a maximum of 100. -/
theorem maximum_outlives_its_record :
    let run := [recordOne 100, .flushSnapshot 60 true, recordOne 5, .flushSubtraction 0 200,
      .flushSnapshot 120 true]
    Runs.EveryStep step Serial (initial : State ℤ) run ∧
      ¬ Runs.Always step MaximaCovered (initial : State ℤ) run := by
  decide

end ForgeOps.Performance
