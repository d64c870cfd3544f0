import ForgeOpsTracker.Lib.Runs
import ForgeOpsTracker.Client
import ForgeOpsTracker.StrictPrivacy

/-! The performance buckets, and the threads that record into them and flush them.

As in `Metrics`, every lock-held section is one step and a flush is two of them:
it copies the buckets, delivers the copy with no lock held, and then subtracts the
copy from whatever the buckets hold by then. Durations are of any type with the
operations the code uses on them. -/

namespace ForgeOps.Performance
open Client

def maxTransactions : Nat := 500
def maxConsecutiveFailures : Nat := 5

variable {δ : Type*}

/-- `bucket_t` -/
structure Bucket (δ : Type*) where
  name : Bytes
  count : Nat
  durationSumMs : δ
  maxDurationMs : δ
  deriving DecidableEq, Repr

/-- A record that incremented a bucket. -/
structure Record (δ : Type*) where
  name : Bytes
  durationMs : δ
  deriving DecidableEq, Repr

/-- A `forgeops_performance_flush` between its snapshot and its subtraction. The
last two fields are history: how many records had been accepted, and how many
batches let go, when the snapshot was taken. -/
structure Flush (δ : Type*) where
  snapshot : List (Bucket δ)
  periodStart : Nat
  periodEnd : Nat
  acceptedBefore : Nat
  settledBefore : Nat
  deriving DecidableEq, Repr

/-- A flush that let its batch go: the status it got, and the failed flushes in a
row up to and including it. -/
structure Settled (δ : Type*) where
  flush : Flush δ
  status : Int
  failures : Nat
  deriving DecidableEq, Repr

/-- `accepted` and `settled` are history: no step reads them. -/
structure State (δ : Type*) where
  buckets : List (Bucket δ)
  capacity : Nat
  periodStartedAt : Nat
  consecutiveFailures : Nat
  flushes : List (Flush δ)
  accepted : List (Record δ)
  settled : List (Settled δ)
  deriving DecidableEq, Repr

def initial : State δ := ⟨[], 0, 0, 0, [], [], []⟩

/-- `find_bucket` -/
def findBucket (name : Bytes) (buckets : List (Bucket δ)) : Option (Bucket δ) :=
  buckets.find? fun b => b.name = name

/-- The index of the bucket `find_bucket` points at. -/
def indexOf (name : Bytes) (buckets : List (Bucket δ)) : Nat :=
  buckets.findIdx fun b => b.name = name

/-! ## The lock-held sections -/

section
variable [Zero δ] [Add δ] [Sub δ] [LT δ] [DecidableLT δ]

/-- Which allocations of a call succeed. -/
structure Allocations where
  strictName : Bool := true
  grow : Bool := true
  name : Bool := true
  deriving DecidableEq, Repr

/-- `bucket_capacity` after the array was grown, if it was full. -/
def grownCapacity (s : State δ) (grow : Bool) : Nat :=
  if s.buckets.length = s.capacity ∧ grow then (if s.capacity = 0 then 16 else s.capacity * 2)
  else s.capacity

/-- The bucket for `name`, added when there is none and there is room and memory
for it. -/
def ensureBucket (s : State δ) (name : Bytes) (now : Nat) (alloc : Allocations) : State δ :=
  if (findBucket name s.buckets).isNone ∧ s.buckets.length < maxTransactions then
    let capacity := grownCapacity s alloc.grow
    if alloc.name ∧ s.buckets.length < capacity then
      { s with
        capacity := capacity
        periodStartedAt := if s.buckets.length = 0 then now else s.periodStartedAt
        buckets := s.buckets ++ [⟨name, 0, 0, 0⟩] }
    else { s with capacity := capacity }
  else s

def Bucket.add (b : Bucket δ) (durationMs : δ) : Bucket δ :=
  { b with
    count := b.count + 1
    durationSumMs := b.durationSumMs + durationMs
    maxDurationMs := if b.maxDurationMs < durationMs then durationMs else b.maxDurationMs }

/-- The lock-held section of `forgeops_performance_record`. -/
def tally (s : State δ) (name : Bytes) (durationMs : δ) (now : Nat) (alloc : Allocations) :
    State δ :=
  let s := ensureBucket s name now alloc
  match findBucket name s.buckets with
  | none => s
  | some bucket =>
    { s with
      buckets := s.buckets.set (indexOf name s.buckets) (bucket.add durationMs)
      accepted := s.accepted ++ [⟨name, durationMs⟩] }

/-- `forgeops_performance_record` -/
def record (s : State δ) (config : Option Configuration) (transactionName : Option Bytes)
    (durationMs : δ) (now : Nat) (alloc : Allocations) : State δ :=
  match config, transactionName with
  | some config, some name =>
    if config.trackPerformance ∧ config.isEnabled then
      let strictName :=
        if config.strictPrivacy ∧ alloc.strictName then some (StrictPrivacy.transactionName name)
        else none
      tally s (strictName.getD name) durationMs now alloc
    else s
  | _, _ => s

/-- `forgeops_performance_flush` up to its first unlock. -/
def flushSnapshot (s : State δ) (now : Nat) (allocated : Bool) : State δ :=
  if s.buckets = [] ∨ ¬ allocated then s
  else { s with
    flushes := s.flushes ++
      [⟨s.buckets, s.periodStartedAt, now, s.accepted.length, s.settled.length⟩] }

/-- Whether a flush that got `status` lets its batch go. -/
def letsGo (s : State δ) (status : Int) : Bool :=
  deliveryOutcomeForStatus status ≠ .failed ||
    s.consecutiveFailures + 1 ≥ maxConsecutiveFailures

def Bucket.subtract (current sent : Bucket δ) : Bucket δ :=
  let sum := current.durationSumMs - sent.durationSumMs
  { current with
    count := if current.count > sent.count then current.count - sent.count else 0
    durationSumMs := if sum < 0 then 0 else sum }

/-- `*current = buckets[--bucket_count]` for the bucket at `i`. -/
def removeAt (i : Nat) (buckets : List (Bucket δ)) : List (Bucket δ) :=
  match buckets.getLast? with
  | none => buckets
  | some last => (buckets.set i last).dropLast

/-- One turn of the subtraction loop. -/
def subtractOne (buckets : List (Bucket δ)) (sent : Bucket δ) : List (Bucket δ) :=
  match findBucket sent.name buckets with
  | none => buckets
  | some current =>
    let i := indexOf sent.name buckets
    if (current.subtract sent).count = 0 then removeAt i buckets
    else buckets.set i (current.subtract sent)

/-- `forgeops_performance_flush` from its second lock on. -/
def flushSubtraction (s : State δ) (f : Flush δ) (status : Int) : State δ :=
  let failures :=
    if deliveryOutcomeForStatus status = .failed then s.consecutiveFailures + 1
    else s.consecutiveFailures
  if letsGo s status then
    { s with
      consecutiveFailures := 0
      buckets := f.snapshot.foldl subtractOne s.buckets
      periodStartedAt := f.periodEnd
      settled := s.settled ++ [⟨f, status, failures⟩] }
  else { s with consecutiveFailures := failures }

inductive Action (δ : Type*)
  | record (config : Option Configuration) (transactionName : Option Bytes) (durationMs : δ)
      (now : Nat) (alloc : Allocations)
  | flushSnapshot (now : Nat) (allocated : Bool)
  | flushSubtraction (i : Nat) (status : Int)

def step (s : State δ) : Action δ → Option (State δ)
  | .record config name durationMs now alloc => some (record s config name durationMs now alloc)
  | .flushSnapshot now allocated => some (flushSnapshot s now allocated)
  | .flushSubtraction i status =>
    (s.flushes[i]?).map fun f =>
      flushSubtraction { s with flushes := s.flushes.eraseIdx i } f status

end

/-! ## Finding, removing and counting -/

/-- The count `find_bucket` finds for a name, 0 when it finds none. -/
def countOf (name : Bytes) (buckets : List (Bucket δ)) : Nat :=
  ((findBucket name buckets).map Bucket.count).getD 0

/-- No two buckets have the same name. -/
def DistinctNames (buckets : List (Bucket δ)) : Prop := (buckets.map Bucket.name).Nodup

theorem findBucket_cons (name : Bytes) (b : Bucket δ) (buckets : List (Bucket δ)) :
    findBucket name (b :: buckets) = if b.name = name then some b else findBucket name buckets := by
  by_cases h : b.name = name <;> simp [findBucket, h]

theorem findBucket_some {name : Bytes} {buckets : List (Bucket δ)} {b : Bucket δ}
    (h : findBucket name buckets = some b) :
    b.name = name ∧ ∃ hi : indexOf name buckets < buckets.length,
      buckets[indexOf name buckets] = b := by
  refine ⟨by simpa using List.find?_some h, ?_⟩
  rw [findBucket, List.find?_eq_getElem?_findIdx] at h
  exact List.getElem?_eq_some_iff.mp h

theorem findBucket_none {name : Bytes} {buckets : List (Bucket δ)} :
    findBucket name buckets = none ↔ name ∉ buckets.map Bucket.name := by
  simp [findBucket]

/-- Finding does not depend on the order, which the removal of a bucket changes. -/
theorem findBucket_perm {name : Bytes} {bs cs : List (Bucket δ)} (h : bs.Perm cs)
    (hd : DistinctNames bs) : findBucket name bs = findBucket name cs := by
  induction h with
  | nil => rfl
  | cons b _ ih =>
    rw [findBucket_cons, findBucket_cons, ih (List.nodup_cons.mp hd).2]
  | swap b c l =>
    simp only [findBucket_cons]
    split_ifs with hc hb
    · have hne : c.name ≠ b.name := by
        simp only [DistinctNames, List.map_cons, List.nodup_cons, List.mem_cons] at hd
        tauto
      exact absurd (hc.trans hb.symm) hne
    · rfl
    · rfl
    · rfl
  | trans h₁ _ ih₁ ih₂ =>
    rw [ih₁ hd, ih₂ ((h₁.map _).nodup_iff.mp hd)]

/-- The found bucket in front and the others behind it, whatever their order. -/
theorem perm_found {name : Bytes} {buckets : List (Bucket δ)} {b : Bucket δ}
    (h : findBucket name buckets = some b) :
    buckets.Perm (b :: buckets.eraseIdx (indexOf name buckets)) := by
  obtain ⟨-, hi, rfl⟩ := findBucket_some h
  exact (List.getElem_cons_eraseIdx_perm hi).symm

theorem removeAt_perm {i : Nat} {buckets : List (Bucket δ)} (hi : i < buckets.length) :
    (removeAt i buckets).Perm (buckets.eraseIdx i) := by
  obtain ⟨init, last, rfl⟩ := List.eq_nil_or_concat buckets |>.resolve_left (by
    rintro rfl
    exact Nat.not_lt_zero _ hi)
  simp only [List.concat_eq_append, List.length_append, List.length_singleton] at *
  rcases Nat.lt_succ_iff_lt_or_eq.mp hi with hlt | rfl
  · simp only [removeAt, List.getLast?_append, List.getLast?_singleton, Option.some_or,
      List.set_append_left _ _ hlt, List.dropLast_concat, List.eraseIdx_append_of_lt_length hlt]
    exact (List.set_perm_cons_eraseIdx hlt last).trans (List.perm_append_singleton last _).symm
  · simp [removeAt, List.eraseIdx_append_of_length_le]

/-- Storing into the found bucket, its name kept, changes what is found for that name only. -/
theorem findBucket_set {name : Bytes} {buckets : List (Bucket δ)} {b c : Bucket δ} (n : Bytes)
    (h : findBucket name buckets = some b) (hc : c.name = b.name) (hd : DistinctNames buckets) :
    DistinctNames (buckets.set (indexOf name buckets) c) ∧
      findBucket n (buckets.set (indexOf name buckets) c) =
        if n = name then some c else findBucket n buckets := by
  obtain ⟨hname, hi, -⟩ := findBucket_some h
  have hperm := List.set_perm_cons_eraseIdx hi c
  have hfound := perm_found h
  have hcons : DistinctNames (b :: buckets.eraseIdx (indexOf name buckets)) :=
    (hfound.map _).nodup_iff.mp hd
  have hset : DistinctNames (c :: buckets.eraseIdx (indexOf name buckets)) := by
    simpa [DistinctNames, hc] using hcons
  have hd' : DistinctNames (buckets.set (indexOf name buckets) c) :=
    (hperm.map _).nodup_iff.mpr hset
  refine ⟨hd', ?_⟩
  rw [findBucket_perm hperm hd', findBucket_perm hfound hd, findBucket_cons,
    findBucket_cons, hc, hname]
  by_cases hn : n = name
  · simp [hn]
  · simp [hn, Ne.symm hn]

/-- Removing the found bucket leaves nothing to find for its name. -/
theorem findBucket_removeAt {name : Bytes} {buckets : List (Bucket δ)} {b : Bucket δ} (n : Bytes)
    (h : findBucket name buckets = some b) (hd : DistinctNames buckets) :
    DistinctNames (removeAt (indexOf name buckets) buckets) ∧
      findBucket n (removeAt (indexOf name buckets) buckets) =
        if n = name then none else findBucket n buckets := by
  obtain ⟨hname, hi, -⟩ := findBucket_some h
  have hperm := removeAt_perm hi
  have hfound := perm_found h
  have hcons : DistinctNames (b :: buckets.eraseIdx (indexOf name buckets)) :=
    (hfound.map _).nodup_iff.mp hd
  obtain ⟨hout, hrest⟩ := List.nodup_cons.mp hcons
  have hd' : DistinctNames (removeAt (indexOf name buckets) buckets) :=
    (hperm.map _).nodup_iff.mpr hrest
  refine ⟨hd', ?_⟩
  rw [hname] at hout
  rw [findBucket_perm hperm hd', findBucket_perm hfound hd, findBucket_cons, hname]
  by_cases hn : n = name
  · rw [if_pos hn, hn]
    exact findBucket_none.mpr hout
  · rw [if_neg hn, if_neg (Ne.symm hn)]

theorem findBucket_append (n : Bytes) (buckets : List (Bucket δ)) (b : Bucket δ) :
    findBucket n (buckets ++ [b]) = (findBucket n buckets).or
      (if b.name = n then some b else none) := by
  induction buckets with
  | nil =>
    rw [List.nil_append, findBucket_cons]
    rfl
  | cons c buckets ih =>
    rw [List.cons_append, findBucket_cons, findBucket_cons, ih]
    split <;> rfl

/-! ## Where a record went -/

/-- How many of the accepted records from position `start` up to `stop` have a name. -/
def countBetween (accepted : List (Record δ)) (name : Bytes) (start stop : Nat) : Nat :=
  ((accepted.drop start).take (stop - start)).countP fun r => r.name = name

/-- Record `j` is in the snapshot of a flush. A bucket that counts `c` records holds
the last `c` of its name. -/
def Included (accepted : List (Record δ)) (j : Nat) (f : Flush δ) : Prop :=
  j < f.acceptedBefore ∧ ∀ r ∈ accepted[j]?,
    countBetween accepted r.name j f.acceptedBefore ≤ countOf r.name f.snapshot

/-- Record `j` was in a batch that was delivered, rejected, or let go after too
many failures in a row. -/
def Covered (s : State δ) (j : Nat) : Prop :=
  ∃ g ∈ s.settled, (deliveryOutcomeForStatus g.status = .delivered ∨
    deliveryOutcomeForStatus g.status = .rejected ∨ maxConsecutiveFailures ≤ g.failures) ∧
    Included s.accepted j g.flush

/-- Record `j` is still counted in the bucket of its name. -/
def StillCounted (s : State δ) (j : Nat) : Prop :=
  ∀ r ∈ s.accepted[j]?,
    countBetween s.accepted r.name j s.accepted.length ≤ countOf r.name s.buckets

def NoRecordLost (s : State δ) : Prop :=
  ∀ j < s.accepted.length, Covered s j ∨ StillCounted s j

instance (accepted : List (Record δ)) (j : Nat) (f : Flush δ) : Decidable (Included accepted j f) :=
  inferInstanceAs (Decidable (_ ∧ ∀ r ∈ _, _))

instance (s : State δ) (j : Nat) : Decidable (Covered s j) :=
  inferInstanceAs (Decidable (∃ g ∈ _, _))

instance (s : State δ) (j : Nat) : Decidable (StillCounted s j) :=
  inferInstanceAs (Decidable (∀ r ∈ _, _))

instance (s : State δ) : Decidable (NoRecordLost s) :=
  inferInstanceAs (Decidable (∀ j < s.accepted.length, _))

theorem countBetween_self (accepted : List (Record δ)) (name : Bytes) (i : Nat) :
    countBetween accepted name i i = 0 := by
  simp [countBetween]

theorem countBetween_split (accepted : List (Record δ)) (name : Bytes) {i j k : Nat}
    (hij : i ≤ j) (hjk : j ≤ k) :
    countBetween accepted name i k =
      countBetween accepted name i j + countBetween accepted name j k := by
  have hk : k - i = (j - i) + (k - j) := by omega
  have hj : i + (j - i) = j := by omega
  simp only [countBetween, hk, List.take_add, List.countP_append, List.drop_drop, hj]

theorem countBetween_append (accepted : List (Record δ)) (r : Record δ) (name : Bytes) {i j : Nat}
    (hj : j ≤ accepted.length) :
    countBetween (accepted ++ [r]) name i j = countBetween accepted name i j := by
  have hlen : j - i ≤ (accepted.drop i).length := by simp; omega
  by_cases hi : i ≤ accepted.length
  · simp only [countBetween, List.drop_append_of_le_length hi, List.take_append_of_le_length hlen]
  · have hzero : j - i = 0 := by omega
    simp [countBetween, hzero]

theorem countBetween_last (accepted : List (Record δ)) (r : Record δ) (name : Bytes) :
    countBetween (accepted ++ [r]) name accepted.length (accepted.length + 1) =
      if name = r.name then 1 else 0 := by
  by_cases h : r.name = name <;> simp [countBetween, h, Ne.symm]

/-- The count of a name up to the end, one record later. -/
theorem countBetween_snoc (accepted : List (Record δ)) (r : Record δ) (name : Bytes) {i : Nat}
    (hi : i ≤ accepted.length) :
    countBetween (accepted ++ [r]) name i (accepted ++ [r]).length =
      countBetween accepted name i accepted.length + if name = r.name then 1 else 0 := by
  rw [List.length_append, List.length_singleton,
    countBetween_split (accepted ++ [r]) name hi (Nat.le_succ _),
    countBetween_append _ _ _ (Nat.le_refl _), countBetween_last]

section
variable [Zero δ]

/-! ## What each section does to the counts -/

/-- Making room for a name adds an empty bucket when the name has none, or changes no bucket. -/
theorem ensureBucket_cases (s : State δ) (name : Bytes) (now : Nat) (alloc : Allocations) :
    let t := ensureBucket s name now alloc
    (t.flushes = s.flushes ∧ t.accepted = s.accepted ∧ t.settled = s.settled ∧
      t.consecutiveFailures = s.consecutiveFailures) ∧
      (t.buckets = s.buckets ∨ (findBucket name s.buckets = none ∧
        s.buckets.length < maxTransactions ∧ t.buckets = s.buckets ++ [⟨name, 0, 0, 0⟩])) := by
  simp only [ensureBucket]
  split
  · rename_i hnew
    split
    · exact ⟨⟨rfl, rfl, rfl, rfl⟩, .inr ⟨Option.isNone_iff_eq_none.mp hnew.1, hnew.2, rfl⟩⟩
    · exact ⟨⟨rfl, rfl, rfl, rfl⟩, .inl rfl⟩
  · exact ⟨⟨rfl, rfl, rfl, rfl⟩, .inl rfl⟩

variable [Add δ] [LT δ] [DecidableLT δ]

/-- A record is either dropped, every count left as it was, or accepted and counted
in the bucket of its name. -/
def Tallied (s t : State δ) : Prop :=
  DistinctNames t.buckets ∧ t.flushes = s.flushes ∧ t.settled = s.settled ∧
    ((t.accepted = s.accepted ∧ ∀ n, countOf n t.buckets = countOf n s.buckets) ∨
      ∃ r, t.accepted = s.accepted ++ [r] ∧
        ∀ n, countOf n t.buckets = countOf n s.buckets + if n = r.name then 1 else 0)

/-- What `tally` does with a record: nothing to the buckets, or it adds the record to the bucket of
its name, an empty one when there was none. -/
structure Tally (name : Bytes) (durationMs : δ) (s t : State δ) : Prop where
  distinct : DistinctNames t.buckets
  few : s.buckets.length ≤ maxTransactions → t.buckets.length ≤ maxTransactions
  flushes : t.flushes = s.flushes
  settled : t.settled = s.settled
  consecutiveFailures : t.consecutiveFailures = s.consecutiveFailures
  outcome : (t.accepted = s.accepted ∧ t.buckets = s.buckets) ∨
    (t.accepted = s.accepted ++ [⟨name, durationMs⟩] ∧ ∀ n, findBucket n t.buckets =
      if n = name then some (((findBucket name s.buckets).getD ⟨name, 0, 0, 0⟩).add durationMs)
      else findBucket n s.buckets)

theorem tally_spec (s : State δ) (name : Bytes) (durationMs : δ) (now : Nat) (alloc : Allocations)
    (hd : DistinctNames s.buckets) :
    Tally name durationMs s (tally s name durationMs now alloc) := by
  obtain ⟨⟨hflushes, haccepted, hsettled, hfailures⟩, hbuckets⟩ :=
    ensureBucket_cases s name now alloc
  simp only [tally]
  generalize ensureBucket s name now alloc = t at *
  have hd' : DistinctNames t.buckets := by
    rcases hbuckets with hsame | ⟨hnone, -, hnew⟩
    · rw [hsame]
      exact hd
    · rw [hnew, DistinctNames, List.map_append]
      exact hd.append (List.nodup_singleton _)
        (List.disjoint_singleton.mpr (findBucket_none.mp hnone))
  have hfew : s.buckets.length ≤ maxTransactions → t.buckets.length ≤ maxTransactions := by
    intro hle
    rcases hbuckets with hsame | ⟨-, hroom, hnew⟩
    · rw [hsame]
      exact hle
    · rw [hnew, List.length_append, List.length_singleton]
      exact hroom
  -- the bucket the record goes to, and the others
  have hfind : ∀ n, findBucket n t.buckets = findBucket n s.buckets ∨
      (n = name ∧ findBucket name s.buckets = none ∧
        findBucket n t.buckets = some ⟨name, 0, 0, 0⟩) := by
    intro n
    rcases hbuckets with hsame | ⟨hnone, -, hnew⟩
    · exact .inl (by rw [hsame])
    · rw [hnew, findBucket_append]
      by_cases hn : n = name
      · subst hn
        exact .inr ⟨rfl, hnone, by simp [hnone]⟩
      · left
        cases findBucket n s.buckets <;> simp [Ne.symm hn]
  cases h : findBucket name t.buckets with
  | none =>
    refine ⟨hd', hfew, hflushes, hsettled, hfailures, .inl ⟨haccepted, ?_⟩⟩
    rcases hbuckets with hsame | ⟨hnone, -, hnew⟩
    · exact hsame
    · rw [hnew, findBucket_append, hnone] at h
      exact absurd h (by simp)
  | some bucket =>
    have hset := fun n => findBucket_set (c := bucket.add durationMs) n h rfl hd'
    refine ⟨(hset name).1, ?_, hflushes, hsettled, hfailures,
      .inr ⟨by simp [haccepted], fun n => ?_⟩⟩
    · intro hle
      rw [List.length_set]
      exact hfew hle
    · rw [(hset n).2]
      by_cases hn : n = name
      · rw [if_pos hn, if_pos hn]
        rcases hfind name with hold | ⟨-, hnone, hnew⟩
        · rw [← hold, h, Option.getD_some]
        · rw [hnone, Option.getD_none, ← Option.some.inj (hnew.symm.trans h)]
      · rw [if_neg hn, if_neg hn]
        rcases hfind n with hold | ⟨hname, -, -⟩
        · exact hold
        · exact absurd hname hn

/-- A call that is not enabled does nothing; another one is a tally of the duration under some
name. -/
theorem record_spec (s : State δ) (config : Option Configuration) (transactionName : Option Bytes)
    (durationMs : δ) (now : Nat) (alloc : Allocations) (hd : DistinctNames s.buckets) :
    ∃ name, Tally name durationMs s (record s config transactionName durationMs now alloc) := by
  have hsame : Tally [] durationMs s s := ⟨hd, id, rfl, rfl, rfl, .inl ⟨rfl, rfl⟩⟩
  unfold record
  split
  · split
    · exact ⟨_, tally_spec _ _ _ _ _ hd⟩
    · exact ⟨_, hsame⟩
  · exact ⟨_, hsame⟩

theorem Tally.tallied {name : Bytes} {durationMs : δ} {s t : State δ}
    (h : Tally name durationMs s t) : Tallied s t := by
  rcases h.outcome with ⟨haccepted, hbuckets⟩ | ⟨haccepted, hfind⟩
  · exact ⟨h.distinct, h.flushes, h.settled, .inl ⟨haccepted, fun n => by rw [hbuckets]⟩⟩
  · refine ⟨h.distinct, h.flushes, h.settled, .inr ⟨⟨name, durationMs⟩, haccepted, fun n => ?_⟩⟩
    rw [countOf, hfind, countOf]
    by_cases hn : n = name
    · subst hn
      rw [if_pos rfl, if_pos rfl]
      cases findBucket n s.buckets <;> rfl
    · rw [if_neg hn, if_neg hn]
      rfl

end

section
variable [Zero δ] [Sub δ] [LT δ] [DecidableLT δ]

/-- A flush that keeps its batch has failed, and counts that. -/
theorem flushSubtraction_kept {s : State δ} (f : Flush δ) {status : Int}
    (h : letsGo s status = false) :
    flushSubtraction s f status = { s with consecutiveFailures := s.consecutiveFailures + 1 } := by
  have hkeeps : ¬ letsGo s status = true := by
    rw [h]
    exact Bool.false_ne_true
  simp only [letsGo, Bool.or_eq_false_iff, decide_eq_false_iff_not, not_not] at h
  rw [flushSubtraction, if_neg hkeeps, if_pos h.1]

/-- What is left of a bucket when another is subtracted from it, if anything is counted. -/
def Bucket.remaining (current sent : Bucket δ) : Option (Bucket δ) :=
  if (current.subtract sent).count = 0 then none else some (current.subtract sent)

theorem Bucket.count_subtract (current sent : Bucket δ) :
    (current.subtract sent).count = current.count - sent.count := by
  simp only [Bucket.subtract]
  split <;> omega

theorem findBucket_subtractOne {buckets : List (Bucket δ)} (sent : Bucket δ) (n : Bytes)
    (hd : DistinctNames buckets) :
    DistinctNames (subtractOne buckets sent) ∧
      findBucket n (subtractOne buckets sent) =
        if n = sent.name then (findBucket n buckets).bind fun b => b.remaining sent
        else findBucket n buckets := by
  unfold subtractOne
  cases h : findBucket sent.name buckets with
  | none =>
    refine ⟨hd, ?_⟩
    by_cases hn : n = sent.name
    · rw [if_pos hn, hn, h]
      rfl
    · rw [if_neg hn]
  | some current =>
    dsimp only
    have hremaining : ((findBucket sent.name buckets).bind fun b => b.remaining sent) =
        current.remaining sent := by rw [h, Option.bind_some]
    by_cases hzero : (current.subtract sent).count = 0
    · obtain ⟨hd', heq⟩ := findBucket_removeAt n h hd
      rw [if_pos hzero]
      refine ⟨hd', heq.trans ?_⟩
      by_cases hn : n = sent.name
      · rw [if_pos hn, if_pos hn, hn, hremaining, Bucket.remaining, if_pos hzero]
      · rw [if_neg hn, if_neg hn]
    · obtain ⟨hd', heq⟩ := findBucket_set (c := current.subtract sent) n h rfl hd
      rw [if_neg hzero]
      refine ⟨hd', heq.trans ?_⟩
      by_cases hn : n = sent.name
      · rw [if_pos hn, if_pos hn, hn, hremaining, Bucket.remaining, if_neg hzero]
      · rw [if_neg hn, if_neg hn]

/-- The whole loop: each bucket loses what the snapshot has for its name. -/
theorem findBucket_subtractAll {snapshot : List (Bucket δ)} {buckets : List (Bucket δ)} (n : Bytes)
    (hs : DistinctNames snapshot) (hd : DistinctNames buckets) :
    DistinctNames (snapshot.foldl subtractOne buckets) ∧
      findBucket n (snapshot.foldl subtractOne buckets) =
        (findBucket n buckets).bind fun b => (findBucket n snapshot).elim (some b) b.remaining := by
  induction snapshot generalizing buckets with
  | nil => exact ⟨hd, by simp [findBucket]⟩
  | cons sent snapshot ih =>
    obtain ⟨hout, hrest⟩ := List.nodup_cons.mp hs
    obtain ⟨hd', hone⟩ := findBucket_subtractOne sent n hd
    obtain ⟨hd'', hall⟩ := ih hrest hd'
    refine ⟨hd'', ?_⟩
    rw [List.foldl_cons, hall, hone, findBucket_cons]
    by_cases hn : n = sent.name
    · subst hn
      rw [if_pos rfl, if_pos rfl, findBucket_none.mpr hout]
      simp
    · rw [if_neg hn, if_neg (Ne.symm hn)]

theorem countOf_subtractAll {snapshot : List (Bucket δ)} {buckets : List (Bucket δ)} (n : Bytes)
    (hs : DistinctNames snapshot) (hd : DistinctNames buckets) :
    DistinctNames (snapshot.foldl subtractOne buckets) ∧
      countOf n (snapshot.foldl subtractOne buckets) = countOf n buckets - countOf n snapshot := by
  obtain ⟨hd', hfind⟩ := findBucket_subtractAll n hs hd
  refine ⟨hd', ?_⟩
  rw [countOf, hfind, countOf, countOf]
  cases findBucket n buckets with
  | none => exact (Nat.zero_sub _).symm
  | some b =>
    cases findBucket n snapshot with
    | none => rfl
    | some sent =>
      have hcount := b.count_subtract sent
      show (((b.remaining sent).map Bucket.count).getD 0) = b.count - sent.count
      rw [← hcount, Bucket.remaining]
      split
      · rename_i hzero
        exact hzero.symm
      · rfl

end

/-! ## No record is lost while flushes settle one at a time -/

/-- What the buckets hold beyond a snapshot is what was accepted after it. -/
def Current (s : State δ) (f : Flush δ) : Prop :=
  DistinctNames f.snapshot ∧ ∀ n, countOf n s.buckets =
    countOf n f.snapshot + countBetween s.accepted n f.acceptedBefore s.accepted.length

structure Sound (s : State δ) : Prop where
  distinct : DistinctNames s.buckets
  lossless : NoRecordLost s
  taken : ∀ f ∈ s.flushes, f.acceptedBefore ≤ s.accepted.length ∧ f.settledBefore ≤ s.settled.length
  sent : ∀ g ∈ s.settled, g.flush.acceptedBefore ≤ s.accepted.length
  current : ∀ f ∈ s.flushes, f.settledBefore = s.settled.length → Current s f

theorem initial_sound : Sound (initial : State δ) := by
  constructor <;> simp [initial, DistinctNames, NoRecordLost]

/-- When a flush lets its batch go, no other one has let one go since its snapshot. -/
def SnapshotCurrent (s : State δ) : Action δ → Prop
  | .flushSubtraction i status =>
    ∀ f ∈ s.flushes[i]?, letsGo s status → f.settledBefore = s.settled.length
  | _ => True

instance (s : State δ) : ∀ a, Decidable (SnapshotCurrent s a)
  | .flushSubtraction _ _ => inferInstanceAs (Decidable (∀ f ∈ _, _ → _))
  | .record .. => inferInstanceAs (Decidable True)
  | .flushSnapshot .. => inferInstanceAs (Decidable True)

theorem included_snoc {accepted : List (Record δ)} {j : Nat} {f : Flush δ} (r : Record δ)
    (hf : f.acceptedBefore ≤ accepted.length) (h : Included accepted j f) :
    Included (accepted ++ [r]) j f := by
  refine ⟨h.1, fun q hq => ?_⟩
  rw [List.getElem?_append_left (Nat.lt_of_lt_of_le h.1 hf)] at hq
  rw [countBetween_append _ _ _ hf]
  exact h.2 q hq

theorem tallied_sound {s t : State δ} (hs : Sound s) (h : Tallied s t) : Sound t := by
  obtain ⟨hd, hflushes, hsettled, ⟨haccepted, hcount⟩ | ⟨r, haccepted, hcount⟩⟩ := h
  · refine ⟨hd, ?_, ?_, ?_, ?_⟩
    · simpa only [NoRecordLost, Covered, StillCounted, haccepted, hsettled,
        hcount] using hs.lossless
    · simpa only [hflushes, haccepted, hsettled] using hs.taken
    · simpa only [haccepted, hsettled] using hs.sent
    · simpa only [Current, hflushes, haccepted, hsettled, hcount] using hs.current
  · have hlen : t.accepted.length = s.accepted.length + 1 := by simp [haccepted]
    refine ⟨hd, fun j hj => ?_, fun f hf => ?_, fun g hg => ?_, fun f hf hfresh => ?_⟩
    · rcases Nat.lt_succ_iff_lt_or_eq.mp (hlen ▸ hj) with hlt | rfl
      · rcases hs.lossless j hlt with ⟨g, hg, hwhy, hin⟩ | hstill
        · refine .inl ⟨g, hsettled ▸ hg, hwhy, ?_⟩
          rw [haccepted]
          exact included_snoc r (hs.sent g hg) hin
        · refine .inr fun q hq => ?_
          rw [haccepted, List.getElem?_append_left hlt] at hq
          rw [haccepted, countBetween_snoc _ _ _ hlt.le, hcount]
          exact Nat.add_le_add_right (hstill q hq) _
      · refine .inr fun q hq => ?_
        rw [haccepted, List.getElem?_concat_length, Option.mem_some_iff] at hq
        subst hq
        rw [haccepted, countBetween_snoc _ _ _ (Nat.le_refl _), countBetween_self, hcount]
        exact Nat.add_le_add_right (Nat.zero_le _) _
    · have := hs.taken f (hflushes ▸ hf)
      rw [hlen, hsettled]
      omega
    · have := hs.sent g (hsettled ▸ hg)
      omega
    · have hold := hflushes ▸ hf
      obtain ⟨hnames, hbeyond⟩ := hs.current f hold (hsettled ▸ hfresh)
      refine ⟨hnames, fun n => ?_⟩
      rw [hcount, hbeyond, haccepted, countBetween_snoc _ _ _ (hs.taken f hold).1, Nat.add_assoc]

theorem flushSnapshot_sound {s : State δ} (hs : Sound s) (now : Nat) (allocated : Bool) :
    Sound (flushSnapshot s now allocated) := by
  unfold flushSnapshot
  split
  · exact hs
  · refine ⟨hs.distinct, hs.lossless, fun f hf => ?_, hs.sent, fun f hf hfresh => ?_⟩
    · rcases List.mem_append.mp hf with hf | hf
      · exact hs.taken f hf
      · rw [List.mem_singleton.mp hf]
        exact ⟨Nat.le_refl _, Nat.le_refl _⟩
    · rcases List.mem_append.mp hf with hf | hf
      · exact hs.current f hf hfresh
      · rw [List.mem_singleton.mp hf]
        exact ⟨hs.distinct, fun n => by simp [countBetween_self]⟩

section
variable [Zero δ] [Sub δ] [LT δ] [DecidableLT δ]

/-- The settled batch takes the records before its snapshot with it, and those after
it are what the buckets are left with. -/
theorem lossless_after_settling {s : State δ} (hs : Sound s) {f : Flush δ} (status : Int)
    (hf : f.acceptedBefore ≤ s.accepted.length) (hcur : Current s f) (hgo : letsGo s status) :
    NoRecordLost (flushSubtraction s f status) := by
  intro j hj
  simp only [flushSubtraction, if_pos hgo] at hj ⊢
  rcases hs.lossless j hj with ⟨g, hg, hwhy, hin⟩ | hstill
  · exact .inl ⟨g, List.mem_append_left _ hg, hwhy, hin⟩
  · rcases Nat.lt_or_ge j f.acceptedBefore with hlt | hge
    · refine .inl ⟨_, List.mem_append_right _ (List.mem_singleton_self _), ?_, hlt, fun r hr => ?_⟩
      · simp only [letsGo, Bool.or_eq_true, decide_eq_true_eq] at hgo
        cases ho : deliveryOutcomeForStatus status with
        | delivered => exact .inl rfl
        | rejected => exact .inr (.inl rfl)
        | failed =>
          refine .inr (.inr ?_)
          simpa [ho] using hgo
      · have h := hstill r hr
        rw [hcur.2 r.name, countBetween_split _ _ hlt.le hf] at h
        exact Nat.le_of_add_le_add_right h
    · refine .inr fun r hr => ?_
      have hsplit := countBetween_split s.accepted r.name hge hj.le
      simp only [(countOf_subtractAll r.name hcur.1 hs.distinct).2, hcur.2 r.name]
      omega

theorem flushSubtraction_sound {s : State δ} (hs : Sound s) {f : Flush δ} (status : Int)
    (hf : f.acceptedBefore ≤ s.accepted.length) (hcur : letsGo s status → Current s f) :
    Sound (flushSubtraction s f status) := by
  by_cases hgo : letsGo s status
  · have hlossless := lossless_after_settling hs status hf (hcur hgo) hgo
    simp only [flushSubtraction, if_pos hgo] at hlossless ⊢
    refine ⟨(countOf_subtractAll [] (hcur hgo).1 hs.distinct).1, hlossless, ?_, ?_, ?_⟩
    · intro h hh
      have := hs.taken h hh
      simp only [List.length_append]
      omega
    · intro g hg
      rcases List.mem_append.mp hg with hg | hg
      · exact hs.sent g hg
      · rw [List.mem_singleton.mp hg]
        exact hf
    · intro h hh hfresh
      have := hs.taken h hh
      simp only [List.length_append, List.length_singleton] at hfresh
      omega
  · simp only [flushSubtraction, if_neg hgo]
    exact ⟨hs.distinct, hs.lossless, hs.taken, hs.sent, hs.current⟩

variable [Add δ]

theorem step_sound (s : State δ) (a : Action δ) (t : State δ) (hs : Sound s)
    (hq : SnapshotCurrent s a) (ht : step s a = some t) : Sound t := by
  cases a with
  | record config name durationMs now alloc =>
    obtain rfl := Option.some.inj ht
    obtain ⟨_, htally⟩ := record_spec s config name durationMs now alloc hs.distinct
    exact tallied_sound hs htally.tallied
  | flushSnapshot now allocated =>
    obtain rfl := Option.some.inj ht
    exact flushSnapshot_sound hs now allocated
  | flushSubtraction i status =>
    obtain ⟨f, hf, rfl⟩ := Option.map_eq_some_iff.mp ht
    have hmem := List.mem_of_getElem? hf
    have hrest : ∀ g ∈ s.flushes.eraseIdx i, g ∈ s.flushes := fun g => List.mem_of_mem_eraseIdx
    have hs' : Sound { s with flushes := s.flushes.eraseIdx i } :=
      ⟨hs.distinct, hs.lossless, fun g hg => hs.taken g (hrest g hg), hs.sent,
        fun g hg => hs.current g (hrest g hg)⟩
    exact flushSubtraction_sound hs' status (hs.taken f hmem).1
      fun hgo => hs.current f hmem (hq f hf hgo)

/-- As long as no flush lets its batch go after another one did so since its
snapshot, every accepted record was in a batch that was let go or is still counted. -/
theorem serial_subtractions_lose_no_record (actions : List (Action δ))
    (h : Runs.EveryStep step SnapshotCurrent initial actions) :
    Runs.Always step NoRecordLost initial actions :=
  (Runs.always_of_steps step_sound initial actions initial_sound h).imp fun _ hs => hs.lossless

end

/-- One `GET /` of `durationMs`, recorded in the first second. -/
def recordOne (durationMs : ℤ) : Action ℤ :=
  .record (some { dsn := some (ascii "https://key@host") }) (some (ascii "GET /")) durationMs 0 {}

theorem serial_subtractions_lose_no_record_run :
    let run := [recordOne 5, .flushSnapshot 60 true, .flushSnapshot 61 true, recordOne 7,
      .flushSubtraction 0 200, .flushSubtraction 0 503, .flushSnapshot 62 true,
      .flushSubtraction 0 404]
    Runs.EveryStep step SnapshotCurrent initial run ∧ Runs.Always step NoRecordLost initial run :=
  ⟨by decide, serial_subtractions_lose_no_record _ (by decide)⟩

/-- Two flushes take the same record. The first delivery empties the bucket; what is
recorded after it goes with the second, which never had it in its snapshot. -/
def overlappingFlushes : List (Action ℤ) :=
  [recordOne 5, .flushSnapshot 60 true, .flushSnapshot 60 true, .flushSubtraction 0 200,
    recordOne 7, .flushSubtraction 0 200]

theorem overlappingFlushes_lose_record :
    ¬ Runs.Always step NoRecordLost initial overlappingFlushes := by
  decide

end ForgeOps.Performance
