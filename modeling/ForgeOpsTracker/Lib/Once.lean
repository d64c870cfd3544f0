import ForgeOpsTracker.Lib.Unwinding
import Mathlib.Logic.Function.Basic

/-! A job that is done once: a flag that callers may look at, and that the one who does the job has
taken with an exchange. Each access of the flag is a step of its own, so callers may come
between. -/

namespace ForgeOps.Once

variable {α : Type*}

/-- Where a caller stands: outside, before the exchange, or with the flag taken. -/
inductive Phase (α : Type*)
  | idle
  | before (job : α)
  | taken (job : α)

/-- `finished` is history: the jobs that were done. -/
structure State (α : Type*) where
  flag : Bool
  phases : Nat → Phase α
  finished : List α

def initial : State α := ⟨false, fun _ => .idle, []⟩

/-- `look` passes only while the flag is down, `enter` without a look. -/
inductive Action (α : Type*)
  | look (caller : Nat) (job : α)
  | enter (caller : Nat) (job : α)
  | exchange (caller : Nat)
  | finish (caller : Nat)

def State.put (s : State α) (caller : Nat) (phase : Phase α) : State α :=
  { s with phases := Function.update s.phases caller phase }

def step (s : State α) : Action α → Option (State α)
  | .look caller job =>
    match s.phases caller with
    | .idle => some (if s.flag then s else s.put caller (.before job))
    | _ => none
  | .enter caller job =>
    match s.phases caller with
    | .idle => some (s.put caller (.before job))
    | _ => none
  | .exchange caller =>
    match s.phases caller with
    | .before job => some { s.put caller (if s.flag then .idle else .taken job) with flag := true }
    | _ => none
  | .finish caller =>
    match s.phases caller with
    | .taken job => some { s.put caller .idle with finished := s.finished ++ [job] }
    | _ => none

/-- Someone came for the job. -/
def Wanted (actions : List (Action α)) (job : α) : Prop :=
  ∃ caller, .look caller job ∈ actions ∨ .enter caller job ∈ actions

/-- The job of a caller who is under way. -/
def Phase.job : Phase α → Option α
  | .idle => none
  | .before job => some job
  | .taken job => some job

theorem put_self (s : State α) (caller : Nat) (phase : Phase α) :
    (s.put caller phase).phases caller = phase :=
  Function.update_self ..

theorem put_other (s : State α) {caller other : Nat} (h : other ≠ caller) (phase : Phase α) :
    (s.put caller phase).phases other = s.phases other :=
  Function.update_of_ne h ..

/-! ## One who took it -/

/-- Nobody has the flag, one caller has, or the job is done. -/
inductive Standing (s : State α) : Prop
  | down (hflag : s.flag = false) (hnone : ∀ i job, s.phases i ≠ .taken job)
      (hfinished : s.finished = [])
  | held (hflag : s.flag = true) (caller : Nat) (hheld : ∃ job, s.phases caller = .taken job)
      (hother : ∀ i job, s.phases i = .taken job → i = caller) (hfinished : s.finished = [])
  | done (hflag : s.flag = true) (hnone : ∀ i job, s.phases i ≠ .taken job)
      (hfinished : ∃ job, s.finished = [job])

/-- What holds of a state that actions led to. -/
structure Told (actions : List (Action α)) (s : State α) : Prop where
  standing : Standing s
  wanted : ∀ i, ∀ job ∈ (s.phases i).job, Wanted actions job
  finished : ∀ job ∈ s.finished, Wanted actions job
  waiting : s.flag = false → ∀ job, Wanted actions job → ∃ i, s.phases i = .before job

theorem told_initial : Told [] (initial : State α) where
  standing := .down rfl (fun _ _ h => nomatch h) rfl
  wanted _ _ h := nomatch h
  finished _ h := nomatch h
  waiting _ _ h := by
    obtain ⟨_, h | h⟩ := h
    · exact absurd h List.not_mem_nil
    · exact absurd h List.not_mem_nil

theorem Wanted.mono {actions actions' : List (Action α)}
    (hsub : ∀ a ∈ actions, a ∈ actions') {job : α} (h : Wanted actions job) :
    Wanted actions' job := by
  obtain ⟨caller, h | h⟩ := h
  · exact ⟨caller, .inl (hsub _ h)⟩
  · exact ⟨caller, .inr (hsub _ h)⟩

/-- A caller who comes in before the exchange. -/
theorem Standing.enter {s : State α} (h : Standing s) {caller : Nat}
    (hidle : s.phases caller = .idle) (job : α) : Standing (s.put caller (.before job)) := by
  have hback : ∀ i job', (s.put caller (.before job)).phases i = .taken job' →
      s.phases i = .taken job' := by
    intro i job' hi
    by_cases heq : i = caller
    · rw [heq, put_self] at hi
      exact nomatch hi
    · rwa [put_other s heq] at hi
  cases h with
  | down hflag hnone hfinished =>
    exact .down hflag (fun i job' hi => hnone i job' (hback i job' hi)) hfinished
  | held hflag holder hheld hother hfinished =>
    refine .held hflag holder ?_ (fun i job' hi => hother i job' (hback i job' hi)) hfinished
    have hne : holder ≠ caller := by
      rintro rfl
      obtain ⟨job', hjob⟩ := hheld
      rw [hidle] at hjob
      exact nomatch hjob
    rwa [put_other s hne]
  | done hflag hnone hfinished =>
    exact .done hflag (fun i job' hi => hnone i job' (hback i job' hi)) hfinished

/-- An exchange finds the flag up and leaves, or down and has it. -/
theorem Standing.exchange {s : State α} (h : Standing s) {caller : Nat} {job : α}
    (hbefore : s.phases caller = .before job) :
    Standing { s.put caller (if s.flag then .idle else .taken job) with flag := true } := by
  have hkept : ∀ i, i ≠ caller → (s.put caller (if s.flag then .idle else .taken job)).phases
      i = s.phases i :=
    fun i hi => put_other s hi _
  cases h with
  | down hflag hnone hfinished =>
    rw [hflag] at hkept ⊢
    refine .held rfl caller ⟨job, put_self ..⟩ (fun i job' hi => ?_) hfinished
    by_contra hne
    exact hnone i job' ((hkept i hne).symm.trans hi)
  | held hflag holder hheld hother hfinished =>
    rw [hflag] at hkept ⊢
    have hne : holder ≠ caller := by
      rintro rfl
      obtain ⟨job', hjob⟩ := hheld
      rw [hbefore] at hjob
      exact nomatch hjob
    refine .held rfl holder ?_ (fun i job' hi => ?_) hfinished
    · obtain ⟨job', hjob⟩ := hheld
      exact ⟨job', (hkept holder hne).trans hjob⟩
    · by_cases heq : i = caller
      · rw [heq] at hi
        exact nomatch (put_self s caller .idle).symm.trans hi
      · exact hother i job' ((hkept i heq).symm.trans hi)
  | done hflag hnone hfinished =>
    rw [hflag] at hkept ⊢
    refine .done rfl (fun i job' hi => ?_) hfinished
    by_cases heq : i = caller
    · rw [heq] at hi
      exact nomatch (put_self s caller .idle).symm.trans hi
    · exact hnone i job' ((hkept i heq).symm.trans hi)

/-- Only the one who has the flag does the job, and that once. -/
theorem Standing.finish {s : State α} (h : Standing s) {caller : Nat} {job : α}
    (htaken : s.phases caller = .taken job) :
    Standing { s.put caller .idle with finished := s.finished ++ [job] } := by
  cases h with
  | down hflag hnone hfinished => exact absurd htaken (hnone caller job)
  | held hflag holder hheld hother hfinished =>
    refine .done hflag (fun i job' hi => ?_) ⟨job, by rw [hfinished, List.nil_append]⟩
    by_cases heq : i = caller
    · rw [heq] at hi
      exact nomatch (put_self s caller .idle).symm.trans hi
    · have hi' : s.phases i = .taken job' := (put_other s heq _).symm.trans hi
      exact heq ((hother i job' hi').trans (hother caller job htaken).symm)
  | done hflag hnone hfinished => exact absurd htaken (hnone caller job)

/-! ## Over a run -/

theorem wanted_last {actions : List (Action α)} {a : Action α} {caller : Nat} {job : α}
    (ha : a = .look caller job ∨ a = .enter caller job) : Wanted (actions ++ [a]) job := by
  have hmem : a ∈ actions ++ [a] := List.mem_append_right _ (List.mem_singleton_self a)
  rcases ha with rfl | rfl
  · exact ⟨caller, .inl hmem⟩
  · exact ⟨caller, .inr hmem⟩

/-- Who wants the job came before, or comes last. -/
theorem wanted_concat {actions : List (Action α)} {a : Action α} {job : α}
    (h : Wanted (actions ++ [a]) job) :
    Wanted actions job ∨ ∃ caller, a = .look caller job ∨ a = .enter caller job := by
  obtain ⟨caller, h | h⟩ := h
  · rcases List.mem_append.mp h with h | h
    · exact .inl ⟨caller, .inl h⟩
    · exact .inr ⟨caller, .inl (List.mem_singleton.mp h).symm⟩
  · rcases List.mem_append.mp h with h | h
    · exact .inl ⟨caller, .inr h⟩
    · exact .inr ⟨caller, .inr (List.mem_singleton.mp h).symm⟩

section
variable {actions : List (Action α)} {s : State α} (h : Told actions s)
include h

/-- A caller finds the flag up, and leaves. -/
theorem Told.passedBy (hflag : s.flag = true) (a : Action α) : Told (actions ++ [a]) s where
  standing := h.standing
  wanted i job hjob := (h.wanted i job hjob).mono fun _ => List.mem_append_left _
  finished job hjob := (h.finished job hjob).mono fun _ => List.mem_append_left _
  waiting hdown := absurd (hflag.symm.trans hdown) (by decide)

theorem Told.came {caller : Nat} (hidle : s.phases caller = .idle) {job : α} {a : Action α}
    (ha : a = .look caller job ∨ a = .enter caller job) :
    Told (actions ++ [a]) (s.put caller (.before job)) where
  standing := h.standing.enter hidle job
  wanted i job' hjob := by
    by_cases heq : i = caller
    · rw [heq, put_self] at hjob
      obtain rfl := Option.some.inj hjob
      exact wanted_last ha
    · rw [put_other s heq] at hjob
      exact (h.wanted i job' hjob).mono fun _ => List.mem_append_left _
  finished job' hjob := (h.finished job' hjob).mono fun _ => List.mem_append_left _
  waiting hdown job' hwanted := by
    rcases wanted_concat hwanted with hwanted | ⟨caller', ha'⟩
    · obtain ⟨i, hi⟩ := h.waiting hdown job' hwanted
      have hne : i ≠ caller := by
        rintro rfl
        exact nomatch hidle.symm.trans hi
      exact ⟨i, (put_other s hne _).trans hi⟩
    · have hjob : job' = job := by
        rcases ha with rfl | rfl <;> rcases ha' with ha' | ha' <;> cases ha' <;> rfl
      exact ⟨caller, by rw [hjob, put_self]⟩

theorem Told.exchanged {caller : Nat} {job : α} (hbefore : s.phases caller = .before job) :
    Told (actions ++ [.exchange caller])
      { s.put caller (if s.flag then .idle else .taken job) with flag := true } where
  standing := h.standing.exchange hbefore
  wanted i job' hjob := by
    refine (h.wanted i job' ?_).mono fun _ => List.mem_append_left _
    by_cases heq : i = caller
    · subst heq
      have hjob' : job' ∈ (if s.flag then Phase.idle else Phase.taken job).job := by
        simpa only [put_self] using hjob
      rw [hbefore]
      cases hflag : s.flag with
      | true =>
        rw [hflag] at hjob'
        exact nomatch hjob'
      | false =>
        rw [hflag] at hjob'
        exact hjob'
    · simpa only [put_other s heq] using hjob
  finished job' hjob := (h.finished job' hjob).mono fun _ => List.mem_append_left _
  waiting hdown := absurd (show true = false from hdown) (by decide)

theorem Told.finishes {caller : Nat} {job : α} (htaken : s.phases caller = .taken job) :
    Told (actions ++ [.finish caller])
      { s.put caller .idle with finished := s.finished ++ [job] } where
  standing := h.standing.finish htaken
  wanted i job' hjob := by
    refine (h.wanted i job' ?_).mono fun _ => List.mem_append_left _
    by_cases heq : i = caller
    · subst heq
      exact nomatch (put_self s i .idle) ▸ hjob
    · simpa only [put_other s heq] using hjob
  finished job' hjob := by
    refine Wanted.mono (fun _ => List.mem_append_left _) ?_
    rcases List.mem_append.mp hjob with hjob | hjob
    · exact h.finished job' hjob
    · rw [List.mem_singleton.mp hjob]
      exact h.wanted caller job (by rw [htaken]; rfl)
  waiting hdown := by
    cases h.standing with
    | down hflag hnone hfinished => exact absurd htaken (hnone caller job)
    | held hflag => exact absurd (hflag.symm.trans hdown) (by decide)
    | done hflag => exact absurd (hflag.symm.trans hdown) (by decide)

theorem Told.step {t : State α} {a : Action α} (ht : step s a = some t) :
    Told (actions ++ [a]) t := by
  cases a with
  | look caller job =>
    cases hphase : s.phases caller with
    | idle =>
      simp only [Once.step, hphase, Option.some.injEq] at ht
      subst ht
      cases hflag : s.flag with
      | true => exact h.passedBy hflag _
      | false => exact h.came hphase (.inl rfl)
    | before job' => simp [Once.step, hphase] at ht
    | taken job' => simp [Once.step, hphase] at ht
  | enter caller job =>
    cases hphase : s.phases caller with
    | idle =>
      simp only [Once.step, hphase, Option.some.injEq] at ht
      subst ht
      exact h.came hphase (.inr rfl)
    | before job' => simp [Once.step, hphase] at ht
    | taken job' => simp [Once.step, hphase] at ht
  | exchange caller =>
    cases hphase : s.phases caller with
    | before job =>
      simp only [Once.step, hphase, Option.some.injEq] at ht
      subst ht
      exact h.exchanged hphase
    | idle => simp [Once.step, hphase] at ht
    | taken job' => simp [Once.step, hphase] at ht
  | finish caller =>
    cases hphase : s.phases caller with
    | taken job =>
      simp only [Once.step, hphase, Option.some.injEq] at ht
      subst ht
      exact h.finishes hphase
    | idle => simp [Once.step, hphase] at ht
    | before job' => simp [Once.step, hphase] at ht

/-- The job is done at most once. -/
theorem Told.finished_le : s.finished.length ≤ 1 := by
  cases h.standing with
  | down _ _ hfinished => simp [hfinished]
  | held _ _ _ _ hfinished => simp [hfinished]
  | done _ _ hfinished =>
    obtain ⟨job, hjob⟩ := hfinished
    simp [hjob]

/-- When all who came have left, it is done if anyone came. -/
theorem Told.finished_iff (hrest : ∀ i, s.phases i = .idle) :
    s.finished ≠ [] ↔ ∃ job, Wanted actions job := by
  constructor
  · intro hfinished
    obtain ⟨job, hjob⟩ := List.exists_mem_of_ne_nil _ hfinished
    exact ⟨job, h.finished job hjob⟩
  · rintro ⟨job, hwanted⟩ hempty
    cases h.standing with
    | down hflag =>
      obtain ⟨i, hi⟩ := h.waiting hflag job hwanted
      exact nomatch (hrest i).symm.trans hi
    | held _ caller hheld =>
      obtain ⟨job', hjob⟩ := hheld
      exact nomatch (hrest caller).symm.trans hjob
    | done _ _ hfinished =>
      obtain ⟨job', hjob⟩ := hfinished
      exact absurd (hjob.symm.trans hempty) (List.cons_ne_nil _ _)

end

theorem told_run {actions : List (Action α)} {s : State α}
    (h : Runs.exec step initial actions = some s) : Told actions s :=
  Runs.exec_told (I := Told) told_initial (fun _ _ _ _ ht hu => ht.step hu) h

end ForgeOps.Once
