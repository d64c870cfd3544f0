import Mathlib.Data.List.Basic
import Mathlib.Data.Option.Basic

/-! Runs of a system whose step is a partial function of a state and an action.

An action carries everything a step does not read from the state (which thread
moves, what the clock shows, whether an allocation succeeds), so a list of
actions is one interleaving. A property of a run is a property of the states it
reaches (`Always`) or of the steps it takes (`EveryStep`); both are proved from
what one step preserves. -/

namespace ForgeOps.Runs

variable {σ α : Type*}

/-- The state a run ends in, if all its steps can be taken. -/
def exec (step : σ → α → Option σ) (s : σ) (as : List α) : Option σ :=
  as.foldlM step s

/-- `P` holds in `s` and in every state the run reaches from `s`. -/
def Always (step : σ → α → Option σ) (P : σ → Prop) : σ → List α → Prop
  | s, [] => P s
  | s, a :: as => P s ∧ ∀ t ∈ step s a, Always step P t as

/-- Every step the run takes from `s` meets `Q`, read in the state before it. -/
def EveryStep (step : σ → α → Option σ) (Q : σ → α → Prop) : σ → List α → Prop
  | _, [] => True
  | s, a :: as => ∀ t ∈ step s a, Q s a ∧ EveryStep step Q t as

/-- `t` is the end of some run from `s`. -/
def Reachable (step : σ → α → Option σ) (s t : σ) : Prop := ∃ as, exec step s as = some t

section
variable {step : σ → α → Option σ} {I P : σ → Prop} {Q R : σ → α → Prop}

instance decidableAlways [DecidablePred P] : ∀ s as, Decidable (Always step P s as)
  | s, [] => inferInstanceAs (Decidable (P s))
  | s, a :: as =>
    have : ∀ t, Decidable (Always step P t as) := fun t => decidableAlways t as
    inferInstanceAs (Decidable (P s ∧ ∀ t ∈ step s a, Always step P t as))

instance decidableEveryStep [∀ s a, Decidable (Q s a)] :
    ∀ s as, Decidable (EveryStep step Q s as)
  | _, [] => inferInstanceAs (Decidable True)
  | s, a :: as =>
    have : ∀ t, Decidable (EveryStep step Q t as) := fun t => decidableEveryStep t as
    inferInstanceAs (Decidable (∀ t ∈ step s a, Q s a ∧ EveryStep step Q t as))

@[simp] theorem exec_nil (s : σ) : exec step s [] = some s := rfl

@[simp] theorem exec_cons (s : σ) (a : α) (as : List α) :
    exec step s (a :: as) = (step s a).bind fun t => exec step t as := rfl

theorem exec_append (s : σ) (as bs : List α) :
    exec step s (as ++ bs) = (exec step s as).bind fun t => exec step t bs := by
  simp only [exec, List.foldlM_append]; rfl

/-! ## From one step to a run -/

/-- Steps that meet `Q` preserve `I`, so a run of such steps stays inside `I`. -/
theorem always_of_steps (hstep : ∀ s a t, I s → Q s a → step s a = some t → I t)
    (s : σ) (as : List α) (hs : I s) (hq : EveryStep step Q s as) : Always step I s as := by
  induction as generalizing s with
  | nil => exact hs
  | cons a as ih =>
    refine ⟨hs, fun t ht => ?_⟩
    obtain ⟨hqa, hrest⟩ := hq t ht
    exact ih t (hstep s a t hs hqa ht) hrest

theorem always_of_invariant (hstep : ∀ s a t, I s → step s a = some t → I t)
    (s : σ) (as : List α) (hs : I s) : Always step I s as := by
  induction as generalizing s with
  | nil => exact hs
  | cons a as ih => exact ⟨hs, fun t ht => ih t (hstep s a t hs ht)⟩

theorem Always.imp (hip : ∀ s, I s → P s) {s : σ} {as : List α} (h : Always step I s as) :
    Always step P s as := by
  induction as generalizing s with
  | nil => exact hip s h
  | cons a as ih => exact ⟨hip s h.1, fun t ht => ih (h.2 t ht)⟩

/-- Inside an invariant, a condition on the steps may be replaced by one it implies. -/
theorem EveryStep.imp_of_always (hqr : ∀ s a t, I s → step s a = some t → Q s a → R s a)
    {s : σ} {as : List α} (hi : Always step I s as) (hq : EveryStep step Q s as) :
    EveryStep step R s as := by
  induction as generalizing s with
  | nil => trivial
  | cons a as ih =>
    intro t ht
    obtain ⟨hqa, hrest⟩ := hq t ht
    exact ⟨hqr s a t hi.1 ht hqa, ih (hi.2 t ht) hrest⟩

/-- What holds after every step may have required something of the step. -/
theorem Always.everyStep (hpq : ∀ s a t, I s → step s a = some t → P t → Q s a)
    {s : σ} {as : List α} (hi : Always step I s as) (hp : Always step P s as) :
    EveryStep step Q s as := by
  induction as generalizing s with
  | nil => trivial
  | cons a as ih =>
    intro t ht
    have hpt : P t := by
      cases as with
      | nil => exact hp.2 t ht
      | cons b bs => exact (hp.2 t ht).1
    exact ⟨hpq s a t hi.1 ht hpt, ih (hi.2 t ht) (hp.2 t ht)⟩

theorem Always.last {s t : σ} {as : List α} (h : Always step P s as)
    (he : exec step s as = some t) : P t := by
  induction as generalizing s with
  | nil =>
    obtain rfl : s = t := Option.some.inj he
    exact h
  | cons a as ih =>
    obtain ⟨u, hu, hrest⟩ := Option.bind_eq_some_iff.mp he
    exact ih (h.2 u hu) hrest

/-- An abstract system that follows every step of the run follows the whole of it. -/
theorem exec_follows {β : Type*} {next : β → α → β} {R : β → σ → Prop}
    (hstep : ∀ b s a t, R b s → Q s a → step s a = some t → R (next b a) t) {b : β}
    {s t : σ} {as : List α} (hs : R b s) (hq : EveryStep step Q s as)
    (h : exec step s as = some t) : R (as.foldl next b) t := by
  induction as generalizing b s with
  | nil =>
    obtain rfl := Option.some.inj h
    exact hs
  | cons a as ih =>
    obtain ⟨u, hu, hrest⟩ := Option.bind_eq_some_iff.mp h
    obtain ⟨hqa, hqs⟩ := hq u hu
    exact ih (hstep b s a u hs hqa hu) hqs hrest

theorem everyStep_of_forall (hq : ∀ s a, Q s a) (s : σ) (as : List α) : EveryStep step Q s as := by
  induction as generalizing s with
  | nil => trivial
  | cons a as ih => exact fun t _ => ⟨hq s a, ih t⟩

theorem Reachable.refl (s : σ) : Reachable step s s := ⟨[], rfl⟩

theorem Reachable.trans {s t u : σ} (h : Reachable step s t) (h' : Reachable step t u) :
    Reachable step s u := by
  obtain ⟨as, has⟩ := h
  obtain ⟨bs, hbs⟩ := h'
  exact ⟨as ++ bs, by rw [exec_append, has, Option.bind_some, hbs]⟩

theorem Reachable.head {s t u : σ} {a : α} (hstep : step s a = some t) (h : Reachable step t u) :
    Reachable step s u := by
  obtain ⟨as, has⟩ := h
  exact ⟨a :: as, by rw [exec_cons, hstep, Option.bind_some, has]⟩

theorem reachable_invariant (hstep : ∀ s a t, I s → step s a = some t → I t) {s t : σ}
    (hs : I s) (h : Reachable step s t) : I t := by
  obtain ⟨as, has⟩ := h
  exact (always_of_invariant hstep s as hs).last has

end

end ForgeOps.Runs
