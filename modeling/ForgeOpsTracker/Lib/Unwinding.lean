import ForgeOpsTracker.Lib.Runs
import Mathlib.Data.List.Induction
import Mathlib.Data.Option.Basic

/-! Runs that are told by their actions. A state may have to fit the actions that led to it
(`exec_told`), and two runs whose actions are alike, up to quiet ones that only one of them takes,
may have to show the same (`Unwinds`): what two runs show is compared step by step through a
relation between their states. -/

namespace ForgeOps.Runs

variable {σ α ω : Type*} {step : σ → α → Option σ}

theorem exec_concat (s : σ) (as : List α) (a : α) :
    exec step s (as ++ [a]) = (exec step s as).bind fun t => step t a := by
  rw [exec_append]
  simp only [exec_cons, exec_nil, Option.bind_fun_some]

/-- What one more action keeps true of the actions and the state holds at the end of every run. -/
theorem exec_told {I : List α → σ → Prop} {s : σ} (hs : I [] s)
    (hstep : ∀ as t a u, I as t → step t a = some u → I (as ++ [a]) u) {as : List α} {t : σ}
    (h : exec step s as = some t) : I as t := by
  induction as using List.reverseRecOn generalizing t with
  | nil =>
    obtain rfl := Option.some.inj h
    exact hs
  | append_singleton as a ih =>
    rw [exec_concat] at h
    obtain ⟨u, hu, ha⟩ := Option.bind_eq_some_iff.mp h
    exact hstep as u a t (ih hu) ha

/-- A part of the state that only some of the actions move has a run of its own. -/
theorem exec_filterMap {τ β : Type*} {step' : τ → β → Option τ} (part : σ → τ) (own : α → Option β)
    (hstep : ∀ s a t, step s a = some t → exec step' (part s) (own a).toList = some (part t))
    {as : List α} {s t : σ} (h : exec step s as = some t) :
    exec step' (part s) (as.filterMap own) = some (part t) := by
  induction as generalizing s with
  | nil =>
    obtain rfl := Option.some.inj h
    rfl
  | cons a as ih =>
    obtain ⟨u, hu, hexec⟩ := Option.bind_eq_some_iff.mp h
    have hsplit : (a :: as).filterMap own = (own a).toList ++ as.filterMap own := by
      rw [List.filterMap_cons]
      cases own a <;> rfl
    rw [hsplit, exec_append, hstep s a u hu, Option.bind_some]
    exact ih hexec

/-! ## Two runs -/

/-- Two lists of actions that are alike one by one, but for quiet ones. -/
inductive Woven (A : α → α → Prop) (Q : α → Prop) : List α → List α → Prop
  | nil : Woven A Q [] []
  | both {a b : α} {as bs : List α} : A a b → Woven A Q as bs → Woven A Q (a :: as) (b :: bs)
  | left {a : α} {as bs : List α} : Q a → Woven A Q as bs → Woven A Q (a :: as) bs
  | right {b : α} {as bs : List α} : Q b → Woven A Q as bs → Woven A Q as (b :: bs)

/-- Without quiet ones they are alike one by one. -/
theorem Woven.of_forall₂ {A : α → α → Prop} {Q : α → Prop} {as bs : List α}
    (h : List.Forall₂ A as bs) : Woven A Q as bs := by
  induction h with
  | nil => exact .nil
  | cons hab _ ih => exact .both hab ih

/-- Alike actions lead from alike states to alike states, or neither can be taken; a quiet one
leads to a state that is alike to the same ones. -/
structure Unwinds (step : σ → α → Option σ) (S : σ → σ → Prop) (A : α → α → Prop)
    (Q : α → Prop) : Prop where
  both : ∀ {s t : σ} {a b : α}, S s t → A a b → Option.Rel S (step s a) (step t b)
  left : ∀ {s t : σ} {a : α}, S s t → Q a → ∃ s', step s a = some s' ∧ S s' t
  right : ∀ {s t : σ} {b : α}, S s t → Q b → ∃ t', step t b = some t' ∧ S s t'

variable {S : σ → σ → Prop} {A : α → α → Prop} {Q : α → Prop}

theorem Unwinds.exec (h : Unwinds step S A Q) {as bs : List α} (hw : Woven A Q as bs) {s t : σ}
    (hst : S s t) : Option.Rel S (Runs.exec step s as) (Runs.exec step t bs) := by
  induction hw generalizing s t with
  | nil => exact .some hst
  | both hab _ ih =>
    have hrel := h.both hst hab
    rw [exec_cons, exec_cons]
    revert hrel
    generalize step s _ = next
    generalize step t _ = next'
    rintro (hst' | _)
    · exact ih hst'
    · exact .none
  | left ha _ ih =>
    obtain ⟨s', hs', hst'⟩ := h.left hst ha
    rw [exec_cons, hs', Option.bind_some]
    exact ih hst'
  | right hb _ ih =>
    obtain ⟨t', ht', hst'⟩ := h.right hst hb
    rw [exec_cons, ht', Option.bind_some]
    exact ih hst'

/-- Two such runs show the same, wherever alike states do. -/
theorem Unwinds.observe (h : Unwinds step S A Q) {observe : σ → ω}
    (hobserve : ∀ s t, S s t → observe s = observe t) {as bs : List α} (hw : Woven A Q as bs)
    {s t : σ} (hst : S s t) :
    (Runs.exec step s as).map observe = (Runs.exec step t bs).map observe := by
  have hrel := h.exec hw hst
  revert hrel
  generalize Runs.exec step s as = last
  generalize Runs.exec step t bs = last'
  rintro (hst' | _)
  · exact congrArg some (hobserve _ _ hst')
  · rfl

end ForgeOps.Runs
