import Mathlib.Data.List.Count
import Mathlib.Logic.Function.Basic

/-! Handles to places that only one of them may free. Asking for a place always gives a handle, and
the handle owns the place if nothing held it before; giving a handle back frees its place if it owns
it, and the handle owns nothing from then on. As long as handles are given back at their own place,
a place is held exactly while one handle owns it, so nothing but giving back that handle frees
it. -/

namespace ForgeOps.Owner

variable {κ : Type*}

structure Handle (κ : Type*) where
  place : κ
  owns : Bool
  deriving DecidableEq

structure Ledger (κ : Type*) where
  held : κ → Bool
  handles : List (Handle κ)

def owner (place : κ) : Handle κ := ⟨place, true⟩

theorem eq_owner {handle : Handle κ} {place : κ} (howns : handle.owns = true)
    (hplace : handle.place = place) : handle = owner place := by
  cases handle
  cases howns
  cases hplace
  rfl

namespace Ledger

variable [DecidableEq κ]

/-- Ask for a place; `granted` says whether it can be had when it is free. -/
def take (l : Ledger κ) (place : κ) (granted : Bool) : Ledger κ :=
  let owns := !l.held place && granted
  ⟨Function.update l.held place (l.held place || owns), l.handles ++ [⟨place, owns⟩]⟩

/-- Give the `i`-th handle back at a place. -/
def give (l : Ledger κ) (place : κ) (i : Nat) : Ledger κ :=
  match l.handles[i]? with
  | none => l
  | some handle =>
    if handle.owns then
      ⟨Function.update l.held place false, l.handles.set i { handle with owns := false }⟩
    else l

/-- The handle is given back at its own place, if it owns that. -/
def Home (l : Ledger κ) (place : κ) (i : Nat) : Prop :=
  ∀ handle ∈ l.handles[i]?, handle.owns = true → handle.place = place

/-- One handle owns a place while it is held, and none while it is not. -/
def OneOwner (l : Ledger κ) : Prop := ∀ place, l.handles.count (owner place) = (l.held place).toNat

variable {l : Ledger κ}

theorem take_oneOwner (h : l.OneOwner) (place : κ) (granted : Bool) :
    (l.take place granted).OneOwner := by
  intro other
  show (l.handles ++ [(⟨place, !l.held place && granted⟩ : Handle κ)]).count (owner other) =
    (Function.update l.held place (l.held place || (!l.held place && granted)) other).toNat
  rw [List.count_append, h other]
  by_cases hother : other = place
  · rw [hother, Function.update_self]
    cases l.held place <;> cases granted <;> simp [owner]
  · rw [Function.update_of_ne hother, List.count_eq_zero_of_not_mem, Nat.add_zero]
    intro hmem
    exact hother (congrArg Handle.place (List.mem_singleton.mp hmem))

theorem give_oneOwner (h : l.OneOwner) {place : κ} {i : Nat} (hhome : l.Home place i) :
    (l.give place i).OneOwner := by
  unfold give
  cases hi : l.handles[i]? with
  | none => exact h
  | some handle =>
    simp only
    split
    swap
    · exact h
    rename_i howns
    have hhandle := eq_owner howns (hhome handle hi howns)
    obtain ⟨hlt, hget⟩ := List.getElem?_eq_some_iff.mp hi
    intro other
    show (l.handles.set i { handle with owns := false }).count (owner other) =
      (Function.update l.held place false other).toNat
    rw [List.count_set hlt, hget, h other, hhandle]
    by_cases hother : other = place
    · rw [hother, Function.update_self]
      cases l.held place <;> simp [owner]
    · have hne : (owner place == owner other) = false :=
        beq_eq_false_iff_ne.mpr fun heq => hother (congrArg Handle.place heq).symm
      rw [Function.update_of_ne hother, hne]
      simp [owner]

/-- At most one handle owns a place. -/
theorem OneOwner.eq_of_owns (h : l.OneOwner) {place : κ} {i j : Nat}
    (hi : l.handles[i]? = some (owner place))
    (hj : l.handles[j]? = some (owner place)) : i = j := by
  have hle : l.handles.count (owner place) ≤ 1 := by
    rw [h place]
    exact Bool.toNat_le _
  have hlt : ∀ {i j : Nat}, l.handles[i]? = some (owner place) →
      l.handles[j]? = some (owner place) → ¬ i < j := by
    intro i j hi hj hlt
    have hfront : 0 < (l.handles.take j).count (owner place) := by
      apply List.count_pos_iff.mpr
      exact List.mem_of_getElem? ((List.getElem?_take_of_lt hlt).trans hi)
    have hback : 0 < (l.handles.drop j).count (owner place) := by
      apply List.count_pos_iff.mpr
      exact List.mem_of_getElem? (i := 0) (by rw [List.getElem?_drop]; exact hj)
    have hsum : (l.handles.take j).count (owner place) + (l.handles.drop j).count
        (owner place) ≤ 1 := by
      rwa [← List.count_append, List.take_append_drop]
    omega
  exact Nat.le_antisymm (Nat.not_lt.mp (hlt hj hi)) (Nat.not_lt.mp (hlt hi hj))

end Ledger

end ForgeOps.Owner
