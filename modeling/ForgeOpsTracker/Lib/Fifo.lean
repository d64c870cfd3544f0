import Mathlib.Data.List.Basic

/-! A queue in an array: the oldest entry stands in the first slot, a new one goes behind the
newest, and taking the oldest moves the others down. -/

namespace ForgeOps

variable {α : Type*}

/-- An array and how many of its first slots count. -/
structure Fifo (α : Type*) where
  slots : List (Option α)
  count : Nat
  deriving DecidableEq

namespace Fifo

def create (capacity : Nat) : Fifo α := ⟨List.replicate capacity none, 0⟩

/-- `a` in the first slot that does not count. -/
def push (q : Fifo α) (a : α) : Fifo α := ⟨q.slots.set q.count (some a), q.count + 1⟩

def first (q : Fifo α) : Option α := q.slots[0]?.join

/-- The slots that count move down onto the first; the last of them keeps what it held. -/
def shift (q : Fifo α) : Fifo α :=
  ⟨(q.slots.drop 1).take (q.count - 1) ++ q.slots.drop (q.count - 1), q.count - 1⟩

/-- The queue holds these, oldest first. -/
structure Holds (q : Fifo α) (capacity : Nat) (as : List α) : Prop where
  length : q.slots.length = capacity
  count : q.count = as.length
  counted : q.slots.take q.count = as.map some

variable {q : Fifo α} {capacity : Nat} {a : α} {as : List α}

theorem holds_create (capacity : Nat) : (create capacity : Fifo α).Holds capacity [] :=
  ⟨List.length_replicate, rfl, rfl⟩

theorem Holds.count_le (h : q.Holds capacity as) : q.count ≤ capacity := by
  have hlength := congrArg List.length h.counted
  rw [List.length_take, h.length, List.length_map, ← h.count] at hlength
  omega

theorem Holds.push (h : q.Holds capacity as) (hlt : q.count < capacity) (a : α) :
    (q.push a).Holds capacity (as ++ [a]) := by
  have hslot : q.count < q.slots.length := h.length ▸ hlt
  refine ⟨by rw [Fifo.push, List.length_set, h.length], by simp [Fifo.push, h.count], ?_⟩
  calc (q.slots.set q.count (some a)).take (q.count + 1)
    _ = (q.slots.set q.count (some a)).take q.count ++ [some a] := by
      rw [List.take_add_one, List.getElem?_set_self hslot, Option.toList_some]
    _ = q.slots.take q.count ++ [some a] := by rw [List.take_set_of_le (Nat.le_refl _)]
    _ = (as ++ [a]).map some := by rw [h.counted, List.map_append, List.map_singleton]

theorem Holds.first (h : q.Holds capacity (a :: as)) : q.first = some a := by
  have hcount := h.count
  have hget : (q.slots.take q.count)[0]? = some (some a) := by rw [h.counted]; rfl
  rw [List.getElem?_take_of_lt (by rw [hcount]; exact Nat.zero_lt_succ _)] at hget
  rw [Fifo.first, hget, Option.join_some]

theorem Holds.shift (h : q.Holds capacity (a :: as)) : q.shift.Holds capacity as := by
  have hcount : q.count = as.length + 1 := h.count
  have hle := h.count_le
  have hlength := h.length
  have hmoved : ((q.slots.drop 1).take (q.count - 1)).length = q.count - 1 :=
    List.length_take_of_le (by rw [List.length_drop]; omega)
  refine ⟨?_, by rw [Fifo.shift, hcount, Nat.add_sub_cancel], ?_⟩
  · rw [Fifo.shift, List.length_append, hmoved, List.length_drop]
    omega
  · calc ((q.slots.drop 1).take (q.count - 1) ++ q.slots.drop (q.count - 1)).take (q.count - 1)
      _ = (q.slots.drop 1).take (q.count - 1) := List.take_left' hmoved
      _ = (q.slots.take q.count).drop 1 := by rw [List.drop_take]
      _ = as.map some := by rw [h.counted]; rfl

end Fifo

end ForgeOps
