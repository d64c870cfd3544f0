import Mathlib.Data.List.Basic

/-! A ring of a fixed number of slots, and the list of what it holds, oldest first. -/

namespace ForgeOps

variable {α : Type*}

/-- `count` entries from the slot `start` on, going round at the end. -/
structure Ring (α : Type*) where
  capacity : Nat
  start : Nat
  count : Nat
  slots : List α
  start_lt : start < capacity
  count_le : count ≤ capacity
  slots_length : slots.length = capacity

namespace Ring

/-- A ring of `capacity` slots that all hold `blank`, none of which counts yet. -/
def create (capacity : Nat) (blank : α) (h : 0 < capacity) : Ring α where
  capacity := capacity
  start := 0
  count := 0
  slots := List.replicate capacity blank
  start_lt := h
  count_le := Nat.zero_le _
  slots_length := List.length_replicate

theorem slot_lt (r : Ring α) (i : Nat) : (r.start + i) % r.capacity < r.slots.length := by
  rw [r.slots_length]
  exact Nat.mod_lt _ (Nat.zero_lt_of_lt r.start_lt)

/-- The `i`-th entry, counted from the oldest. -/
def entry (r : Ring α) (i : Nat) : α := r.slots.get ⟨(r.start + i) % r.capacity, r.slot_lt i⟩

def toList (r : Ring α) : List α := (List.range r.count).map r.entry

/-- The oldest entry goes; an empty ring stays as it is. -/
def dropOldest (r : Ring α) : Ring α :=
  if r.count = 0 then r
  else
    { r with
      start := (r.start + 1) % r.capacity
      count := r.count - 1
      start_lt := Nat.mod_lt _ (Nat.zero_lt_of_lt r.start_lt)
      count_le := Nat.le_trans (Nat.sub_le _ _) r.count_le }

/-- Oldest entries go while there are `most` or more. -/
def trim (most : Nat) (r : Ring α) : Ring α :=
  if most ≤ r.count ∧ 0 < r.count then trim most r.dropOldest else r
termination_by r.count
decreasing_by
  rename_i h
  simp only [dropOldest, Nat.pos_iff_ne_zero.mp h.2, if_false]
  omega

/-- `a` in the slot just past the newest, when there is one. -/
def push (r : Ring α) (a : α) : Ring α :=
  if h : r.count < r.capacity then
    { r with
      count := r.count + 1
      slots := r.slots.set ((r.start + r.count) % r.capacity) a
      count_le := h
      slots_length := by rw [List.length_set, r.slots_length] }
  else r

def clear (r : Ring α) : Ring α :=
  { r with
    start := 0
    count := 0
    start_lt := Nat.zero_lt_of_lt r.start_lt
    count_le := Nat.zero_le _ }

/-! ## What the operations do to the list -/

/-- Entries of a ring that is not full stand in other slots than the next one. -/
theorem slot_ne {capacity i n : Nat} (start : Nat) (hi : i < n) (hn : n < capacity) :
    (start + n) % capacity ≠ (start + i) % capacity := by
  intro heq
  have hzero := Nat.sub_mod_eq_zero_of_mod_eq heq
  rw [Nat.mod_eq_of_lt (by omega)] at hzero
  omega

@[simp] theorem toList_create (capacity : Nat) (blank : α) (h : 0 < capacity) :
    (create capacity blank h).toList = [] := rfl

@[simp] theorem length_toList (r : Ring α) : r.toList.length = r.count := by
  rw [toList, List.length_map, List.length_range]

@[simp] theorem capacity_dropOldest (r : Ring α) : r.dropOldest.capacity = r.capacity := by
  unfold dropOldest
  split <;> rfl

theorem count_dropOldest (r : Ring α) : r.dropOldest.count = r.count - 1 := by
  unfold dropOldest
  split
  · omega
  · rfl

theorem toList_dropOldest (r : Ring α) : r.dropOldest.toList = r.toList.tail := by
  apply List.ext_getElem
  · simp [count_dropOldest]
  · intro i hi hi'
    have hpos : r.count ≠ 0 := by
      rw [length_toList, count_dropOldest] at hi
      omega
    simp only [toList, List.getElem_map, List.getElem_range, List.getElem_tail, entry, dropOldest,
      hpos, if_false, List.get_eq_getElem]
    congr 1
    rw [Nat.mod_add_mod]
    congr 1
    omega

theorem trim_of_lt {most : Nat} {r : Ring α} (h : r.count < most) : r.trim most = r := by
  rw [trim, if_neg (by omega)]

theorem trim_of_le {most : Nat} {r : Ring α} (h : most ≤ r.count) (hpos : 0 < r.count) :
    r.trim most = r.dropOldest.trim most := by
  rw [trim, if_pos ⟨h, hpos⟩]

/-- The newest `most - 1` entries stay. -/
theorem toList_trim {most : Nat} (hmost : 0 < most) (r : Ring α) :
    (r.trim most).toList = r.toList.drop (r.count + 1 - most) := by
  induction hn : r.count generalizing r with
  | zero =>
    rw [trim_of_lt (by omega), show 0 + 1 - most = 0 by omega]
    rfl
  | succ n ih =>
    by_cases h : most ≤ r.count
    · rw [trim_of_le h (by omega), ih _ (by rw [count_dropOldest]; omega), toList_dropOldest,
        ← List.drop_one, List.drop_drop]
      congr 1
      omega
    · rw [trim_of_lt (by omega), show n + 1 + 1 - most = 0 by omega]
      rfl

@[simp] theorem capacity_trim (most : Nat) (r : Ring α) : (r.trim most).capacity = r.capacity := by
  induction hn : r.count generalizing r with
  | zero => rw [trim, if_neg (by omega)]
  | succ n ih =>
    by_cases h : most ≤ r.count
    · rw [trim_of_le h (by omega), ih _ (by rw [count_dropOldest]; omega), capacity_dropOldest]
    · rw [trim_of_lt (by omega)]

theorem count_trim_lt {most : Nat} (hmost : 0 < most) (r : Ring α) :
    (r.trim most).count < most := by
  rw [← length_toList, toList_trim hmost, List.length_drop, length_toList]
  omega

theorem toList_push {r : Ring α} (h : r.count < r.capacity) (a : α) :
    (r.push a).toList = r.toList ++ [a] := by
  apply List.ext_getElem
  · simp [push, h]
  · intro i hi hi'
    simp only [push, h, dif_pos, length_toList] at hi
    rcases Nat.lt_succ_iff_lt_or_eq.mp hi with hlt | rfl
    · -- an older entry stands in another slot
      have hne := slot_ne r.start hlt h
      rw [List.getElem_append_left (by simpa using hlt)]
      simp only [toList, List.getElem_map, List.getElem_range, entry, push, h, dif_pos,
        List.get_eq_getElem]
      exact List.getElem_set_ne hne _
    · simp [toList, entry, push, h]

end Ring

end ForgeOps
