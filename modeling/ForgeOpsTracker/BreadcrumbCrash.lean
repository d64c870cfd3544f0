import ForgeOpsTracker.BreadcrumbTrail

/-! The ring as a fatal signal finds it: `forgeops_breadcrumb_add` and
`forgeops_breadcrumbs_clear` as the stores they perform, one after the other, and the
dump the handler makes between any two of them. -/

namespace ForgeOps.Breadcrumbs

/-! ## Memory -/

/-- The text of a C string in a buffer. -/
def cString (buffer : Bytes) : Bytes := buffer.takeWhile (· ≠ 0)

/-- `ring_t`, each slot with all its bytes. -/
structure RawRing where
  capacity : Nat
  start : Nat
  count : Nat
  slots : List Bytes
  deriving DecidableEq, Repr

inductive Store
  | start (value : Nat)
  | count (value : Nat)
  | byte (slot offset : Nat) (value : UInt8)
  deriving DecidableEq, Repr

namespace RawRing

def store (r : RawRing) : Store → RawRing
  | .start value => { r with start := value }
  | .count value => { r with count := value }
  | .byte slot offset value =>
    { r with slots := r.slots.set slot ((r.slots.getD slot []).set offset value) }

/-- `calloc` leaves every byte 0. -/
def create (capacity : Nat) : RawRing :=
  ⟨capacity, 0, 0, List.replicate capacity (List.replicate slotSize 0)⟩

/-- The string in the slot `i` places past the one `start` names. -/
def slot (r : RawRing) (i : Nat) : Bytes := cString (r.slots.getD ((r.start + i) % r.capacity) [])

/-- The loop of `forgeops_breadcrumbs_write_raw_to_fd`. -/
def entries (r : RawRing) : List Bytes := (List.range r.count).map r.slot

/-- The stores of the loop that makes room, from `start` and `count` on. -/
def trimStores (capacity most : Nat) : Nat → Nat → List Store
  | _, 0 => []
  | start, count + 1 =>
    if most ≤ count + 1 then
      .start ((start + 1) % capacity) :: .count count ::
        trimStores capacity most ((start + 1) % capacity) count
    else []

/-- `memcpy(ring->slots[slot], encoded, strlen(encoded) + 1)`, a byte at a time. -/
def byteStores (slot offset : Nat) : Bytes → List Store
  | [] => []
  | c :: text => .byte slot offset c :: byteStores slot (offset + 1) text

/-- The stores that put an entry behind the newest, with at most `most` entries then. -/
def addStores (r : RawRing) (most : Nat) (entry : Bytes) : List Store :=
  let trims := trimStores r.capacity most r.start r.count
  let trimmed := trims.foldl store r
  let slot := (trimmed.start + trimmed.count) % trimmed.capacity
  trims ++ byteStores slot 0 (entry ++ [0]) ++ [.count (trimmed.count + 1)]

end RawRing

/-! ## A call as its stores -/

/-- The pointer `thread_ring`. -/
abbrev RawTrail := Option RawRing

def rawEntries (trail : RawTrail) : List Bytes := (trail.map RawRing.entries).getD []

/-- `ring_for_this_thread`: what is published is a ring nothing is in yet. -/
def rawRingForThisThread (allocated : Bool) (wantedCapacity : Nat) : RawTrail → RawTrail
  | some ring => some ring
  | none => if allocated then some (RawRing.create wantedCapacity) else none

/-- The ring a call of `forgeops_breadcrumb_add` finds or makes, and the entry and the limit it
comes with when it stores one. -/
def addTarget (call : Call) (a : Allocations) (trail : RawTrail) :
    RawTrail × Option (Nat × Bytes) :=
  match call.message with
  | none => (trail, none)
  | some message =>
    if call.enabled ∧ 0 < call.maxEntries then
      match rawRingForThisThread a.ring call.maxEntries trail with
      | none => (none, none)
      | some ring =>
        (some ring, (call.encoded a message).map
          fun entry => (min call.maxEntries ring.capacity, entry))
    else (trail, none)

/-- The ring a call works on, and its stores in program order. -/
def storesOf (trail : RawTrail) : Action → RawTrail × List Store
  | .clear => (trail, [.start 0, .count 0])
  | .add call a =>
    match addTarget call a trail with
    | (some ring, some (most, entry)) => (some ring, ring.addStores most entry)
    | (ring, _) => (ring, [])

/-- What a signal finds when `k` of a call's stores are done. -/
def storedUpTo (trail : RawTrail) (action : Action) (k : Nat) : RawTrail :=
  (storesOf trail action).1.map fun ring =>
    ((storesOf trail action).2.take k).foldl RawRing.store ring

def rawStep (trail : RawTrail) (action : Action) : Option RawTrail :=
  some (storedUpTo trail action (storesOf trail action).2.length)

/-- Wherever a signal cuts the call short, the handler dumps the trail from before the call,
that trail without some of its oldest entries, or the trail after the call. -/
def CrashSafe (trail : RawTrail) (action : Action) : Prop :=
  ∀ k, (∃ j, rawEntries (storedUpTo trail action k) = (rawEntries trail).drop j) ∨
    rawEntries (storedUpTo trail action k) =
      rawEntries (storedUpTo trail action (storesOf trail action).2.length)

/-- No store of the call can be seen half done: an add finds room without dropping anything, or
the slot behind the newest entry shows what the dump may show there anyway, and a clear finds the
trail at the front of the array. -/
def Unseen (trail : RawTrail) : Action → Prop
  | .clear => ∀ ring ∈ trail, ({ ring with start := 0 } : RawRing).entries = ring.entries
  | .add call a =>
    match addTarget call a trail with
    | (some ring, some (most, entry)) =>
      ring.count < most ∨ (∀ e ∈ ring.entries, e = ring.slot ring.count) ∨
        (ring.count = most ∧ entry = ring.slot ring.count)
    | _ => True

/-! ## Strings in slots -/

theorem cString_stored {entry : Bytes} (h : 0 ∉ entry) (old : Bytes) :
    cString (entry ++ 0 :: old) = entry := by
  induction entry with
  | nil => rfl
  | cons c entry ih =>
    rw [List.mem_cons, not_or] at h
    have hc : decide (c ≠ 0) = true := decide_eq_true (Ne.symm h.1)
    rw [cString, List.cons_append, List.takeWhile_cons, hc, if_pos rfl]
    exact congrArg (c :: ·) (ih h.2)

namespace RawRing

structure WellFormed (r : RawRing) : Prop where
  start_lt : r.start < r.capacity
  count_le : r.count ≤ r.capacity
  slots_length : r.slots.length = r.capacity
  slot_length : ∀ s ∈ r.slots, s.length = slotSize

theorem create_wellFormed {capacity : Nat} (h : 0 < capacity) : (create capacity).WellFormed := by
  refine ⟨h, Nat.zero_le _, List.length_replicate, fun s hs => ?_⟩
  rw [List.eq_of_mem_replicate hs, List.length_replicate]

@[simp] theorem length_entries (r : RawRing) : r.entries.length = r.count := by
  rw [entries, List.length_map, List.length_range]

/-! ## The stores into a slot -/

theorem slots_byteStores (text : Bytes) (i : Nat) {offset : Nat} {r : RawRing} {s : Bytes}
    (h : r.slots[i]? = some s) (hlen : offset + text.length ≤ s.length) :
    (byteStores i offset text).foldl store r =
      { r with
        slots := r.slots.set i (s.take offset ++ (text ++ s.drop (offset + text.length))) } := by
  induction text generalizing offset r s with
  | nil =>
    have hsame : r.slots.set i s = r.slots := by
      obtain ⟨hi, rfl⟩ := List.getElem?_eq_some_iff.mp h
      exact List.set_getElem_self hi
    simp [byteStores, hsame]
  | cons c text ih =>
    have hi := (List.getElem?_eq_some_iff.mp h).1
    have hget : r.slots.getD i [] = s := by rw [List.getD_eq_getElem?_getD, h, Option.getD_some]
    simp only [List.length_cons] at hlen ⊢
    have hnext : (r.store (.byte i offset c)).slots[i]? = some (s.set offset c) := by
      show (r.slots.set i ((r.slots.getD i []).set offset c))[i]? = _
      rw [hget, List.getElem?_set_self hi]
    rw [byteStores, List.foldl_cons, ih hnext (by rw [List.length_set]; omega)]
    have htake : (s.set offset c).take (offset + 1) = s.take offset ++ [c] := by
      have hshort : (s.take offset).length = offset := List.length_take_of_le (by omega)
      rw [List.set_eq_take_append_cons_drop, if_pos (by omega), List.take_append, hshort,
        List.take_of_length_le (by omega), Nat.add_sub_cancel_left]
      rfl
    have hdrop : (s.set offset c).drop (offset + 1 + text.length) =
        s.drop (offset + (text.length + 1)) := by
      rw [List.drop_set_of_lt (by omega)]
      congr 1
      omega
    rw [htake, hdrop]
    simp [store, List.set_set]

theorem take_byteStores (i offset : Nat) (text : Bytes) (k : Nat) :
    (byteStores i offset text).take k = byteStores i offset (text.take k) := by
  induction text generalizing offset k with
  | nil => simp [byteStores]
  | cons c text ih =>
    cases k with
    | zero => rfl
    | succ k => rw [byteStores, List.take_succ_cons, ih, List.take_succ_cons, byteStores]

/-- The slot just past the newest entry, when the ring is not full. -/
def nextSlot (r : RawRing) : Nat := (r.start + r.count) % r.capacity

theorem nextSlot_lt {r : RawRing} (h : r.WellFormed) : r.nextSlot < r.slots.length := by
  rw [h.slots_length]
  exact Nat.mod_lt _ (Nat.zero_lt_of_lt h.start_lt)

/-- The stores into the next slot write a text and leave the rest of its bytes. -/
theorem foldl_nextSlot {r : RawRing} (h : r.WellFormed) (text : Bytes)
    (htext : text.length ≤ slotSize) : ∃ old, (byteStores r.nextSlot 0 text).foldl store r =
        { r with slots := r.slots.set r.nextSlot (text ++ old) } ∧
        (text ++ old).length = slotSize := by
  obtain ⟨s, hslot⟩ : ∃ s, r.slots[r.nextSlot]? = some s :=
    ⟨_, List.getElem?_eq_getElem (nextSlot_lt h)⟩
  have hlen := h.slot_length s (List.mem_of_getElem? hslot)
  refine ⟨s.drop text.length, ?_, ?_⟩
  · rw [slots_byteStores text _ hslot (by omega), List.take_zero, List.nil_append, Nat.zero_add]
  · rw [List.length_append, List.length_drop, hlen]
    omega

/-- Nothing of the dump changes while the next slot is written. -/
theorem entries_next {r : RawRing} (hroom : r.count < r.capacity) (s : Bytes) :
    ({ r with slots := r.slots.set r.nextSlot s } : RawRing).entries = r.entries := by
  apply List.map_congr_left
  intro j hj
  have hne : r.nextSlot ≠ (r.start + j) % r.capacity :=
    Ring.slot_ne r.start (List.mem_range.mp hj) hroom
  show cString ((r.slots.set r.nextSlot s).getD ((r.start + j) % r.capacity) []) = _
  rw [List.getD_eq_getElem?_getD, List.getElem?_set_ne hne, ← List.getD_eq_getElem?_getD]
  rfl

/-- Counting the next slot in puts its string behind the others. -/
theorem entries_succ (r : RawRing) :
    ({ r with count := r.count + 1 } : RawRing).entries = r.entries ++ [r.slot r.count] := by
  show (List.range (r.count + 1)).map r.slot = _
  rw [List.range_succ, List.map_append]
  rfl

theorem entries_stored {r : RawRing} (h : r.WellFormed) (hroom : r.count < r.capacity)
    {entry : Bytes} (hentry : 0 ∉ entry) (old : Bytes) :
    ({ r with slots := r.slots.set r.nextSlot (entry ++ 0 :: old), count := r.count + 1 } :
      RawRing).entries = r.entries ++ [entry] := by
  have hslot :
      ({ r with slots := r.slots.set r.nextSlot (entry ++ 0 :: old) } : RawRing).slot
        r.count = entry := by
    show cString ((r.slots.set r.nextSlot (entry ++ 0 :: old)).getD r.nextSlot []) = entry
    rw [List.getD_eq_getElem?_getD, List.getElem?_set_self (nextSlot_lt h), Option.getD_some,
      cString_stored hentry]
  have hsucc := entries_succ { r with slots := r.slots.set r.nextSlot (entry ++ 0 :: old) }
  rw [entries_next hroom] at hsucc
  exact hsucc.trans (congrArg (r.entries ++ [·]) hslot)

/-! ## The stores that make room -/

/-- The ring without its `j` oldest entries. -/
def dropped (r : RawRing) (j : Nat) : RawRing :=
  { r with start := (r.start + j) % r.capacity, count := r.count - j }

theorem dropped_zero {r : RawRing} (h : r.start < r.capacity) : r.dropped 0 = r := by
  rw [dropped, Nat.add_zero, Nat.mod_eq_of_lt h, Nat.sub_zero]

theorem dropped_dropped (r : RawRing) (i j : Nat) :
    (r.dropped i).dropped j = r.dropped (i + j) := by
  simp only [dropped, Nat.mod_add_mod, Nat.add_assoc, Nat.sub_sub]

theorem slot_dropped (r : RawRing) (j i : Nat) : (r.dropped j).slot i = r.slot (j + i) := by
  show cString (r.slots.getD (((r.start + j) % r.capacity + i) % r.capacity) []) = _
  rw [Nat.mod_add_mod, Nat.add_assoc]
  rfl

theorem map_range_drop (f : Nat → Bytes) (j n : Nat) :
    (List.range (n - j)).map (fun i => f (j + i)) = ((List.range n).map f).drop j := by
  apply List.ext_getElem
  · simp
  · intro i _ _
    simp

theorem entries_dropped (r : RawRing) (j : Nat) : (r.dropped j).entries = r.entries.drop j := by
  rw [entries, entries, ← map_range_drop]
  exact List.map_congr_left fun i _ => slot_dropped r j i

/-- Between the two stores of a turn the dump shows one slot too many at its end. -/
theorem entries_halfDropped {r : RawRing} {j : Nat} (hj : j < r.count) :
    ({ r.dropped (j + 1) with count := r.count - j } : RawRing).entries =
      r.entries.drop (j + 1) ++ [r.slot r.count] := by
  have hcount : r.count - j = r.count + 1 - (j + 1) := by omega
  have hall : (List.range (r.count + 1)).map r.slot = r.entries ++ [r.slot r.count] := by
    rw [List.range_succ, List.map_append]
    rfl
  rw [← List.drop_append_of_le_length (by rw [length_entries]; omega), ← hall,
    ← map_range_drop, ← hcount]
  exact List.map_congr_left fun i _ => slot_dropped r (j + 1) i

variable {most : Nat}

theorem foldl_trimStores (r : RawRing) (hmost : 0 < most) (hstart : r.start < r.capacity) :
    (trimStores r.capacity most r.start r.count).foldl store r =
      r.dropped (r.count + 1 - most) := by
  induction hn : r.count generalizing r with
  | zero => rw [show 0 + 1 - most = 0 by omega, dropped_zero hstart, trimStores, List.foldl_nil]
  | succ n ih =>
    rw [trimStores]
    split
    · rename_i hle
      have hcapacity := Nat.zero_lt_of_lt hstart
      have hnext : (r.dropped 1).count = n := by
        show r.count - 1 = n
        omega
      have hdrops := ih (r.dropped 1) (Nat.mod_lt _ hcapacity) hnext
      rw [dropped_dropped, show 1 + (n + 1 - most) = n + 1 + 1 - most by omega] at hdrops
      rw [List.foldl_cons, List.foldl_cons, ← hdrops, ← hnext]
      rfl
    · rename_i hlt
      rw [show n + 1 + 1 - most = 0 by omega, dropped_zero hstart, List.foldl_nil]

/-- What a cut among these stores leaves: some turns done, and perhaps half of one more. -/
theorem trimStores_cut (r : RawRing) (hstart : r.start < r.capacity) (k : Nat) :
    (∃ j, ((trimStores r.capacity most r.start r.count).take k).foldl store r = r.dropped j) ∨
      ∃ j, j < r.count + 1 - most ∧
        ((trimStores r.capacity most r.start r.count).take k).foldl store r =
          { r.dropped (j + 1) with count := r.count - j } := by
  induction hn : r.count generalizing r k with
  | zero =>
    refine .inl ⟨0, ?_⟩
    rw [dropped_zero hstart, trimStores, List.take_nil, List.foldl_nil]
  | succ n ih =>
    rw [trimStores]
    split
    · rename_i hle
      match k with
      | 0 => exact .inl ⟨0, by rw [dropped_zero hstart, List.take_zero, List.foldl_nil]⟩
      | 1 =>
        refine .inr ⟨0, by omega, ?_⟩
        show { r with start := (r.start + 1) % r.capacity } =
          ({ r.dropped 1 with count := n + 1 } : RawRing)
        rw [← hn]
        rfl
      | k + 2 =>
        have hnext : (r.dropped 1).count = n := by
          show r.count - 1 = n
          omega
        have hcut := ih (r.dropped 1) (Nat.mod_lt _ (Nat.zero_lt_of_lt hstart)) k hnext
        have hstores : ((Store.start ((r.start + 1) % r.capacity) :: Store.count n ::
            trimStores r.capacity most ((r.start + 1) % r.capacity) n).take (k + 2)).foldl store r =
            ((trimStores (r.dropped 1).capacity most (r.dropped 1).start n).take k).foldl store
              (r.dropped 1) := by
          rw [List.take_succ_cons, List.take_succ_cons, List.foldl_cons, List.foldl_cons, ← hnext]
          rfl
        rw [hstores]
        rcases hcut with ⟨j, hj⟩ | ⟨j, hlt, hj⟩
        · exact .inl ⟨1 + j, by rw [hj, dropped_dropped]⟩
        · refine .inr ⟨j + 1, by omega, ?_⟩
          rw [hj, dropped_dropped, show 1 + (j + 1) = j + 1 + 1 by omega,
            show n + 1 - (j + 1) = n - j by omega]
    · refine .inl ⟨0, ?_⟩
      rw [dropped_zero hstart, List.take_nil, List.foldl_nil]

/-! ## The stores of a whole call -/

theorem dropped_wellFormed {r : RawRing} (h : r.WellFormed) (j : Nat) : (r.dropped j).WellFormed :=
  ⟨Nat.mod_lt _ (Nat.zero_lt_of_lt h.start_lt), Nat.le_trans (Nat.sub_le _ _) h.count_le,
    h.slots_length, h.slot_length⟩

section
variable {r : RawRing} (h : r.WellFormed) (hmost : 0 < most) (hle : most ≤ r.capacity)
  {entry : Bytes} (hentry : 0 ∉ entry) (hfits : entry.length < slotSize)
include h hmost

theorem addStores_eq (entry : Bytes) :
    addStores r most entry = trimStores r.capacity most r.start r.count ++
      (byteStores (r.dropped (r.count + 1 - most)).nextSlot 0 (entry ++ [0]) ++
        [.count ((r.dropped (r.count + 1 - most)).count + 1)]) := by
  rw [addStores, foldl_trimStores r hmost h.start_lt, List.append_assoc]
  rfl

theorem addStores_all (entry : Bytes) : (addStores r most entry).foldl store r =
    { (byteStores (r.dropped (r.count + 1 - most)).nextSlot 0 (entry ++ [0])).foldl store
        (r.dropped (r.count + 1 - most)) with
      count := (r.dropped (r.count + 1 - most)).count + 1 } := by
  rw [addStores_eq h hmost, List.foldl_append, foldl_trimStores r hmost h.start_lt,
    List.foldl_append]
  rfl

omit h in
include hle in
/-- There is room when the trimming is done. -/
theorem count_dropped_lt : (r.dropped (r.count + 1 - most)).count <
    (r.dropped (r.count + 1 - most)).capacity := by
  show r.count - (r.count + 1 - most) < r.capacity
  omega

include hfits
theorem capacity_addStores : ((addStores r most entry).foldl store r).capacity = r.capacity := by
  obtain ⟨old, hslots, -⟩ := foldl_nextSlot
    (dropped_wellFormed h (r.count + 1 - most)) (entry ++ [0])
    (by simpa using hfits)
  rw [addStores_all h hmost, hslots]
  rfl

include hle

theorem addStores_wellFormed : ((addStores r most entry).foldl store r).WellFormed := by
  have hd := dropped_wellFormed h (r.count + 1 - most)
  obtain ⟨old, hslots, hlength⟩ := foldl_nextSlot hd (entry ++ [0]) (by simpa using hfits)
  rw [addStores_all h hmost, hslots]
  refine ⟨hd.start_lt, count_dropped_lt hmost hle, ?_, fun s hs => ?_⟩
  · rw [List.length_set]
    exact h.slots_length
  · rcases List.mem_or_eq_of_mem_set hs with hs | rfl
    · exact h.slot_length s hs
    · exact hlength

/-- What the dump shows wherever the call is cut short. -/
theorem addStores_cut (k : Nat) :
    (∃ j, (((addStores r most entry).take k).foldl store r).entries = r.entries.drop j) ∨
      (∃ j, j < r.count + 1 - most ∧ (((addStores r most entry).take k).foldl store r).entries =
        r.entries.drop (j + 1) ++ [r.slot r.count]) ∨
      (((addStores r most entry).take k).foldl store r).entries =
        ((addStores r most entry).foldl store r).entries := by
  have hall := addStores_eq h hmost entry
  generalize htrims : trimStores r.capacity most r.start r.count = trims at hall
  rcases Nat.lt_or_ge trims.length k with hk | hk
  · generalize hbytes : byteStores (r.dropped (r.count + 1 - most)).nextSlot 0
      (entry ++ [0]) = bytes at hall
    rcases Nat.lt_or_ge (trims.length + bytes.length) k with hlast | hsome
    · refine .inr (.inr ?_)
      rw [List.take_of_length_le]
      rw [hall, List.length_append, List.length_append, List.length_singleton]
      omega
    · -- trimmed, and the slot written in part
      left
      refine ⟨r.count + 1 - most, ?_⟩
      have hcut : (addStores r most entry).take k = trims ++
          byteStores (r.dropped (r.count + 1 - most)).nextSlot 0
            ((entry ++ [0]).take (k - trims.length)) := by
        rw [hall, List.take_append, List.take_of_length_le hk.le,
          List.take_append_of_le_length (by omega), ← hbytes, take_byteStores]
      obtain ⟨old, hslots, -⟩ := foldl_nextSlot (dropped_wellFormed h (r.count + 1 - most))
        ((entry ++ [0]).take (k - trims.length)) (by simp; omega)
      rw [hcut, List.foldl_append, ← htrims, foldl_trimStores r hmost h.start_lt, htrims, hslots,
        ← entries_dropped]
      exact entries_next (r := r.dropped (r.count + 1 - most)) (count_dropped_lt hmost hle) _
  · have hcut : (addStores r most entry).take k =
        (trimStores r.capacity most r.start r.count).take k := by
      rw [hall, List.take_append_of_le_length hk, htrims]
    rw [hcut]
    rcases trimStores_cut r h.start_lt k with ⟨j, hj⟩ | ⟨j, hlt, hj⟩
    · exact .inl ⟨j, by rw [hj, entries_dropped]⟩
    · exact .inr (.inl ⟨j, hlt, by rw [hj, entries_halfDropped (by omega)]⟩)

include hentry

/-- The whole call keeps the newest entries and puts one behind them. -/
theorem entries_addStores : ((addStores r most entry).foldl store r).entries =
    r.entries.drop (r.count + 1 - most) ++ [entry] := by
  have hd := dropped_wellFormed h (r.count + 1 - most)
  obtain ⟨old, hslots, -⟩ := foldl_nextSlot hd (entry ++ [0]) (by simpa using hfits)
  have hstored := entries_stored hd (count_dropped_lt hmost hle) hentry old
  rw [addStores_all h hmost, hslots, List.append_assoc, ← entries_dropped]
  exact hstored

end

end RawRing

/-! ## When a call can be cut short -/

/-- A list that is its own tail with one more element behind it repeats that element. -/
theorem eq_of_eq_tail_concat {x : Bytes} {l : List Bytes} (h : l = l.tail ++ [x]) :
    ∀ e ∈ l, e = x := by
  induction l with
  | nil => exact absurd h (by simp)
  | cons a l ih =>
    cases l with
    | nil =>
      intro e he
      rw [List.mem_singleton.mp he]
      exact (List.cons.inj h).1
    | cons b l =>
      obtain ⟨rfl, htail⟩ := List.cons.inj h
      have hrest := ih htail
      intro e he
      rcases List.mem_cons.mp he with rfl | he
      · exact hrest e List.mem_cons_self
      · exact hrest e he

theorem drop_concat_of_all_eq {x : Bytes} {l : List Bytes} (h : ∀ e ∈ l, e = x) {j : Nat}
    (hj : j < l.length) : l.drop (j + 1) ++ [x] = l.drop j := by
  have hl : l = List.replicate l.length x := List.eq_replicate_iff.mpr ⟨rfl, h⟩
  rw [hl, List.drop_replicate, List.drop_replicate, ← List.replicate_succ']
  congr 1
  omega

section
variable {ring : RawRing} (hring : ring.WellFormed)
include hring

/-- An add with its stores can be cut anywhere if and only if nothing need go first, or the slot
behind the newest entry already holds what may be seen there. -/
theorem add_crashSafe_iff {most : Nat} (hmost : 0 < most) (hle : most ≤ ring.capacity)
    {entry : Bytes} (hentry : 0 ∉ entry) (hfits : entry.length < slotSize) :
    (∀ k, (∃ j, (((ring.addStores most entry).take k).foldl RawRing.store ring).entries =
        ring.entries.drop j) ∨
      (((ring.addStores most entry).take k).foldl RawRing.store ring).entries =
        ((ring.addStores most entry).foldl RawRing.store ring).entries) ↔
    ring.count < most ∨ (∀ e ∈ ring.entries, e = ring.slot ring.count) ∨
      (ring.count = most ∧ entry = ring.slot ring.count) := by
  have hall := RawRing.entries_addStores hring hmost hle hentry hfits
  constructor
  · intro hsafe
    by_contra hnot
    simp only [not_or] at hnot
    obtain ⟨hfull, hstale, hnew⟩ := hnot
    -- behind the very first store the dump shows the next slot
    have hfirst : (((ring.addStores most entry).take 1).foldl RawRing.store ring).entries =
        ring.entries.tail ++ [ring.slot ring.count] := by
      obtain ⟨n, hn⟩ : ∃ n, ring.count = n + 1 := Nat.exists_eq_add_one_of_ne_zero (by omega)
      have hhalf := RawRing.entries_halfDropped (r := ring) (j := 0) (by omega)
      rw [List.drop_one] at hhalf
      rw [← hhalf, RawRing.addStores_eq hring hmost, hn, RawRing.trimStores, if_pos (by omega)]
      show ({ ring with start := (ring.start + 1) % ring.capacity } : RawRing).entries =
        (({ ring.dropped 1 with count := n + 1 } : RawRing)).entries
      rw [← hn]
      rfl
    have hlen : (ring.entries.tail ++ [ring.slot ring.count]).length = ring.count := by
      rw [List.length_append, List.length_tail, RawRing.length_entries, List.length_singleton]
      omega
    rcases hsafe 1 with ⟨j, hj⟩ | hafter
    · rw [hfirst] at hj
      have hzero := congrArg List.length hj
      rw [hlen, List.length_drop, RawRing.length_entries] at hzero
      obtain rfl : j = 0 := by omega
      exact hstale (eq_of_eq_tail_concat hj.symm)
    · rw [hfirst, hall] at hafter
      have hcount := congrArg List.length hafter
      rw [hlen, List.length_append, List.length_drop, RawRing.length_entries,
        List.length_singleton] at hcount
      exact hnew ⟨by omega, (List.append_inj_right' hafter rfl |> List.singleton_inj.mp).symm⟩
  · intro hunseen k
    rcases RawRing.addStores_cut hring hmost hle hfits k with hdrop | ⟨j, hj, hhalf⟩ | hafter
    · exact .inl hdrop
    · rcases hunseen with hroom | hstale | ⟨hfull, hnew⟩
      · exact absurd hj (by omega)
      · refine .inl ⟨j, hhalf.trans (drop_concat_of_all_eq hstale ?_)⟩
        rw [RawRing.length_entries]
        omega
      · right
        obtain rfl : j = 0 := by omega
        rw [hhalf, hall, hnew, hfull, Nat.add_sub_cancel_left]
    · exact .inr hafter

omit hring in
/-- A clear moves the start before it takes the count back. -/
theorem clear_crashSafe_iff :
    (∀ k, (∃ j, (([.start 0, .count 0].take k).foldl RawRing.store ring).entries =
      ring.entries.drop j) ∨
      (([.start 0, .count 0].take k).foldl RawRing.store ring).entries = []) ↔
    ({ ring with start := 0 } : RawRing).entries = ring.entries := by
  have hlen : ({ ring with start := 0 } : RawRing).entries.length = ring.count :=
    RawRing.length_entries _
  constructor
  · intro hsafe
    have hone : (∃ j, ({ ring with start := 0 } : RawRing).entries = ring.entries.drop j) ∨
        ({ ring with start := 0 } : RawRing).entries = [] := hsafe 1
    rcases hone with ⟨j, hj⟩ | hnil
    · have hcount := congrArg List.length hj
      rw [hlen, List.length_drop, RawRing.length_entries] at hcount
      rcases Nat.eq_zero_or_pos ring.count with hzero | hpos
      · rw [hj, List.drop_eq_nil_of_le (by rw [RawRing.length_entries]; omega),
          List.length_eq_zero_iff.mp ((RawRing.length_entries ring).trans hzero)]
      · obtain rfl : j = 0 := by omega
        exact hj
    · rw [hnil, List.length_nil] at hlen
      rw [hnil, List.length_eq_zero_iff.mp ((RawRing.length_entries ring).trans hlen.symm)]
  · intro hfront k
    match k with
    | 0 => exact .inl ⟨0, rfl⟩
    | 1 => exact .inl ⟨0, hfront⟩
    | k + 2 =>
      right
      rw [List.take_succ_cons, List.take_succ_cons, List.take_nil]
      rfl

end

/-! ## Runs of calls -/

theorem IsEntry.no_nul {entry : Bytes} (h : IsEntry entry) : 0 ∉ entry := by
  intro hmem
  exact absurd (List.all_eq_true.mp h.printable 0 hmem) (by decide)

theorem encoded_isEntry {call : Call} {a : Allocations} {message entry : Bytes}
    (h : call.encoded a message = some entry) : IsEntry entry := fitEntry_isEntry h

/-- What a call that stores something comes with. -/
theorem addTarget_spec {call : Call} {a : Allocations} {raw : RawTrail}
    {ring : RawRing} {most : Nat} {entry : Bytes} (h : ∀ r ∈ raw, r.WellFormed)
    (htarget : addTarget call a raw = (some ring, some (most, entry))) :
    ring.WellFormed ∧ 0 < most ∧ most ≤ ring.capacity ∧ IsEntry entry ∧
      rawEntries raw = ring.entries := by
  unfold addTarget at htarget
  split at htarget
  · exact absurd htarget (by simp)
  split at htarget
  swap
  · exact absurd htarget (by simp)
  rename_i message _ henabled
  split at htarget
  · exact absurd htarget (by simp)
  rename_i r hr
  obtain ⟨hsome, hentry⟩ := Prod.mk.inj htarget
  obtain rfl := Option.some.inj hsome
  obtain ⟨e, he, hpair⟩ := Option.map_eq_some_iff.mp hentry
  obtain ⟨rfl, rfl⟩ := Prod.mk.inj hpair
  have hring : r.WellFormed ∧ rawEntries raw = r.entries := by
    cases raw with
    | some s =>
      obtain rfl := Option.some.inj hr
      exact ⟨h s rfl, rfl⟩
    | none =>
      simp only [rawRingForThisThread] at hr
      split at hr
      · obtain rfl := Option.some.inj hr
        exact ⟨RawRing.create_wellFormed henabled.2, rfl⟩
      · exact absurd hr (by simp)
  refine ⟨hring.1, Nat.lt_min.mpr ⟨henabled.2, Nat.zero_lt_of_lt hring.1.start_lt⟩,
    Nat.min_le_right _ _, encoded_isEntry he, hring.2⟩

theorem storedUpTo_all (trail : RawTrail) (action : Action) :
    storedUpTo trail action (storesOf trail action).2.length =
      (storesOf trail action).1.map fun ring =>
        (storesOf trail action).2.foldl RawRing.store ring := by
  rw [storedUpTo, List.take_length]

theorem storesOf_add {call : Call} {a : Allocations} {raw : RawTrail} {ring : RawRing} {most : Nat}
    {entry : Bytes} (h : addTarget call a raw = (some ring, some (most, entry))) :
    storesOf raw (.add call a) = (some ring, ring.addStores most entry) := by
  rw [storesOf, h]

/-- A call stores an entry, or nothing at all. -/
theorem add_cases (call : Call) (a : Allocations) (raw : RawTrail) :
    (∃ ring most entry, addTarget call a raw = (some ring, some (most, entry))) ∨
      (storesOf raw (.add call a) = ((addTarget call a raw).1, []) ∧ Unseen raw (.add call a)) := by
  rcases htarget : addTarget call a raw with ⟨_ | ring, _ | ⟨most, entry⟩⟩
  · right
    simp only [storesOf, Unseen, htarget, and_self]
  · right
    simp only [storesOf, Unseen, htarget, and_self]
  · right
    simp only [storesOf, Unseen, htarget, and_self]
  · exact .inl ⟨ring, most, entry, rfl⟩

/-- Whether a call can be cut short anywhere. -/
theorem crashSafe_iff {raw : RawTrail} (h : ∀ r ∈ raw, r.WellFormed) (action : Action) :
    CrashSafe raw action ↔ Unseen raw action := by
  cases action with
  | clear =>
    cases raw with
    | none =>
      refine iff_of_true (fun k => .inl ⟨0, rfl⟩) (fun ring hring => ?_)
      exact absurd hring (by simp)
    | some ring =>
      have hunseen : Unseen (some ring) .clear ↔
          ({ ring with start := 0 } : RawRing).entries = ring.entries := by
        simp only [Unseen, Option.mem_def, Option.some.injEq, forall_eq']
      rw [hunseen, ← clear_crashSafe_iff]
      exact Iff.rfl
  | add call a =>
    rcases add_cases call a raw with ⟨ring, most, entry, htarget⟩ | ⟨hnothing, hunseen⟩
    · obtain ⟨hring, hpos, hle, hentry, hsame⟩ := addTarget_spec h htarget
      have hunseen : Unseen raw (.add call a) ↔ ring.count < most ∨
          (∀ e ∈ ring.entries, e = ring.slot ring.count) ∨
            (ring.count = most ∧ entry = ring.slot ring.count) := by
        simp only [Unseen, htarget]
      rw [hunseen, ← add_crashSafe_iff hring hpos hle hentry.no_nul hentry.fits, CrashSafe]
      simp only [storedUpTo, storesOf_add htarget, hsame, List.take_length]
      exact Iff.rfl
    · refine iff_of_true (fun k => .inr ?_) hunseen
      rw [storedUpTo_all, storedUpTo, hnothing, List.take_nil]

theorem addTarget_fst {call : Call} {a : Allocations} {raw : RawTrail}
    (h : ∀ r ∈ raw, r.WellFormed) : ∀ r ∈ (addTarget call a raw).1, r.WellFormed := by
  unfold addTarget
  split
  · exact h
  split
  swap
  · exact h
  rename_i henabled
  split
  · exact fun r hr => absurd hr (by simp)
  rename_i ring hr
  intro r hmem
  obtain rfl := Option.some.inj hmem
  cases raw with
  | some s =>
    obtain rfl := Option.some.inj hr
    exact h s rfl
  | none =>
    simp only [rawRingForThisThread] at hr
    split at hr
    · obtain rfl := Option.some.inj hr
      exact RawRing.create_wellFormed henabled.2
    · exact absurd hr (by simp)

theorem rawStep_wellFormed {raw raw' : RawTrail} {action : Action} (h : ∀ r ∈ raw, r.WellFormed)
    (hstep : rawStep raw action = some raw') : ∀ r ∈ raw', r.WellFormed := by
  obtain rfl := Option.some.inj hstep
  rw [storedUpTo_all]
  intro r hr
  obtain ⟨ring, hring, rfl⟩ := Option.map_eq_some_iff.mp hr
  cases action with
  | clear =>
    have hold := h ring hring
    exact ⟨Nat.zero_lt_of_lt hold.start_lt, Nat.zero_le _, hold.slots_length, hold.slot_length⟩
  | add call a =>
    rcases add_cases call a raw with ⟨target, most, entry, htarget⟩ | ⟨hnothing, -⟩
    · rw [storesOf_add htarget] at hring ⊢
      obtain rfl := Option.some.inj hring
      obtain ⟨hold, hpos, hle, hentry, -⟩ := addTarget_spec h htarget
      exact RawRing.addStores_wellFormed hold hpos hle hentry.fits
    · rw [hnothing] at hring ⊢
      exact addTarget_fst h ring hring

/-! ## The stores carry out the model's steps -/

/-- The ring in memory is well formed and holds what the model's trail holds. -/
structure Agrees (raw : RawTrail) (trail : Trail) : Prop where
  wellFormed : ∀ ring ∈ raw, ring.WellFormed
  capacity : raw.map RawRing.capacity = trail.map Ring.capacity
  entries : rawEntries raw = Breadcrumbs.entries trail

theorem Agrees.create {raw : RawTrail} {trail : Trail} (h : Agrees raw trail) (allocated : Bool)
    {wanted : Nat} (hpos : 0 < wanted) :
    Agrees (rawRingForThisThread allocated wanted raw)
      (ringForThisThread allocated wanted hpos trail) := by
  cases raw with
  | some ring =>
    cases trail with
    | some r => exact h
    | none => exact absurd h.capacity (by simp)
  | none =>
    cases trail with
    | some r => exact absurd h.capacity (by simp)
    | none =>
      cases allocated with
      | false => exact h
      | true =>
        refine ⟨fun ring hring => ?_, rfl, rfl⟩
        obtain rfl := Option.some.inj hring
        exact RawRing.create_wellFormed hpos

/-- A call finds or makes agreeing rings, and stores the same entry in both or in neither. -/
theorem Agrees.addTarget {raw : RawTrail} {trail : Trail} (h : Agrees raw trail) (call : Call)
    (a : Allocations) :
    (∃ ring r most entry, Breadcrumbs.addTarget call a raw = (some ring, some (most, entry)) ∧
        Agrees (some ring) (some r) ∧ Breadcrumbs.add call a trail =
          some ((r.trim most).push entry)) ∨
      ((Breadcrumbs.addTarget call a raw).2 = none ∧
        Agrees (Breadcrumbs.addTarget call a raw).1 (Breadcrumbs.add call a trail)) := by
  simp only [Breadcrumbs.addTarget, Breadcrumbs.add]
  cases call.message with
  | none => exact .inr ⟨rfl, h⟩
  | some message =>
    by_cases henabled : call.enabled ∧ 0 < call.maxEntries
    swap
    · simp only [if_neg henabled, dif_neg henabled]
      exact .inr ⟨trivial, h⟩
    have hcreate := h.create a.ring henabled.2
    simp only [if_pos henabled, dif_pos henabled]
    generalize rawRingForThisThread a.ring call.maxEntries raw = raw' at hcreate ⊢
    generalize ringForThisThread a.ring call.maxEntries henabled.2 trail = trail' at hcreate ⊢
    cases raw' with
    | none =>
      cases trail' with
      | none => exact .inr ⟨rfl, hcreate⟩
      | some r => exact absurd hcreate.capacity (by simp)
    | some ring =>
      cases trail' with
      | none => exact absurd hcreate.capacity (by simp)
      | some r =>
        have hcapacity : ring.capacity = r.capacity := Option.some.inj hcreate.capacity
        cases call.encoded a message with
        | none => exact .inr ⟨rfl, hcreate⟩
        | some entry => exact .inl ⟨ring, r, _, entry, rfl, hcreate, by rw [hcapacity]⟩

theorem Agrees.add {raw : RawTrail} {trail : Trail} (h : Agrees raw trail) (call : Call)
    (a : Allocations) : Agrees (storedUpTo raw (.add call a) (storesOf raw (.add call a)).2.length)
      (Breadcrumbs.add call a trail) := by
  have hwellFormed := rawStep_wellFormed h.wellFormed
    (show rawStep raw (.add call a) = some _ from rfl)
  rw [storedUpTo_all] at hwellFormed ⊢
  rcases h.addTarget call a with ⟨ring, r, most, entry, htarget, hagrees, hadd⟩ | ⟨hnone, hagrees⟩
  · obtain ⟨hring, hpos, hle, hentry, -⟩ := addTarget_spec h.wellFormed htarget
    have hcapacity : ring.capacity = r.capacity := Option.some.inj hagrees.capacity
    have hentries : ring.entries = r.toList := hagrees.entries
    have hcount : ring.count = r.count := by
      rw [← RawRing.length_entries, hentries, Ring.length_toList]
    have hroom := Ring.count_trim_lt hpos r
    rw [storesOf_add htarget] at hwellFormed ⊢
    rw [hadd]
    refine ⟨hwellFormed, ?_, ?_⟩
    · show some ((ring.addStores most entry).foldl RawRing.store ring).capacity =
        some ((r.trim most).push entry).capacity
      rw [RawRing.capacity_addStores hring hpos hentry.fits, capacity_push,
        Ring.capacity_trim, hcapacity]
    · show ((ring.addStores most entry).foldl RawRing.store ring).entries =
        ((r.trim most).push entry).toList
      rw [RawRing.entries_addStores hring hpos hle hentry.no_nul hentry.fits, hentries, hcount,
        Ring.toList_push (by rw [Ring.capacity_trim]; omega), Ring.toList_trim hpos]
  · rcases hfst : Breadcrumbs.addTarget call a raw with ⟨ring, target⟩
    rw [hfst] at hnone hagrees
    obtain rfl : target = none := hnone
    have hstores : storesOf raw (.add call a) = (ring, []) := by
      rw [storesOf, hfst]
      cases ring <;> rfl
    rw [hstores]
    cases ring <;> exact hagrees

theorem Agrees.step {raw raw' : RawTrail} {trail trail' : Trail} {action : Action}
    (h : Agrees raw trail) (hraw : rawStep raw action = some raw')
    (htrail : step trail action = some trail') : Agrees raw' trail' := by
  have hwellFormed := rawStep_wellFormed h.wellFormed hraw
  obtain rfl := Option.some.inj hraw
  cases action with
  | clear =>
    obtain rfl := Option.some.inj htrail
    refine ⟨hwellFormed, ?_, ?_⟩
    · rw [storedUpTo_all, clear, Option.map_map, Option.map_map]
      exact h.capacity
    · cases raw <;> cases trail <;> rfl
  | add call a =>
    obtain rfl := Option.some.inj htrail
    exact h.add call a

/-- A run can be cut short anywhere in any of its calls if and only if every call's stores are
unseen. -/
theorem crashSafe_run_iff (actions : List Action) :
    Runs.EveryStep rawStep CrashSafe none actions ↔ Runs.EveryStep rawStep Unseen none actions := by
  have hwellFormed : Runs.Always rawStep
      (fun raw : RawTrail => ∀ r ∈ raw, r.WellFormed) none actions :=
    Runs.always_of_invariant (fun _ _ _ h hstep => rawStep_wellFormed h hstep) none actions
      (fun r hr => absurd hr (by simp))
  constructor
  · exact fun h => h.imp_of_always (fun _ a _ hs _ => (crashSafe_iff hs a).mp) hwellFormed
  · exact fun h => h.imp_of_always (fun _ a _ hs _ => (crashSafe_iff hs a).mpr) hwellFormed

/-- A breadcrumb in the first second, into a ring of two. -/
def ofTwo (message : Bytes) : Call :=
  { config := { maxBreadcrumbs := 2 }, message := some message, now := 0 }

def threeIntoTwo : List Action :=
  [.add (ofTwo (ascii "a")) {}, .add (ofTwo (ascii "b")) {}, .add (ofTwo (ascii "c")) {}]

def entryOfTwo (message : Bytes) : Bytes :=
  encodeEntry message maxMessageBytes (ascii "custom") (ascii "info")
    (ascii "1970-01-01T00:00:00Z") []

theorem ofTwo_encoded {message : Bytes} (hscrubbed : PiiScrubber.scrubString message = message)
    (hfits : (entryOfTwo message).length < slotSize) :
    (ofTwo message).encoded {} message = some (entryOfTwo message) := by
  have htime : Calendar.timestamp 0 = ascii "1970-01-01T00:00:00Z" := by decide
  have hentry : encodeEntry message maxMessageBytes (ascii "custom") (ascii "info")
      (ascii "1970-01-01T00:00:00Z") [] = entryOfTwo message := rfl
  simp only [Call.encoded, ofTwo, Bool.and_self, if_true, hscrubbed, Option.getD_none, copyPairs,
    List.length_nil, htime]
  rw [fitEntry, if_pos rfl, List.take_nil, hentry]
  exact if_pos hfits

theorem ofTwo_newEntry {message : Bytes} (hscrubbed : PiiScrubber.scrubString message = message)
    (hfits : (entryOfTwo message).length < slotSize) :
    (ofTwo message).newEntry = some (entryOfTwo message) := by
  have henabled : (ofTwo message).enabled ∧ 0 < (ofTwo message).maxEntries := ⟨rfl, Nat.two_pos⟩
  rw [← ofTwo_encoded hscrubbed hfits, Call.newEntry]
  show (if _ then (ofTwo message).encoded {} message else none) = _
  rw [if_pos henabled]

/-- A signal behind the first store of the third call dumps the second entry and then the first. -/
theorem threeIntoTwo_dumps_out_of_order : ¬ Runs.EveryStep rawStep CrashSafe none threeIntoTwo := by
  intro h
  have hthird := (((h _ rfl).2 _ rfl).2 _ rfl).1
  have hagrees : Agrees (none : RawTrail) none := ⟨fun r hr => absurd hr (by simp), rfl, rfl⟩
  have hstored := (hagrees.add (ofTwo (ascii "a")) {}).add (ofTwo (ascii "b")) {}
  have hplain : Represents (add (ofTwo (ascii "b")) {} (add (ofTwo (ascii "a")) {} none))
      ⟨some 2, [entryOfTwo (ascii "a"), entryOfTwo (ascii "b")]⟩ := by
    have hrun := represents_run [.add (ofTwo (ascii "a")), .add (ofTwo (ascii "b"))]
      (show Represents none ⟨none, []⟩ from ⟨rfl, rfl⟩)
    simp only [List.foldl_cons, List.foldl_nil, PlainTrail.handle, PlainTrail.add,
      ofTwo_newEntry (show PiiScrubber.scrubString (ascii "a") = ascii "a" by decide) (by decide),
      ofTwo_newEntry (show PiiScrubber.scrubString (ascii "b") = ascii "b" by decide)
        (by decide)] at hrun
    exact hrun
  generalize add (ofTwo (ascii "b")) {} (add (ofTwo (ascii "a")) {} none) = trail at hstored hplain
  generalize storedUpTo _ _ _ = raw at hstored hthird
  cases raw with
  | none => exact absurd (hstored.capacity.trans hplain.capacity) (by simp)
  | some ring =>
    have hcapacity : ring.capacity = 2 := Option.some.inj (hstored.capacity.trans hplain.capacity)
    have hentries : ring.entries = [entryOfTwo (ascii "a"), entryOfTwo (ascii "b")] :=
      hstored.entries.trans hplain.entries
    have hcount : ring.count = 2 := by
      rw [← RawRing.length_entries, hentries]
      rfl
    have hslot : ring.slot ring.count = entryOfTwo (ascii "a") := by
      have hfirst : ring.entries.head? = some (ring.slot 0) := by
        rw [RawRing.entries, hcount]
        rfl
      rw [hentries] at hfirst
      refine Eq.trans ?_ (Option.some.inj hfirst).symm
      rw [hcount, RawRing.slot, RawRing.slot, hcapacity, Nat.add_mod_right]
      rfl
    have htarget : addTarget (ofTwo (ascii "c")) {} (some ring) =
        (some ring, some (2, entryOfTwo (ascii "c"))) := by
      have hencoded := ofTwo_encoded (show PiiScrubber.scrubString (ascii "c") = ascii "c" by
        decide) (by decide)
      show (some ring, ((ofTwo (ascii "c")).encoded {} (ascii "c")).map fun entry =>
        (min 2 ring.capacity, entry)) = _
      rw [hencoded, hcapacity]
      rfl
    have hunseen := (crashSafe_iff hstored.wellFormed _).mp hthird
    simp only [Unseen, htarget, hcount, hentries] at hunseen
    rw [hcount] at hslot
    rw [hslot] at hunseen
    rcases hunseen with hroom | hstale | ⟨-, hnew⟩
    · exact absurd hroom (Nat.lt_irrefl 2)
    · exact absurd (hstale _ (List.mem_cons_of_mem _ List.mem_cons_self)) (by decide)
    · exact absurd hnew (by decide)

end ForgeOps.Breadcrumbs
