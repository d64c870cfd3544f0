import ForgeOpsTracker.JsonText

/-! `strbuf.h`, the growing buffer that every JSON text is put together in: its block of memory, the
arithmetic of its sizes, and the text that it holds. -/

namespace ForgeOps.Strbuf

/-! ## The buffer -/

/-- `size_t` has 64 bits. -/
def sizeAdd (a b : Nat) : Nat := (a + b) % 2 ^ 64
def sizeDouble (a : Nat) : Nat := a * 2 % 2 ^ 64

/-- `forgeops_strbuf_t`; `moved` is history: the bytes that `realloc` had to move so far. -/
structure Buffer where
  data : Bytes
  length : Nat
  capacity : Nat
  moved : Nat
  deriving DecidableEq, Repr

/-- What the allocator does with a call: it fails, or the block it gives has these bytes behind
those that are kept. -/
structure Allocation where
  succeeds : Bool
  fresh : Nat → UInt8

/-- The bytes of a new block. -/
def Allocation.block (alloc : Allocation) (size : Nat) : Bytes := (List.range size).map alloc.fresh

/-- Bytes written into a block from an offset on; `none` when they do not fit in it. -/
def writeAt (data : Bytes) (offset : Nat) (bytes : Bytes) : Option Bytes :=
  if offset + bytes.length ≤ data.length then
    some (data.take offset ++ bytes ++ data.drop (offset + bytes.length))
  else none

/-- `realloc` that succeeds. -/
def reallocated (data : Bytes) (size : Nat) (alloc : Allocation) : Bytes :=
  data.take size ++ (alloc.block size).drop data.length

/-- `forgeops_strbuf_init`: `none` where it writes past its block, `some none` where it returns
-1. -/
def init (initialCapacity : Nat) (alloc : Allocation) : Option (Option Buffer) :=
  let capacity := if initialCapacity < 1 then 1 else initialCapacity
  if alloc.succeeds then
    (writeAt (alloc.block capacity) 0 [0]).map fun data => some ⟨data, 0, capacity, 0⟩
  else some none

/-- The loop that doubles the capacity; `none` when it takes more turns than this. -/
def doubledUntil (need : Nat) : Nat → Nat → Option Nat
  | 0, _ => none
  | turns + 1, capacity =>
    if capacity < need then doubledUntil need turns (sizeDouble capacity) else some capacity

/-- The text and its terminator behind what the buffer holds. -/
def Buffer.store (b : Buffer) (text : Bytes) : Option Buffer := do
  let data ← writeAt b.data b.length text
  let length := sizeAdd b.length text.length
  let data ← writeAt data length [0]
  return { b with data := data, length := length }

/-- `forgeops_strbuf_append`, and whether it returned 0. There is none where it writes past its
block, and none where its loop takes more than 64 turns: by then the capacity has come to 0. -/
def append (b : Buffer) (text : Bytes) (alloc : Allocation) : Option (Buffer × Bool) := do
  let need := sizeAdd (sizeAdd b.length text.length) 1
  if need > b.capacity then
    let capacity ← doubledUntil need 65 (sizeDouble b.capacity)
    if alloc.succeeds then
      let b ← Buffer.store ⟨reallocated b.data capacity alloc, b.length, capacity,
        b.moved + b.capacity⟩ text
      return (b, true)
    else return (b, false)
  else
    let b ← b.store text
    return (b, true)

/-- Appends in a row, their results left alone, as in all the code that builds a text. -/
def appendEach (b : Buffer) : List (Bytes × Allocation) → Option (Buffer × List Bool)
  | [] => some (b, [])
  | (text, alloc) :: rest => do
    let (b, taken) ← append b text alloc
    let (b, results) ← appendEach b rest
    return (b, taken :: results)

/-! ## The text in it -/

/-- The buffer holds the text, with a terminator behind it, in a block of its capacity. -/
structure Holds (b : Buffer) (text : Bytes) : Prop where
  block : b.data.length = b.capacity
  length : b.length = text.length
  room : text.length < b.capacity
  written : b.data.take text.length = text
  terminated : b.data[text.length]? = some 0

theorem writeAt_fits (data : Bytes) (offset : Nat) (bytes : Bytes)
    (h : offset + bytes.length ≤ data.length) :
    writeAt data offset bytes =
      some (data.take offset ++ bytes ++ data.drop (offset + bytes.length)) := if_pos h

theorem Holds.store {b : Buffer} {text : Bytes} (h : Holds b text) (piece : Bytes)
    (hroom : text.length + piece.length < b.capacity)
    (hsize : text.length + piece.length < 2 ^ 64) :
    ∃ t, b.store piece = some t ∧ Holds t (text ++ piece) ∧ t.capacity = b.capacity ∧
    t.moved = b.moved := by
  have hblock := h.block
  have hlength : sizeAdd text.length piece.length = text.length + piece.length :=
    Nat.mod_eq_of_lt hsize
  have hfirst := writeAt_fits b.data text.length piece (by omega)
  rw [h.written] at hfirst
  have htotal : (text ++ piece ++ b.data.drop (text.length + piece.length)).length =
      b.data.length := by
    simp only [List.length_append, List.length_drop]
    omega
  have hsecond := writeAt_fits (text ++ piece ++ b.data.drop (text.length + piece.length))
    (text.length + piece.length)
    [0] (by rw [htotal, List.length_singleton]; omega)
  have htake : (text ++ piece ++ b.data.drop (text.length + piece.length)).take
      (text.length + piece.length) = text ++ piece := by
    rw [← List.length_append, List.take_left]
  rw [htake] at hsecond
  obtain ⟨rest, hrest⟩ : ∃ rest, rest =
      (text ++ piece ++ b.data.drop (text.length + piece.length)).drop
      (text.length + piece.length + [(0 : UInt8)].length) := ⟨_, rfl⟩
  have hstore : b.store piece =
      some { b with
        data := text ++ piece ++ [0] ++ rest, length := text.length + piece.length } := by
    simp only [Buffer.store, h.length, hlength, hfirst, hsecond, hrest, bind, Option.bind, pure]
  refine ⟨_, hstore, ⟨?_, ?_, ?_, ?_, ?_⟩, rfl, rfl⟩
  · rw [← hblock, ← htotal, hrest]
    simp only [List.length_append, List.length_drop, List.length_singleton] at htotal ⊢
    omega
  · rw [List.length_append]
  · rw [List.length_append]
    exact hroom
  · dsimp only
    rw [List.append_assoc, List.take_left]
  · dsimp only
    rw [List.append_assoc, List.getElem?_append_right (Nat.le_refl _), Nat.sub_self]
    rfl

/-! ## Growing -/

/-- The doubling ends at the first capacity that suffices, and no size wraps on the way. -/
theorem doubledUntil_spec {need : Nat} (hneed : need ≤ 2 ^ 63) :
    ∀ (turns capacity : Nat), capacity < 2 * need → need ≤ capacity * 2 ^ turns →
      ∃ grown, doubledUntil need (turns + 1) capacity = some grown ∧ need ≤ grown ∧
      grown < 2 * need ∧ capacity ≤ grown := by
  intro turns
  induction turns with
  | zero =>
    intro capacity hlt hle
    rw [pow_zero, Nat.mul_one] at hle
    refine ⟨capacity, ?_, hle, hlt, Nat.le_refl _⟩
    rw [doubledUntil, if_neg (not_lt.mpr hle)]
  | succ turns ih =>
    intro capacity hlt hle
    by_cases hshort : capacity < need
    · have hdouble : sizeDouble capacity = capacity * 2 := Nat.mod_eq_of_lt (by omega)
      obtain ⟨grown, hgrown, hlow, hhigh, hgrows⟩ := ih (capacity * 2) (by omega) (by
        rw [Nat.mul_assoc, ← Nat.pow_succ']
        exact hle)
      refine ⟨grown, ?_, hlow, hhigh, by omega⟩
      rw [doubledUntil, if_pos hshort, hdouble]
      exact hgrown
    · refine ⟨capacity, ?_, not_lt.mp hshort, hlt, Nat.le_refl _⟩
      rw [doubledUntil, if_neg hshort]

theorem Holds.reallocated {b : Buffer} {text : Bytes} (h : Holds b text) {size : Nat}
    (hgrows : b.capacity ≤ size) (alloc : Allocation) (moved : Nat) :
    Holds ⟨reallocated b.data size alloc, b.length, size, moved⟩ text := by
  have hblock := h.block
  have hroom := h.room
  have hlength : (Strbuf.reallocated b.data size alloc).length = size := by
    simp only [Strbuf.reallocated, Allocation.block, List.length_append, List.length_take,
      List.length_drop, List.length_map, List.length_range]
    omega
  have hkept : b.data.take size = b.data := List.take_of_length_le (by omega)
  refine ⟨hlength, h.length, hroom.trans_le hgrows, ?_, ?_⟩
  · rw [Strbuf.reallocated, hkept, List.take_append_of_le_length (by omega)]
    exact h.written
  · rw [Strbuf.reallocated, hkept, List.getElem?_append_left (by omega)]
    exact h.terminated

/-- What an append leaves: the text with the piece behind it, or, where no memory was to be had, the
buffer as it was. What was moved is paid for by what the capacity grew. -/
structure Appended (b : Buffer) (text piece : Bytes) (alloc : Allocation) (t : Buffer)
    (taken : Bool) : Prop where
  holds : Holds t (if taken then text ++ piece else text)
  refused : taken = false → t = b ∧ alloc.succeeds = false
  moved : t.moved + b.capacity ≤ b.moved + t.capacity
  capacity : taken = true → t.capacity = b.capacity ∨
    t.capacity ≤ 2 * (text.length + piece.length + 1)

theorem append_spec {b : Buffer} {text : Bytes} (h : Holds b text) (piece : Bytes)
    (alloc : Allocation) (hsize : text.length + piece.length + 1 ≤ 2 ^ 63) :
    ∃ t taken, append b piece alloc = some (t, taken) ∧ Appended b text piece alloc t taken := by
  have hroom := h.room
  have hneed : sizeAdd (sizeAdd b.length piece.length) 1 = text.length + piece.length + 1 := by
    have hsum : sizeAdd text.length piece.length = text.length + piece.length :=
      Nat.mod_eq_of_lt (by omega)
    rw [h.length, hsum]
    exact Nat.mod_eq_of_lt (by omega)
  by_cases hfull : text.length + piece.length + 1 > b.capacity
  · have hdouble : sizeDouble b.capacity = b.capacity * 2 := Nat.mod_eq_of_lt (by omega)
    obtain ⟨grown, hgrown, hlow, hhigh, hgrows⟩ :=
      doubledUntil_spec hsize 64 (b.capacity * 2) (by omega) (by
      have : 1 ≤ b.capacity * 2 := by omega
      calc text.length + piece.length + 1 ≤ 2 ^ 63 := hsize
        _ ≤ 1 * 2 ^ 64 := by decide
        _ ≤ b.capacity * 2 * 2 ^ 64 := Nat.mul_le_mul_right _ this)
    cases hsucceeds : alloc.succeeds with
    | true =>
      obtain ⟨t, hstore, hholds, hcapacity, hmoved⟩ :=
        (h.reallocated (by omega) alloc (b.moved + b.capacity)).store piece
          (show _ < grown by omega) (by omega)
      refine ⟨t, true, ?_, hholds, fun hfalse => absurd hfalse (by decide), ?_, fun _ => .inr ?_⟩
      · simp only [append, hneed, hfull, hdouble, hgrown, hsucceeds, hstore, if_true, bind,
          Option.bind, pure]
      · rw [hcapacity, hmoved]
        show b.moved + b.capacity + b.capacity ≤ b.moved + grown
        omega
      · rw [hcapacity]
        exact hhigh.le
    | false =>
      refine ⟨b, false, ?_, h, fun _ => ⟨rfl, hsucceeds⟩, Nat.le_refl _,
        fun htrue => absurd htrue (by decide)⟩
      simp [append, hneed, hfull, hdouble, hgrown, hsucceeds]
  · obtain ⟨t, hstore, hholds, hcapacity, hmoved⟩ := h.store piece (by omega) (by omega)
    refine ⟨t, true, ?_, hholds, fun hfalse => absurd hfalse (by decide), ?_,
      fun _ => .inl hcapacity⟩
    · simp [append, hneed, hfull, hstore]
    · rw [hcapacity, hmoved]

/-! ## Appends in a row -/

/-- The pieces that were taken, one behind the other. -/
def kept (pieces : List (Bytes × Allocation)) (results : List Bool) : Bytes :=
  ((pieces.zip results).filter Prod.snd).flatMap fun p => p.1.1

theorem kept_cons (piece : Bytes × Allocation) (pieces : List (Bytes × Allocation)) (taken : Bool)
    (results : List Bool) :
    kept (piece :: pieces) (taken :: results) =
      (if taken then piece.1 else []) ++ kept pieces results := by
  cases taken <;> simp [kept]

def totalLength (pieces : List (Bytes × Allocation)) : Nat := (pieces.map fun p => p.1.length).sum

/-- What appends in a row leave of a buffer that held a text. -/
structure AppendedEach (b : Buffer) (text : Bytes) (pieces : List (Bytes × Allocation)) (t : Buffer)
    (results : List Bool) : Prop where
  answered : results.length = pieces.length
  holds : Holds t (text ++ kept pieces results)
  all : (∀ p ∈ pieces, p.2.succeeds = true) → ∀ taken ∈ results, taken = true
  moved : t.moved + b.capacity ≤ b.moved + t.capacity
  capacity : t.capacity ≤ max b.capacity (2 * (text.length + (kept pieces results).length + 1))

theorem appendEach_spec {b : Buffer} {text : Bytes} (h : Holds b text)
    (pieces : List (Bytes × Allocation)) (hsize : text.length + totalLength pieces + 1 ≤ 2 ^ 63) :
    ∃ t results,
      appendEach b pieces = some (t, results) ∧ AppendedEach b text pieces t results := by
  induction pieces generalizing b text with
  | nil =>
    refine ⟨b, [], rfl, rfl, ?_, fun _ _ hmem => absurd hmem List.not_mem_nil, Nat.le_refl _,
      le_max_left _ _⟩
    rw [kept, List.zip_nil_left, List.filter_nil, List.flatMap_nil, List.append_nil]
    exact h
  | cons piece pieces ih =>
    obtain ⟨piece, alloc⟩ := piece
    have htotal : totalLength ((piece, alloc) :: pieces) = piece.length + totalLength pieces := rfl
    obtain ⟨t, taken, happend, happended⟩ := append_spec h piece alloc (by omega)
    have hlonger : (if taken then text ++ piece else text).length ≤ text.length + piece.length := by
      cases taken <;> simp
    obtain ⟨u, results, heach, heached⟩ := ih happended.holds (by omega)
    refine ⟨u, taken :: results, ?_, ?_, ?_, ?_, ?_, ?_⟩
    · simp only [appendEach, happend, heach, bind, Option.bind, pure]
    · rw [List.length_cons, List.length_cons, heached.answered]
    · have hholds := heached.holds
      rw [kept_cons]
      cases taken with
      | true => rwa [if_pos rfl, List.append_assoc] at hholds
      | false => exact hholds
    · intro hsucceed
      obtain ⟨hfirst, hrest⟩ := List.forall_mem_cons.mp hsucceed
      refine List.forall_mem_cons.mpr ⟨?_, heached.all hrest⟩
      by_contra hrefused
      exact Bool.false_ne_true
        ((happended.refused (Bool.eq_false_iff.mpr hrefused)).2.symm.trans hfirst)
    · have hfirst := happended.moved
      have hrest := heached.moved
      omega
    · have hrest := heached.capacity
      rw [kept_cons, List.length_append]
      cases taken with
      | true =>
        have hgrown := happended.capacity rfl
        rw [if_pos rfl] at hrest ⊢
        rw [List.length_append] at hrest
        dsimp only
        omega
      | false =>
        obtain ⟨rfl, -⟩ := happended.refused rfl
        rw [if_neg Bool.false_ne_true] at hrest ⊢
        rw [List.length_nil, Nat.zero_add]
        exact hrest

theorem init_holds (initialCapacity : Nat) {alloc : Allocation} (h : alloc.succeeds = true) :
    ∃ b, init initialCapacity alloc = some (some b) ∧ Holds b [] ∧
    b.capacity = max initialCapacity 1 ∧ b.moved = 0 := by
  have hcapacity : (if initialCapacity < 1 then 1 else initialCapacity) =
      max initialCapacity 1 := by
    split <;> omega
  have hblock : (alloc.block (max initialCapacity 1)).length = max initialCapacity 1 := by
    rw [Allocation.block, List.length_map, List.length_range]
  have hwrite := writeAt_fits (alloc.block (max initialCapacity 1)) 0 [0]
    (by rw [hblock, List.length_singleton]; omega)
  have hinit : init initialCapacity alloc = some (some
      ⟨(alloc.block (max initialCapacity 1)).take 0 ++ [0] ++
        (alloc.block (max initialCapacity 1)).drop (0 + [(0 : UInt8)].length), 0,
        max initialCapacity 1, 0⟩) := by
    simp only [init, hcapacity, h, hwrite, if_true, Option.map_some]
  refine ⟨_, hinit, ⟨?_, rfl, ?_, rfl, rfl⟩, rfl, rfl⟩
  · simp only [List.length_append, List.length_take, List.length_drop,
      List.length_singleton, hblock]
    omega
  · exact Nat.lt_of_lt_of_le Nat.zero_lt_one (le_max_right _ _)

/-- What was appended to a new buffer, whichever of the allocations failed: no byte was written past
its block, the pieces that were taken stand in it one behind the other, and what was moved all in
all is less than the block, which is at most twice what it has to be. -/
structure Written (initialCapacity : Nat) (pieces : List (Bytes × Allocation)) (t : Buffer)
    (results : List Bool) : Prop where
  answered : results.length = pieces.length
  holds : Holds t (kept pieces results)
  all : (∀ p ∈ pieces, p.2.succeeds = true) → kept pieces results = pieces.flatMap Prod.fst
  moved : t.moved < t.capacity
  capacity : t.capacity ≤ max initialCapacity (2 * ((kept pieces results).length + 1))

theorem kept_all {pieces : List (Bytes × Allocation)} {results : List Bool}
    (hlength : results.length = pieces.length) (h : ∀ taken ∈ results, taken = true) :
    kept pieces results = pieces.flatMap Prod.fst := by
  induction pieces generalizing results with
  | nil => rfl
  | cons piece pieces ih =>
    cases results with
    | nil => exact absurd hlength (by simp)
    | cons taken results =>
      obtain ⟨rfl, hrest⟩ := List.forall_mem_cons.mp h
      rw [kept_cons, if_pos rfl, ih (Nat.succ.inj hlength) hrest, List.flatMap_cons]

theorem appendEach_written (initialCapacity : Nat) {alloc : Allocation}
    (halloc : alloc.succeeds = true) {pieces : List (Bytes × Allocation)}
    (hsize : totalLength pieces < 2 ^ 63) : ∃ b, init initialCapacity alloc = some (some b) ∧
      ∃ t results,
        appendEach b pieces = some (t, results) ∧ Written initialCapacity pieces t results := by
  obtain ⟨b, hinit, hholds, hcapacity, hmoved⟩ := init_holds initialCapacity halloc
  obtain ⟨t, results, heach, heached⟩ :=
    appendEach_spec hholds pieces (by rw [List.length_nil]; omega)
  have hpaid := heached.moved
  have hbound := heached.capacity
  rw [List.length_nil, Nat.zero_add] at hbound
  refine ⟨b, hinit, t, results, heach, heached.answered, heached.holds, fun hsucceed => ?_, by
    omega, by omega⟩
  exact kept_all heached.answered (heached.all hsucceed)

def memory (succeeds : Bool) : Allocation := ⟨succeeds, fun _ => 0xFF⟩

/-- The second piece meets a full buffer and an allocator that fails. -/
def threePieces : List (Bytes × Allocation) :=
  [(ascii "name", memory true), (ascii "value", memory false), (ascii "end", memory true)]

theorem appendEach_written_threePieces : ∃ b, init 2 (memory true) = some (some b) ∧
    ∃ t results, appendEach b threePieces = some (t, results) ∧ Written 2 threePieces t results :=
  appendEach_written 2 rfl (by decide)

/-! ## A JSON string -/

/-- The pieces that `append_json_string` appends. -/
def jsonStringPieces (value : Bytes) : List Bytes :=
  [ascii "\""] ++ value.map JsonText.escapeByte ++ [ascii "\""]

theorem flatten_jsonStringPieces (value : Bytes) :
    (jsonStringPieces value).flatten = JsonText.jsonString value := by
  simp [jsonStringPieces, JsonText.jsonString, List.flatMap]

/-- Where memory lasts, the buffer has the JSON string behind its text. -/
theorem jsonString_appended {b : Buffer} {text : Bytes} (h : Holds b text) (value : Bytes)
    (allocs : List Allocation) (hcount : allocs.length = (jsonStringPieces value).length)
    (hsucceed : ∀ alloc ∈ allocs, alloc.succeeds = true)
    (hsize : text.length + (JsonText.jsonString value).length < 2 ^ 63) :
    ∃ t results, appendEach b ((jsonStringPieces value).zip allocs) = some (t, results) ∧
      Holds t (text ++ JsonText.jsonString value) := by
  have hfst : ((jsonStringPieces value).zip allocs).map Prod.fst = jsonStringPieces value :=
    List.map_fst_zip hcount.ge
  have htext : ((jsonStringPieces value).zip allocs).flatMap Prod.fst =
      JsonText.jsonString value := by
    rw [List.flatMap_def, hfst, flatten_jsonStringPieces]
  have htotal : totalLength ((jsonStringPieces value).zip allocs) =
      (JsonText.jsonString value).length := by
    rw [← flatten_jsonStringPieces, List.length_flatten, ← hfst, totalLength, List.map_map, hfst]
    rfl
  obtain ⟨t, results, heach, heached⟩ :=
    appendEach_spec h ((jsonStringPieces value).zip allocs) (by omega)
  have hall := heached.all fun p hp => hsucceed p.2 (List.of_mem_zip hp).2
  refine ⟨t, results, heach, ?_⟩
  have hholds := heached.holds
  rwa [kept_all heached.answered hall, htext] at hholds

end ForgeOps.Strbuf
