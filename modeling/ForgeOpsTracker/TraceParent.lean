import ForgeOpsTracker.Lib.Json

/-! The ids of a trace and its spans, and the `traceparent` header that carries them. -/

namespace ForgeOps.TraceParent

/-- `is_lower_hex` -/
def isLowerHex (s : Bytes) : Bool := s.all fun c => Byte.isDigit c || (97 ≤ c && c ≤ 102)

/-- `all_zeros` -/
def allZeros (s : Bytes) : Bool := s.all (· == 48)

/-- What `forgeops_trace_random_id` makes and `forgeops_traceparent_parse` accepts. -/
structure HexId (length : Nat) where
  text : Bytes
  length_eq : text.length = length
  lowerHex : isLowerHex text = true
  nonzero : allZeros text = false
  deriving DecidableEq

def HexId.ofText (length : Nat) (text : Bytes) : Option (HexId length) :=
  if h : text.length = length ∧ isLowerHex text = true ∧ allZeros text = false then
    some ⟨text, h.1, h.2.1, h.2.2⟩
  else none

theorem HexId.plain {length : Nat} (id : HexId length) : id.text.all Json.isPlain = true := by
  rw [List.all_eq_true]
  intro c hc
  have hhex := List.all_eq_true.mp id.lowerHex c hc
  simp only [Byte.isDigit, Bool.or_eq_true, Bool.and_eq_true, decide_eq_true_eq] at hhex
  simp only [Json.isPlain, Bool.and_eq_true, bne_iff_ne, decide_eq_true_eq]
  grind

/-- `FORGEOPS_TRACEPARENT_SIZE - 1` -/
def fixedLength : Nat := 55

def trimmed (value : Bytes) : Bytes :=
  ((value.dropWhile Byte.isSpace).reverse.dropWhile Byte.isSpace).reverse

/-- `forgeops_traceparent_parse`: the trace id and the parent span id, or `none` for 0. -/
def parse (value : Option Bytes) : Option (HexId 32 × HexId 16) :=
  match value with
  | none => none
  | some value =>
    let value := trimmed value
    if value.length < fixedLength then none
    else if ¬ isLowerHex (value.take 2) ∨ value[2]? ≠ some 45 ∨ value[35]? ≠ some 45 ∨
        value[52]? ≠ some 45 ∨ ¬ isLowerHex ((value.drop 53).take 2) then none
    else if value.take 2 = ascii "ff" then none
    else if value.length > fixedLength ∧
      (value.take 2 = ascii "00" ∨ value[fixedLength]? ≠ some 45) then none
    else
      match HexId.ofText 32 ((value.drop 3).take 32), HexId.ofText 16 ((value.drop 36).take 16) with
      | some traceId, some parentSpanId => some (traceId, parentSpanId)
      | _, _ => none

example : (parse (some (ascii " 00-0af7651916cd43dd8448eb211c80319c-b7ad6b7169203331-01\n"))).map
    (fun ids => (ids.1.text, ids.2.text)) =
      some (ascii "0af7651916cd43dd8448eb211c80319c", ascii "b7ad6b7169203331") := by
  decide +kernel

end ForgeOps.TraceParent
