import ForgeOpsTracker.Lib.Bytes

/-! What a response says about the payload it answers. -/

namespace ForgeOps.Client

inductive DeliveryOutcome
  | delivered
  | rejected
  | failed
  deriving DecidableEq, Repr

/-- `status` is the HTTP status, or 0 when there was no response. -/
def deliveryOutcomeForStatus (status : Int) : DeliveryOutcome :=
  if 200 ≤ status ∧ status < 300 then .delivered
  else if 400 ≤ status ∧ status < 500 ∧ status ≠ 408 ∧ status ≠ 429 then .rejected
  else .failed

end ForgeOps.Client
