import ForgeOpsTracker.Lib.Bytes

/-! Seconds since the epoch as a UTC calendar date, and the timestamp format of
the payloads. -/

namespace ForgeOps.Calendar

structure DateTime where
  year : Nat
  month : Nat
  day : Nat
  hour : Nat
  minute : Nat
  second : Nat
  deriving DecidableEq, Repr

/-- `gmtime_r`. Years are counted from March in 400-year eras, so that the leap
day is the last one of its year. -/
def gmtime (time : Nat) : DateTime :=
  let z := time / 86400 + 719468
  let era := z / 146097
  let doe := z % 146097
  let yoe := (doe - doe / 1460 + doe / 36524 - doe / 146096) / 365
  let doy := doe - (365 * yoe + yoe / 4 - yoe / 100)
  let mp := (5 * doy + 2) / 153
  let month := if mp < 10 then mp + 3 else mp - 9
  { year := yoe + era * 400 + (if month ≤ 2 then 1 else 0)
    month := month
    day := doy - (153 * mp + 2) / 5 + 1
    hour := time % 86400 / 3600
    minute := time % 3600 / 60
    second := time % 60 }

/-- `strftime` with `%Y-%m-%dT%H:%M:%SZ`. -/
def timestamp (time : Nat) : Bytes :=
  let utc := gmtime time
  decimal utc.year ++ ascii "-" ++ decimalPadded 2 utc.month ++ ascii "-" ++
    decimalPadded 2 utc.day ++ ascii "T" ++ decimalPadded 2 utc.hour ++ ascii ":" ++
    decimalPadded 2 utc.minute ++ ascii ":" ++ decimalPadded 2 utc.second ++ ascii "Z"

/-- A timestamp is made of digits, dashes, colons and the letters T and Z. -/
theorem timestamp_all {p : UInt8 → Bool} (hdigit : ∀ c, Byte.isDigit c = true → p c = true)
    (hmarks : (ascii "-T:Z").all p = true) (time : Nat) : (timestamp time).all p = true := by
  have hdecimal : ∀ n, (decimal n).all p = true := fun n =>
    List.all_eq_true.mpr fun c hc => hdigit c (decimal_isDigit n c hc)
  have hpadded : ∀ width n, (decimalPadded width n).all p = true := by
    intro width n
    rw [decimalPadded, List.all_append, hdecimal, Bool.and_true]
    apply List.all_eq_true.mpr
    intro c hc
    exact List.eq_of_mem_replicate hc ▸ hdigit 48 rfl
  have hmark : ∀ mark ∈ ascii "-T:Z", [mark].all p = true := fun mark hmem =>
    List.all_eq_true.mpr fun c hc => List.mem_singleton.mp hc ▸ List.all_eq_true.mp hmarks mark hmem
  have hdash : (ascii "-").all p = true := hmark 45 (by decide)
  have hletter : (ascii "T").all p = true := hmark 84 (by decide)
  have hcolon : (ascii ":").all p = true := hmark 58 (by decide)
  have hzone : (ascii "Z").all p = true := hmark 90 (by decide)
  simp only [timestamp, List.all_append, hdecimal, hpadded, hdash, hletter, hcolon,
    hzone, Bool.and_self]

/-- `%Y-%m-%dT%H:%M:%S` of a time that may lie before the epoch: the calendar repeats every
400 years. -/
def signedDateTime (time : Int) : Bytes :=
  let era : Int := 400 * 365 * 86400 + 97 * 86400
  let utc := gmtime (time % era).toNat
  let year := utc.year + 400 * (time / era)
  (if year < 0 then ascii "-" else []) ++ decimal year.natAbs ++ ascii "-" ++
    decimalPadded 2 utc.month ++ ascii "-" ++ decimalPadded 2 utc.day ++ ascii "T" ++
    decimalPadded 2 utc.hour ++ ascii ":" ++ decimalPadded 2 utc.minute ++ ascii ":" ++
    decimalPadded 2 utc.second

example : timestamp 1709210096 = ascii "2024-02-29T12:34:56Z" := by decide
example : signedDateTime (-1) = ascii "1969-12-31T23:59:59" := by decide +kernel

end ForgeOps.Calendar
