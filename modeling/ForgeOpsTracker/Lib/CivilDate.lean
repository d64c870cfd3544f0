import ForgeOpsTracker.Lib.Calendar
import ForgeOpsTracker.Lib.Decimals

/-! The Gregorian calendar by its rules, the instant that a timestamp names, and that the
computed calendar date of an instant names it. -/

namespace ForgeOps.Calendar

/-! ## The calendar -/

def isLeap (year : Int) : Bool := year % 4 = 0 ∧ (year % 100 ≠ 0 ∨ year % 400 = 0)

def monthDays (leap : Bool) : Nat → Nat
  | 2 => if leap then 29 else 28
  | 4 | 6 | 9 | 11 => 30
  | _ => 31

structure IsDate (year : Int) (month day : Nat) : Prop where
  named : 1 ≤ month ∧ month ≤ 12
  within : 1 ≤ day ∧ day ≤ monthDays (isLeap year) month

instance (year : Int) (month day : Nat) : Decidable (IsDate year month day) :=
  decidable_of_iff ((1 ≤ month ∧ month ≤ 12) ∧ 1 ≤ day ∧ day ≤ monthDays (isLeap year) month)
    ⟨fun h => ⟨h.1, h.2⟩, fun h => ⟨h.named, h.within⟩⟩

/-- The days from the epoch to the first day of a year. -/
def yearStart (year : Int) : Int :=
  365 * (year - 1970) + (year - 1) / 4 - (year - 1) / 100 + (year - 1) / 400 - 477

theorem yearStart_succ (year : Int) :
    yearStart (year + 1) = yearStart year + if isLeap year then 366 else 365 := by
  unfold yearStart isLeap
  by_cases hleap : year % 4 = 0 ∧ (year % 100 ≠ 0 ∨ year % 400 = 0)
  · rw [if_pos (decide_eq_true hleap)]
    omega
  · rw [if_neg (by rw [decide_eq_true_iff]; exact hleap)]
    omega

/-- The days of a year in front of a month. -/
def daysBefore (leap : Bool) (month : Nat) : Nat :=
  ((List.range' 1 (month - 1)).map (monthDays leap)).sum

/-- The days from the epoch to a date. -/
def dayNumber (year : Int) (month day : Nat) : Int :=
  yearStart year + daysBefore (isLeap year) month + (day - 1)

/-! ## Four hundred years -/

theorem isLeap_era (year k : Int) : isLeap (year + 400 * k) = isLeap year := by
  unfold isLeap
  rw [decide_eq_decide]
  omega

theorem isDate_era {year : Int} {month day : Nat} (h : IsDate year month day) (k : Int) :
    IsDate (year + 400 * k) month day := by
  refine ⟨h.named, ?_⟩
  rw [isLeap_era]
  exact h.within

theorem dayNumber_era (year k : Int) (month day : Nat) :
    dayNumber (year + 400 * k) month day = dayNumber year month day + 146097 * k := by
  have hstart : yearStart (year + 400 * k) = yearStart year + 146097 * k := by
    unfold yearStart
    omega
  rw [dayNumber, dayNumber, hstart, isLeap_era]
  omega

/-! ## The day of an era -/

/-- The days of an era before a year, the years beginning in March. -/
def eraDays (yoe : Nat) : Nat := 365 * yoe + yoe / 4 - yoe / 100

def yearOfEra (doe : Nat) : Nat := (doe - doe / 1460 + doe / 36524 - doe / 146096) / 365

theorem yearOfEra_mono {a b : Nat} (h : a ≤ b) (hb : b < 146096) : yearOfEra a ≤ yearOfEra b := by
  unfold yearOfEra
  omega

theorem yearOfEra_ends :
    ∀ yoe < 400, yearOfEra (eraDays yoe) = yoe ∧ (0 < yoe → yearOfEra (eraDays yoe - 1) < yoe) := by
  decide +kernel

theorem eraDays_le_last {yoe : Nat} (h : yoe < 400) : eraDays yoe < 146096 := by
  unfold eraDays
  omega

/-- The year of a day of the era begins on that day or before, and the next one behind it. -/
theorem yearOfEra_spec {doe : Nat} (h : doe < 146097) :
    yearOfEra doe < 400 ∧ eraDays (yearOfEra doe) ≤ doe ∧
      (doe < eraDays (yearOfEra doe + 1) ∨ yearOfEra doe = 399 ∧ doe = 146096) := by
  rcases Nat.lt_succ_iff_lt_or_eq.mp h with hlt | rfl
  · have hyear : yearOfEra doe < 400 := by
      unfold yearOfEra
      omega
    refine ⟨hyear, ?_, .inl ?_⟩
    · by_contra hbefore
      have hpos : 0 < yearOfEra doe := by
        by_contra hzero
        exact hbefore (by rw [Nat.eq_zero_of_not_pos hzero]; exact Nat.zero_le _)
      have hmono := yearOfEra_mono (Nat.le_sub_one_of_lt (not_le.mp hbefore))
        ((Nat.sub_le _ _).trans_lt (eraDays_le_last hyear))
      exact absurd ((yearOfEra_ends _ hyear).2 hpos) (not_lt.mpr hmono)
    · by_contra hbehind
      by_cases hlast : yearOfEra doe + 1 < 400
      · have hmono := yearOfEra_mono (not_lt.mp hbehind) hlt
        rw [(yearOfEra_ends _ hlast).1] at hmono
        omega
      · have heq : yearOfEra doe = 399 := by omega
        rw [heq] at hbehind
        exact hbehind (hlt.trans_eq rfl)
  · exact ⟨by decide, by decide, .inr ⟨rfl, rfl⟩⟩

/-! ## The month of a year that begins in March -/

/-- The days from the first of March to the first of a month, March being month 0. -/
def marchDays (mp : Nat) : Nat := (153 * mp + 2) / 5

theorem marchDays_spec {doy : Nat} (h : doy ≤ 365) :
    (5 * doy + 2) / 153 ≤ 11 ∧ marchDays ((5 * doy + 2) / 153) ≤ doy ∧
    doy < marchDays ((5 * doy + 2) / 153 + 1) := by
  unfold marchDays
  omega

theorem daysBefore_fromMarch :
    ∀ leap : Bool,
      ∀ mp < 10, daysBefore leap (mp + 3) = (if leap then 60 else 59) + marchDays mp := by
  decide

theorem marchDays_succ : ∀ leap : Bool, ∀ mp < 10, marchDays (mp + 1) ≤
    marchDays mp + monthDays leap (mp + 3) := by
  decide

/-- The first of March. -/
theorem yearStart_march (era yoe : Nat) (h : yoe < 400) :
    yearStart (yoe + era * 400 : Nat) + (if isLeap (yoe + era * 400 : Nat) then 60 else 59) =
      146097 * era + eraDays yoe - 719468 := by
  have hsucc := yearStart_succ (yoe + era * 400 : Nat)
  unfold yearStart eraDays at *
  split at hsucc
  · rw [if_pos ‹_›]
    omega
  · rw [if_neg ‹_›]
    omega

/-- The first of January behind it. -/
theorem yearStart_january (era yoe : Nat) (h : yoe < 400) :
    yearStart (yoe + era * 400 + 1 : Nat) = 146097 * era + eraDays yoe + 306 - 719468 := by
  unfold yearStart eraDays
  omega

theorem isLeap_january (era : Nat) {yoe : Nat} (h : yoe < 400)
    (hlong : eraDays yoe + 365 < eraDays (yoe + 1) ∨ yoe = 399) :
    isLeap (yoe + era * 400 + 1 : Nat) = true := by
  unfold eraDays at hlong
  refine decide_eq_true ?_
  omega

/-- A day from March to December. -/
theorem march_date (era : Nat) {yoe mp doy : Nat} (hyear : yoe < 400) (hmp : mp < 10)
    (hfirst : marchDays mp ≤ doy) (hlast : doy < marchDays (mp + 1)) :
    IsDate (yoe + era * 400 : Nat) (mp + 3) (doy - marchDays mp + 1) ∧
      dayNumber (yoe + era * 400 : Nat) (mp + 3) (doy - marchDays mp + 1) =
        146097 * era + eraDays yoe + doy - 719468 := by
  have hmarch := yearStart_march era yoe hyear
  have hbefore := daysBefore_fromMarch (isLeap (yoe + era * 400 : Nat)) mp hmp
  have hdays := marchDays_succ (isLeap (yoe + era * 400 : Nat)) mp hmp
  refine ⟨⟨by omega, by omega⟩, ?_⟩
  rw [dayNumber, hbefore]
  cases hleap : isLeap (yoe + era * 400 : Nat) with
  | true =>
    rw [hleap, if_pos rfl] at hmarch
    rw [if_pos rfl]
    omega
  | false =>
    rw [hleap, if_neg Bool.false_ne_true] at hmarch
    rw [if_neg Bool.false_ne_true]
    omega

/-- A day of January or February, which are of the next year. -/
theorem january_date (era : Nat) {yoe doy : Nat} (hyear : yoe < 400) (hfirst : 306 ≤ doy)
    (hlast : doy ≤ 365) (hlong : doy = 365 → eraDays yoe + 365 < eraDays (yoe + 1) ∨ yoe = 399) :
    if doy < 337 then
      IsDate (yoe + era * 400 + 1 : Nat) 1 (doy - 306 + 1) ∧
        dayNumber (yoe + era * 400 + 1 : Nat) 1 (doy - 306 + 1) =
          146097 * era + eraDays yoe + doy - 719468
    else
      IsDate (yoe + era * 400 + 1 : Nat) 2 (doy - 337 + 1) ∧
        dayNumber (yoe + era * 400 + 1 : Nat) 2 (doy - 337 + 1) =
          146097 * era + eraDays yoe + doy - 719468 := by
  have hjanuary := yearStart_january era yoe hyear
  have hleap := isLeap_january era hyear
  have hwinter : ∀ leap : Bool, daysBefore leap 1 = 0 ∧ daysBefore leap 2 = 31 ∧
      monthDays leap 1 = 31 ∧ 28 ≤ monthDays leap 2 ∧ (leap = true → monthDays leap 2 = 29) := by
        decide
  obtain ⟨hzero, hone, h31, h28, h29⟩ := hwinter (isLeap (yoe + era * 400 + 1 : Nat))
  split
  · refine ⟨⟨by decide, by omega, ?_⟩, ?_⟩
    · rw [h31]
      omega
    · rw [dayNumber, hzero]
      omega
  · refine ⟨⟨by decide, by omega, ?_⟩, ?_⟩
    · by_cases hlast : doy = 365
      · rw [h29 (hleap (hlong hlast))]
        omega
      · omega
    · rw [dayNumber, hone]
      omega

/-! ## The date of a time -/

/-- The computed date is one of the calendar, and the day of the time. -/
theorem gmtime_date (time : Nat) : IsDate (gmtime time).year (gmtime time).month (gmtime time).day ∧
    dayNumber (gmtime time).year (gmtime time).month (gmtime time).day = time / 86400 := by
  obtain ⟨z, hz⟩ : ∃ z, z = time / 86400 + 719468 := ⟨_, rfl⟩
  obtain ⟨doe, hdoe⟩ : ∃ doe, doe = z % 146097 := ⟨_, rfl⟩
  obtain ⟨yoe, hyoe⟩ : ∃ yoe, yoe = yearOfEra doe := ⟨_, rfl⟩
  obtain ⟨doy, hdoy⟩ : ∃ doy, doy = doe - eraDays yoe := ⟨_, rfl⟩
  obtain ⟨mp, hmp⟩ : ∃ mp, mp = (5 * doy + 2) / 153 := ⟨_, rfl⟩
  have hdate : gmtime time =
      { year := yoe + z / 146097 * 400 + (if (if mp < 10 then mp + 3 else mp - 9) ≤ 2 then 1 else 0)
        month := if mp < 10 then mp + 3 else mp - 9
        day := doy - marchDays mp + 1
        hour := time % 86400 / 3600
        minute := time % 3600 / 60
        second := time % 60 } := by
    rw [hmp, hdoy, hyoe, hdoe, hz]
    rfl
  have hlt : doe < 146097 := hdoe ▸ Nat.mod_lt _ (by decide)
  obtain ⟨hyear, hbegun, hnext⟩ := yearOfEra_spec hlt
  rw [← hyoe] at hyear hbegun hnext
  have hlong : doy ≤ 365 ∧ (doy = 365 → eraDays yoe + 365 < eraDays (yoe + 1) ∨ yoe = 399) := by
    unfold eraDays at *
    omega
  obtain ⟨hmonth, hfirst, hlast⟩ := marchDays_spec hlong.1
  rw [← hmp] at hmonth hfirst hlast
  have hday : 146097 * (z / 146097 : Nat) + eraDays yoe + doy - 719468 =
      ((time / 86400 : Nat) : Int) := by omega
  rw [hdate]
  dsimp only
  by_cases hspring : mp < 10
  · rw [if_pos hspring, if_neg (by omega), Nat.add_zero]
    have hmarch := march_date (z / 146097) hyear hspring hfirst hlast
    exact ⟨hmarch.1, hmarch.2.trans hday⟩
  · have hdays : marchDays 10 = 306 ∧ marchDays 11 = 337 := by decide
    have hcases : mp = 10 ∨ mp = 11 := by omega
    rw [if_neg hspring, if_pos (by omega)]
    rcases hcases with hten | heleven
    · rw [hten] at hfirst hlast ⊢
      have hjanuary := january_date (z / 146097) hyear (by omega) hlong.1 hlong.2
      rw [if_pos (by omega)] at hjanuary
      rw [hdays.1]
      exact ⟨hjanuary.1, hjanuary.2.trans hday⟩
    · rw [heleven] at hfirst hlast ⊢
      have hfebruary := january_date (z / 146097) hyear (by omega) hlong.1 hlong.2
      rw [if_neg (by omega)] at hfebruary
      rw [hdays.2]
      exact ⟨hfebruary.1, hfebruary.2.trans hday⟩

/-! ## Reading a timestamp -/

/-- A mark and a number of so many digits. -/
def readField (mark : UInt8) (width : Nat) : Bytes → Option (Nat × Bytes)
  | [] => none
  | c :: s =>
    let digits := s.take width
    if c = mark ∧ digits.length = width ∧
      digits.all Byte.isDigit then some (Json.digitsValue digits, s.drop width)
    else none

def readYear (s : Bytes) : Option (Int × Bytes) :=
  let unsigned := if s.head? = some 45 then s.drop 1 else s
  let digits := unsigned.takeWhile Byte.isDigit
  if digits = [] then none
  else some (if s.head? = some 45 then -(Json.digitsValue digits) else Json.digitsValue digits,
    unsigned.dropWhile Byte.isDigit)

/-- The thousandths behind a point, where there is one. -/
def readMillis (s : Bytes) : Option (Nat × Bytes) :=
  if s.head? = some 46 then readField 46 3 s else some (0, s)

/-- The milliseconds from the epoch to the instant that a timestamp in UTC names. -/
def readTimestamp (s : Bytes) : Option Int := do
  let (year, s) ← readYear s
  let (month, s) ← readField 45 2 s
  let (day, s) ← readField 45 2 s
  let (hour, s) ← readField 84 2 s
  let (minute, s) ← readField 58 2 s
  let (second, s) ← readField 58 2 s
  let (millis, s) ← readMillis s
  if s = ascii "Z" ∧ IsDate year month day ∧ hour < 24 ∧ minute < 60 ∧ second < 60 then
    some ((dayNumber year month day * 86400 +
      (hour * 3600 + minute * 60 + second : Nat)) * 1000 + millis)
  else none

example : readTimestamp (ascii "2024-02-29T12:34:56.789Z") = some 1709210096789 := by decide +kernel
example : readTimestamp (ascii "2023-02-29T00:00:00Z") = none := by decide +kernel

theorem readField_padded (mark : UInt8) {width n : Nat} (hwidth : 0 < width) (h : n < 10 ^ width)
    (rest : Bytes) :
    readField mark width (mark :: (decimalPadded width n ++ rest)) = some (n, rest) := by
  have hlength := Printf.decimalPadded_length hwidth h
  have htake : (decimalPadded width n ++ rest).take width = decimalPadded width n := by
    rw [List.take_append_of_le_length hlength.ge, List.take_of_length_le hlength.le]
  have hdrop : (decimalPadded width n ++ rest).drop width = rest := by
    rw [List.drop_append_of_le_length hlength.ge, List.drop_of_length_le hlength.le,
      List.nil_append]
  simp only [readField, htake, hdrop, hlength, Printf.decimalPadded_isDigit,
    Json.digitsValue_decimalPadded, and_self, if_true]

theorem readYear_decimal (year : Int) (rest : Bytes)
    (h : ∀ c ∈ rest.head?, Byte.isDigit c = false) :
    readYear ((if year < 0 then ascii "-" else []) ++ decimal year.natAbs ++ rest) =
      some (year, rest) := by
  have hdigits := List.all_eq_true.mpr (decimal_isDigit year.natAbs)
  obtain ⟨htake, hdrop⟩ := Json.takeWhile_digits hdigits h
  have hne := decimal_ne_nil year.natAbs
  have hhead : (decimal year.natAbs ++ rest).head? ≠ some 45 := by
    intro hdash
    rw [List.head?_append_of_ne_nil _ hne] at hdash
    exact absurd (decimal_isDigit _ _ (List.mem_of_head? hdash)) (by decide)
  by_cases hneg : year < 0
  · rw [if_pos hneg, List.append_assoc]
    have hminus : (ascii "-" ++ (decimal year.natAbs ++ rest)).head? = some 45 := rfl
    have hunsigned : (ascii "-" ++ (decimal year.natAbs ++ rest)).drop 1 =
        decimal year.natAbs ++ rest := rfl
    simp only [readYear, hminus, hunsigned, htake, hdrop, hne, if_true, if_false,
      Json.digitsValue_decimal]
    rw [show -((year.natAbs : Nat) : Int) = year by omega]
  · rw [if_neg hneg, List.nil_append]
    simp only [readYear, hhead, htake, hdrop, hne, if_false, Json.digitsValue_decimal]
    rw [show ((year.natAbs : Nat) : Int) = year by omega]

/-- The text of a date and a time of day, with what follows it. -/
def dateTimeText (year : Int) (utc : DateTime) (rest : Bytes) : Bytes :=
  (if year < 0 then ascii "-" else []) ++ decimal year.natAbs ++
    45 :: (decimalPadded 2 utc.month ++ 45 :: (decimalPadded 2 utc.day ++ 84 ::
      (decimalPadded 2 utc.hour ++ 58 ::
        (decimalPadded 2 utc.minute ++ 58 :: (decimalPadded 2 utc.second ++ rest)))))

theorem readTimestamp_text {year : Int} {utc : DateTime} (hdate : IsDate year utc.month utc.day)
    (hhour : utc.hour < 24) (hminute : utc.minute < 60) (hsecond : utc.second < 60)
    {rest : Bytes} {millis : Nat} (hrest : readMillis rest = some (millis, ascii "Z")) :
    readTimestamp (dateTimeText year utc rest) = some ((dayNumber year utc.month utc.day * 86400 +
      (utc.hour * 3600 + utc.minute * 60 + utc.second : Nat)) * 1000 + millis) := by
  have hmonth : utc.month < 10 ^ 2 := by
    have := hdate.named
    omega
  have hday : utc.day < 10 ^ 2 := by
    have hmost : ∀ leap : Bool, ∀ month < 13, monthDays leap month ≤ 31 := by decide
    have := hmost (isLeap year) utc.month (by have := hdate.named; omega)
    have := hdate.within
    omega
  have hyear := readYear_decimal year (45 :: (decimalPadded 2 utc.month ++ 45 ::
    (decimalPadded 2 utc.day ++ 84 :: (decimalPadded 2 utc.hour ++ 58 ::
      (decimalPadded 2 utc.minute ++ 58 :: (decimalPadded 2 utc.second ++ rest))))))
      (by simp [Byte.isDigit])
  have htwo : ∀ (mark : UInt8) {n : Nat} (rest : Bytes), n < 10 ^ 2 →
      readField mark 2 (mark :: (decimalPadded 2 n ++ rest)) = some (n, rest) := by
    intro mark n rest hn
    exact readField_padded mark (by decide) hn rest
  simp only [readTimestamp, dateTimeText, hyear, htwo _ _ hmonth, htwo _ _ hday,
    htwo _ _ (hhour.trans (by decide)), htwo _ _ (hminute.trans (by decide)),
    htwo _ _ (hsecond.trans (by decide)), hrest, bind, Option.bind]
  rw [if_pos ⟨trivial, hdate, hhour, hminute, hsecond⟩]

theorem readMillis_point {millis : Nat} (h : millis < 1000) :
    readMillis (46 :: (decimalPadded 3 millis ++ ascii "Z")) = some (millis, ascii "Z") := by
  have hpoint : (46 :: (decimalPadded 3 millis ++ ascii "Z")).head? = some 46 := rfl
  rw [readMillis, if_pos hpoint]
  exact readField_padded 46 (by decide) h (ascii "Z")

/-- The time of day of a computed date. -/
theorem gmtime_clock (time : Nat) :
    (gmtime time).hour < 24 ∧ (gmtime time).minute < 60 ∧ (gmtime time).second < 60 ∧
    (gmtime time).hour * 3600 + (gmtime time).minute * 60 + (gmtime time).second =
      time % 86400 := by
  show time % 86400 / 3600 < 24 ∧ time % 3600 / 60 < 60 ∧ time % 60 < 60 ∧
    time % 86400 / 3600 * 3600 + time % 3600 / 60 * 60 + time % 60 = time % 86400
  omega

theorem dateTimeText_eq (year : Int) (utc : DateTime) (rest : Bytes) :
    (if year < 0 then ascii "-" else []) ++ decimal year.natAbs ++ ascii "-" ++
      decimalPadded 2 utc.month ++ ascii "-" ++ decimalPadded 2 utc.day ++ ascii "T" ++
      decimalPadded 2 utc.hour ++ ascii ":" ++ decimalPadded 2 utc.minute ++ ascii ":" ++
      decimalPadded 2 utc.second ++ rest = dateTimeText year utc rest := by
  simp [dateTimeText, ascii]

/-- The text of a time reads back as the time, with the thousandths behind it. -/
theorem readTimestamp_signed (time : Int) {millis : Nat} (h : millis < 1000) :
    readTimestamp (signedDateTime time ++ ascii "." ++ decimalPadded 3 millis ++ ascii "Z") =
      some (time * 1000 + millis) := by
  obtain ⟨k, hk⟩ : ∃ k, k = time / (400 * 365 * 86400 + 97 * 86400) := ⟨_, rfl⟩
  obtain ⟨n, hn⟩ : ∃ n, n = (time % (400 * 365 * 86400 + 97 * 86400)).toNat := ⟨_, rfl⟩
  have hinstant : ((n / 86400 : Int) + 146097 * k) * 86400 + (n % 86400 : Nat) = time := by omega
  have htext : ∀ rest, signedDateTime time ++ rest = dateTimeText ((gmtime n).year + 400 * k)
      (gmtime n) rest := by
    intro rest
    rw [hn, hk]
    exact dateTimeText_eq _ _ rest
  obtain ⟨hdate, hday⟩ := gmtime_date n
  obtain ⟨hhour, hminute, hsecond, hclock⟩ := gmtime_clock n
  rw [List.append_assoc, List.append_assoc, htext]
  have hread := readTimestamp_text (isDate_era hdate k) hhour hminute hsecond (readMillis_point h)
  rw [dayNumber_era, hday, hclock, hinstant] at hread
  exact hread

theorem readTimestamp_timestamp (time : Nat) :
    readTimestamp (timestamp time) = some ((time : Int) * 1000) := by
  have hinstant : (time / 86400 : Int) * 86400 + (time % 86400 : Nat) = time := by omega
  have htext : timestamp time = dateTimeText (gmtime time).year (gmtime time) (ascii "Z") := by
    rw [← dateTimeText_eq, if_neg (not_lt.mpr (Int.natCast_nonneg _)), Int.natAbs_natCast,
      List.nil_append]
    rfl
  obtain ⟨hdate, hday⟩ := gmtime_date time
  obtain ⟨hhour, hminute, hsecond, hclock⟩ := gmtime_clock time
  have hread : readMillis (ascii "Z") = some (0, ascii "Z") := rfl
  rw [htext, readTimestamp_text hdate hhour hminute hsecond hread, hday, hclock, hinstant,
    Nat.cast_zero, add_zero]

end ForgeOps.Calendar
