import Atlas.Core.Clock
import Mathlib.Data.String.Basic
import Mathlib.Tactic.IntervalCases

/-! The dates that are printed without a time crate: counted off in a loop by the graph
store, and by one division after another in the bridge and the wake pack. -/
namespace Atlas.Core
open List OffsetDateTime
open Text (padZero)

def isLeap (year : Nat) : Bool := year % 4 == 0 && year % 100 != 0 || year % 400 == 0
def yearSpan (year : Nat) : Nat := if isLeap year then 366 else 365

def yearLoop (days year : Nat) : Nat × Nat :=
  if days < yearSpan year then (year, days) else yearLoop (days - yearSpan year) (year + 1)
termination_by days
decreasing_by
  have positive : 0 < yearSpan year := by
    unfold yearSpan
    split <;> decide
  omega

def monthLoop : List Nat → Nat → Nat → Nat × Nat
  | [], days, month => (month, days)
  | daysInMonth :: rest, days, month =>
    if days < daysInMonth then (month, days) else monthLoop rest (days - daysInMonth) (month + 1)

def months (year : Nat) : List Nat :=
  if isLeap year then [31, 29, 31, 30, 31, 30, 31, 31, 30, 31, 30, 31] else [31, 28, 31, 30, 31, 30, 31, 31, 30, 31, 30, 31]

def daysToYmd (days : Nat) : Nat × Nat × Nat :=
  let (year, days) := yearLoop days 1970
  let (month, days) := monthLoop (months year) days 1
  (year, month, days + 1)

/-- `{number:0width}`. -/
def zeroPadded (width number : Nat) : List Char :=
  if number < 10 ^ width then padZero width number else number.repr.toList

def formatUnixSecs (secs : Nat) : String :=
  let (year, month, day) := daysToYmd (secs / 86400)
  String.ofList (zeroPadded 4 year ++ '-' ::
    (zeroPadded 2 month ++ '-' :: (zeroPadded 2 day ++ 'T' :: (zeroPadded 2 (secs / 3600 % 24) ++
    ':' :: (zeroPadded 2 (secs / 60 % 60) ++ ':' :: (zeroPadded 2 (secs % 60) ++ ['Z']))))))

/-- The same body in `bridge.rs` and in `wake_pack.rs`. -/
def epochDaysToYmd (days : Nat) : Nat × Nat × Nat :=
  let days := days + 719468
  let era := days / 146097
  let doe := days % 146097
  let yoe := (doe - doe / 1460 + doe / 36524 - doe / 146096) / 365
  let y := yoe + era * 400
  let doy := doe - (365 * yoe + yoe / 4 - yoe / 100)
  let mp := (5 * doy + 2) / 153
  let da := doy - (153 * mp + 2) / 5 + 1
  let mo := if mp < 10 then mp + 3 else mp - 9
  (if mo ≤ 2 then y + 1 else y, mo, da)

/-- A date of the proleptic Gregorian calendar, that many days after 1970-01-01. -/
structure IsDate (days year month day : Nat) : Prop where
  inYear : 1 ≤ month ∧ month ≤ 12
  inMonth : 1 ≤ day ∧ day ≤ (monthLengths year).getD (month - 1) 0
  count : daysBeforeYear year + ((monthLengths year).take (month - 1)).sum + day = daysBeforeYear 1970 + days + 1

theorem isLeap_eq (year : Nat) : isLeap year = isLeapYear year := by
  unfold isLeap isLeapYear
  rw [Bool.eq_iff_iff]
  simp only [Bool.and_eq_true, Bool.or_eq_true, beq_iff_eq, bne_iff_ne]
  omega

theorem months_eq (year : Nat) : months year = monthLengths year := by
  rw [months, monthLengths, isLeap_eq]
  split <;> rfl

theorem yearSpan_eq (year : Nat) :
    yearSpan year = daysInYear year := by rw [yearSpan, daysInYear, isLeap_eq]

theorem yearLoop_spec (days year : Nat) :
    (yearLoop days year).2 < daysInYear (yearLoop days year).1 ∧
    daysBeforeYear (yearLoop days year).1 + (yearLoop days year).2 = daysBeforeYear year + days ∧
      year ≤ (yearLoop days year).1 := by
  induction days, year using yearLoop.induct with
  | case1 days year short =>
    rw [yearLoop, if_pos short]
    exact ⟨yearSpan_eq year ▸ short, rfl, le_rfl⟩
  | case2 days year long ih =>
    rw [yearLoop, if_neg long]
    refine ⟨ih.1, ih.2.1.trans ?_, Nat.le_of_succ_le ih.2.2⟩
    rw [Nat.cast_succ, daysBeforeYear_succ, ← yearSpan_eq]
    omega

theorem monthDay_eq (lengths : List Nat) (days month : Nat) :
    monthDay lengths month (days + 1) = ((monthLoop lengths days month).1, (monthLoop lengths days month).2 + 1) := by
  induction lengths generalizing days month with
  | nil => rfl
  | cons daysInMonth rest ih =>
    rw [monthDay, monthLoop]
    by_cases early : days < daysInMonth
    · rw [if_pos early, if_pos (Nat.succ_le_of_lt early)]
    · rw [if_neg early, if_neg (by omega), ← ih, Nat.sub_add_comm (by omega)]

theorem monthLoop_spec {lengths : List Nat}
    {days : Nat} (inside : days < lengths.sum) (month : Nat) :
    ∃ index < lengths.length, (monthLoop lengths days month).1 = month + index ∧
      (monthLoop lengths days month).2 < lengths.getD index 0 ∧
      (lengths.take index).sum + (monthLoop lengths days month).2 = days := by
  induction lengths generalizing days month with
  | nil => simp at inside
  | cons daysInMonth rest ih =>
    rw [monthLoop]
    split
    · next early => exact ⟨0, by simp, rfl, early, by simp⟩
    · next late =>
      rw [sum_cons] at inside
      obtain ⟨index, bound, same, day, count⟩ := @ih (days - daysInMonth) (by omega) (month + 1)
      refine ⟨index + 1, Nat.succ_lt_succ bound, by omega, day, ?_⟩
      rw [take_succ_cons, sum_cons]
      omega

theorem isDate_daysToYmd (days : Nat) :
    IsDate days (daysToYmd days).1 (daysToYmd days).2.1 (daysToYmd days).2.2 := by
  obtain ⟨short, count, -⟩ := yearLoop_spec days 1970
  unfold daysToYmd
  generalize yearLoop days 1970 = found at short count
  obtain ⟨year, rest⟩ := found
  rw [← monthLengths_sum] at short
  obtain ⟨index, bound, month, inMonth, before⟩ := monthLoop_spec short 1
  change index < 12 at bound
  rw [Nat.cast_ofNat] at count
  dsimp only at count ⊢
  rw [months_eq, month]
  refine ⟨by omega, ?_, ?_⟩ <;> rw [Nat.add_sub_cancel_left]
  · exact ⟨Nat.succ_pos _, inMonth⟩
  · dsimp only at before ⊢
    omega

/-! ## The closed form -/

/-- The year of an era that starts in March: `c` centuries, `q` times four years and `r` years. -/
theorem yearOfEra {c q r doy doe : Nat}
    (centuries : c < 4) (quads : q < 25) (years : r < 4) (days : doy ≤ 365)
    (leap : doy = 365 → r = 3 ∧ (q ≠ 24 ∨ c = 3)) (split : doe = c * 36524 + q * 1461 + r * 365 + doy) :
    (doe - doe / 1460 + doe / 36524 - doe / 146096) / 365 = c * 100 + q * 4 + r := by
  have century : doe / 36524 = c + doe / 146096 := by
    rcases lt_or_ge doe 146096 with small | last
    · rw [Nat.div_eq_of_lt small]
      omega
    · have three : c = 3 := by omega
      have top : doe = 146096 := by omega
      rw [three, top]
  have quad : doe / 1460 = 25 * c + q + (24 * c + q + r * 365 + doy) / 1460 := by omega
  have rest : (24 * c + q + r * 365 + doy) / 1460 = 0 ∧ doy ≠ 365 ∨
    (24 * c + q + r * 365 + doy) / 1460 = 1 ∧ r = 3 ∧ 0 < doy := by omega
  rw [century]
  omega

theorem daysBeforeYear_next (y : Nat) :
    daysBeforeYear (y + 1) = 365 * y + (y / 4 : Nat) - (y / 100 : Nat) + (y / 400 : Nat) + 366 := by
  unfold daysBeforeYear
  omega

/-- A date by its year from March on and the day of that year. -/
theorem IsDate.march {days year month day : Nat}
    (date : IsDate days year month day) (modern : 1970 ≤ year) :
    ∃ y doy, year = (if month ≤ 2 then y + 1 else y) ∧ days + 719468 + y / 100 = 365 * y + y / 4 + y / 400 + doy ∧ doy ≤ 365 ∧
      (doy = 365 → y % 4 = 3 ∧ (y % 100 ≠ 99 ∨ y % 400 = 399)) ∧
      (5 * doy + 2) / 153 = (month + 9) % 12 ∧ doy + 1 = (153 * ((month + 9) % 12) + 2) / 5 + day := by
  obtain ⟨⟨first, last⟩, ⟨positive, inMonth⟩, count⟩ := date
  have start : daysBeforeYear 1970 = 719528 := by decide
  have next := daysBeforeYear_succ year
  have prev := daysBeforeYear_next (year - 1)
  rw [← Nat.cast_succ, Nat.succ_eq_add_one, Nat.sub_add_cancel (by omega)] at prev
  have leap := isLeap_eq year
  rw [isLeap, Bool.eq_iff_iff] at leap
  simp only [Bool.and_eq_true, Bool.or_eq_true, beq_iff_eq, bne_iff_ne] at leap
  rw [daysBeforeYear_next, daysInYear] at next
  unfold monthLengths at inMonth count
  refine ⟨if month ≤ 2 then year - 1 else year, (153 * ((month + 9) % 12) + 2) / 5 + day - 1, ?_⟩
  cases given : isLeapYear year <;> simp only [given, if_true, Bool.false_eq_true, if_false,
    iff_true, iff_false] at leap next inMonth count <;>
    interval_cases month <;> simp at inMonth count ⊢ <;> omega

theorem epochDaysToYmd_eq {days year month day : Nat}
    (date : IsDate days year month day) (modern : 1970 ≤ year) :
    epochDaysToYmd days = (year, month, day) := by
  obtain ⟨y, doy, shifted, count, short, last, mp, day⟩ := date.march modern
  have first := date.inYear
  have positive := date.inMonth.1
  obtain ⟨e, c, q, r, rfl, centuries, quads, years⟩ : ∃ e c q r, y = 400 * e + 100 * c + 4 * q + r ∧ c < 4 ∧ q < 25 ∧ r < 4 :=
    ⟨y / 400, y % 400 / 100, y % 100 / 4, y % 4, by omega, by omega, by omega, by omega⟩
  have quarter : (400 * e + 100 * c + 4 * q + r) / 4 = 100 * e + 25 * c + q := by omega
  have century : (400 * e + 100 * c + 4 * q + r) / 100 = 4 * e + c := by omega
  have fourth : (400 * e + 100 * c + 4 * q + r) / 400 = e := by omega
  have leap : doy = 365 → r = 3 ∧ (q ≠ 24 ∨ c = 3) := by
    intro full
    have := last full
    omega
  rw [quarter, century, fourth] at count
  have total : days + 719468 = 146097 * e + (c * 36524 + q * 1461 + r * 365 + doy) := by omega
  have era : (days + 719468) / 146097 = e := by omega
  have doe : (days + 719468) % 146097 = c * 36524 + q * 1461 + r * 365 + doy := by omega
  have yoe := yearOfEra centuries quads years short leap doe
  have yoeQuarter : (c * 100 + q * 4 + r) / 4 = 25 * c + q := by omega
  have yoeCentury : (c * 100 + q * 4 + r) / 100 = c := by omega
  have ofYear : (days + 719468) % 146097 - (365 * (c * 100 + q * 4 + r) + (25 * c + q) - c) = doy := by omega
  have monthOf : (if (month + 9) % 12 < 10 then (month + 9) % 12 + 3 else (month + 9) % 12 - 9) = month := by
    split <;> omega
  simp only [epochDaysToYmd, yoe, era, yoeQuarter, yoeCentury, ofYear, mp, monthOf]
  refine Prod.ext ?_ (Prod.ext rfl ?_)
  · rw [shifted]
    dsimp only
    split <;> omega
  · dsimp only
    omega

theorem daysToYmd_eq_epoch (days : Nat) : daysToYmd days = epochDaysToYmd days :=
  (epochDaysToYmd_eq (isDate_daysToYmd days) (yearLoop_spec days 1970).2.2).symm

/-! ## The text -/

theorem exists_instant (secs : Nat) :
    ∃ ts : OffsetDateTime, ts.unixTimestamp = secs ∧ ts.year = (daysToYmd (secs / 86400)).1 ∧
    ((daysToYmd (secs / 86400)).1 < 10 ^ 4 → (formatUnixSecs secs).toList = rfc3339Text ts) := by
  obtain ⟨short, count, -⟩ := yearLoop_spec (secs / 86400) 1970
  obtain ⟨ts, year, ordinal, hour, minute, second, nanosecond⟩ : ∃ ts : OffsetDateTime, ts.year = (daysToYmd (secs / 86400)).1 ∧
      ts.ordinal = (yearLoop (secs / 86400) 1970).2 + 1 ∧
        ts.hour = secs / 3600 % 24 ∧ ts.minute = secs / 60 % 60 ∧ ts.second = secs % 60 ∧
      ts.nanosecond = 0 :=
    ⟨⟨(yearLoop (secs / 86400) 1970).1, _, _, _, _, _, Nat.succ_pos _, short, Nat.mod_lt _ (by decide), Nat.mod_lt _ (by decide),
      Nat.mod_lt _ (by decide), by decide⟩, rfl, rfl, rfl, rfl, rfl, rfl⟩
  refine ⟨ts, ?_, year, fun fourDigits => ?_⟩
  · have start : daysBeforeYear (1970 : Nat) = 719528 := by decide
    have same : (daysToYmd (secs / 86400)).1 = (yearLoop (secs / 86400) 1970).1 := rfl
    rw [start] at count
    rw [unixTimestamp, unixDay, year, ordinal, hour, minute, second, same]
    push_cast
    omega
  · have date : ts.toCalendarDate = (daysToYmd (secs / 86400)).2 := by
      rw [toCalendarDate, year, ordinal, monthDay_eq]
      change (_, _) = ((monthLoop (months (yearLoop (secs / 86400) 1970).1) _ 1).1, _)
      rw [months_eq]
      rfl
    have month := ts.month_lt
    have day := ts.day_lt
    rw [date] at month day
    rw [formatUnixSecs, String.toList_ofList, rfc3339Text, date, year, hour, minute, second,
      nanosecond, zeroPadded, zeroPadded, zeroPadded,
      zeroPadded, zeroPadded, zeroPadded, if_pos fourDigits, if_pos month, if_pos day,
        if_pos (by omega), if_pos (by omega), if_pos (by omega)]
    rfl

/-- Both conversions give the date of every day, and until the year 10000 the printed
instants sort as texts. -/
theorem unixDates_agree {earlier later : Nat}
    (order : earlier ≤ later) (fourDigits : (daysToYmd (later / 86400)).1 < 10000) :
    (∀ days, IsDate days (daysToYmd days).1 (daysToYmd days).2.1 (daysToYmd days).2.2 ∧ epochDaysToYmd days = daysToYmd days) ∧
      formatUnixSecs earlier ≤ formatUnixSecs later ∧ (formatUnixSecs earlier = formatUnixSecs later → earlier = later) := by
  refine ⟨fun days => ⟨isDate_daysToYmd days, (daysToYmd_eq_epoch days).symm⟩, ?_⟩
  rcases order.eq_or_lt with rfl | before
  · exact ⟨le_rfl, fun _ => rfl⟩
  · obtain ⟨first, firstSecs, firstYear, firstText⟩ := exists_instant earlier
    obtain ⟨second, secondSecs, secondYear, secondText⟩ := exists_instant later
    have later' : first.unixTimestamp < second.unixTimestamp := by omega
    have days : first.unixDay ≤ second.unixDay := by
      rcases timestamp_order later'.le with less | same <;> omega
    have years := day_order days
    have less := rfc3339Text_lt_of_second_lt (by omega) (by omega) later'
    rw [← firstText (by omega), ← secondText fourDigits, ← String.lt_iff] at less
    exact ⟨less.le, fun same => absurd same less.ne⟩

/-- From noon of a leap day to the end of the February of a century that has none. -/
theorem unixDates_agree_leapDay :
    formatUnixSecs 951825600 = "2000-02-29T12:00:00Z" ∧
      formatUnixSecs 4107542399 = "2100-02-28T23:59:59Z" ∧
      formatUnixSecs 951825600 ≤ formatUnixSecs 4107542399 ∧
      epochDaysToYmd 11016 = daysToYmd 11016 := by
  have leap : daysToYmd (951825600 / 86400) = (2000, 2, 29) := by
    rw [daysToYmd_eq_epoch]
    decide
  have century : daysToYmd (4107542399 / 86400) = (2100, 2, 28) := by
    rw [daysToYmd_eq_epoch]
    decide
  have agree := @unixDates_agree 951825600 4107542399 (by decide) (by rw [century]; decide)
  refine ⟨?_, ?_, agree.2.1, (agree.1 11016).2⟩
  · rw [formatUnixSecs, leap]
    decide +kernel
  · rw [formatUnixSecs, century]
    decide +kernel

end Atlas.Core
