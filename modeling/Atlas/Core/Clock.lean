import Atlas.Text.Numeral

/-! `format_rfc3339` prints an instant for every timestamp column of the session and
content stores. The columns are compared as text, so the order of the printed
forms is the order the stores see. -/
namespace Atlas.Core
open List
open Text (padZero fraction lastUnit)

def isLeapYear (year : Int) : Bool := year % 4 == 0 && (year % 100 != 0 || year % 400 == 0)

def daysInYear (year : Int) : Nat :=
  if isLeapYear year then 366 else 365

def monthLengths (year : Int) : List Nat :=
  [31, if isLeapYear year then 29 else 28, 31, 30, 31, 30, 31, 31, 30, 31, 30, 31]

structure OffsetDateTime where
  year : Int
  (ordinal hour minute second nanosecond : Nat)
  ordinal_pos : 0 < ordinal
  ordinal_le : ordinal ≤ daysInYear year
  hour_lt : hour < 24
  minute_lt : minute < 60
  second_lt : second < 60
  nanosecond_lt : nanosecond < 10 ^ 9

namespace OffsetDateTime

def daysBeforeYear (year : Int) : Int :=
  365 * year + (year + 3) / 4 - (year + 99) / 100 + (year + 399) / 400

variable (ts : OffsetDateTime)

def unixDay : Int := daysBeforeYear ts.year + ts.ordinal - 1 - 719528
def unixTimestamp : Int := ((ts.unixDay * 24 + ts.hour) * 60 + ts.minute) * 60 + ts.second
def unixTimestampNanos : Int := ts.unixTimestamp * 10 ^ 9 + ts.nanosecond

instance : LT OffsetDateTime where
  lt left right := left.unixTimestampNanos < right.unixTimestampNanos

instance (left right : OffsetDateTime) : Decidable (left < right) :=
  inferInstanceAs (Decidable (left.unixTimestampNanos < right.unixTimestampNanos))

theorem lt_def {left right : OffsetDateTime} :
    left < right ↔ left.unixTimestampNanos < right.unixTimestampNanos := Iff.rfl

def monthDay : List Nat → Nat → Nat → Nat × Nat
  | [], month, day => (month, day)
  | days :: rest, month, day => if day ≤ days then (month, day) else monthDay rest (month + 1) (day - days)

def toCalendarDate : Nat × Nat := monthDay (monthLengths ts.year) 1 ts.ordinal

def replaceNanosecond (nanosecond : Nat) (valid : nanosecond < 10 ^ 9) : OffsetDateTime :=
  { ts with nanosecond, nanosecond_lt := valid }

end OffsetDateTime

def subsecond (nanosecond : Nat) : List Char :=
  if nanosecond = 0 then [] else '.' :: fraction 9 nanosecond

def rfc3339Text (ts : OffsetDateTime) : List Char := padZero 4 ts.year.toNat ++ '-' :: (padZero 2
    ts.toCalendarDate.1 ++ '-' :: (padZero 2 ts.toCalendarDate.2 ++ 'T' :: (padZero 2 ts.hour ++
      ':' :: (padZero 2 ts.minute ++ ':' :: (padZero 2 ts.second ++ (subsecond ts.nanosecond ++ ['Z']))))))

/-- The formatter of the `time` crate refuses years outside four digits. -/
def rfc3339 (ts : OffsetDateTime) : Option String :=
  if 0 ≤ ts.year ∧ ts.year ≤ 9999 then some (String.ofList (rfc3339Text ts)) else none

def formatRfc3339 (ts : OffsetDateTime) : String := (rfc3339 ts).getD "1970-01-01T00:00:00Z"

example : formatRfc3339 ⟨2023, 318, 22, 13, 20, 0, by decide, by decide, by decide, by decide,
    by decide, by decide⟩ = "2023-11-14T22:13:20Z" := by decide +kernel

namespace OffsetDateTime

variable (lengths : List Nat) (year : Int) (month : Nat)

theorem month_le_monthDay (day : Nat) : month ≤ (monthDay lengths month day).1 := by
  induction lengths generalizing month day with
  | nil => exact le_rfl
  | cons days rest ih =>
    rw [monthDay]
    split
    · exact le_rfl
    · exact Nat.le_of_succ_le (ih (month + 1) (day - days))

theorem monthDay_le (day : Nat) : (monthDay lengths month day).1 ≤ month + lengths.length := by
  induction lengths generalizing month day with
  | nil => exact le_rfl
  | cons days rest ih =>
    rw [monthDay, length_cons]
    split
    · exact Nat.le_add_right month _
    · have within := ih (month + 1) (day - days)
      omega

theorem day_le_of_monthDay {lengths : List Nat}
    {longest : Nat} (short : ∀ days ∈ lengths, days ≤ longest) (month : Nat) {day : Nat}
    (inside : day ≤ lengths.sum) : (monthDay lengths month day).2 ≤ longest := by
  induction lengths generalizing month day with
  | nil =>
    rw [sum_nil] at inside
    exact Nat.le_trans inside (Nat.zero_le longest)
  | cons days rest ih =>
    rw [sum_cons] at inside
    rw [monthDay]
    split
    next early => exact Nat.le_trans early (short days (.head rest))
    next late => exact ih (fun other mem => short other (.tail days mem)) (month + 1) (by omega)

theorem monthDay_lt {day day' : Nat} (before : day < day') :
    (monthDay lengths month day).1 < (monthDay lengths month day').1 ∨
      (monthDay lengths month day).1 = (monthDay lengths month day').1 ∧
        (monthDay lengths month day).2 < (monthDay lengths month day').2 := by
  induction lengths generalizing month day day' with
  | nil => exact .inr ⟨rfl, before⟩
  | cons days rest ih =>
    rw [monthDay, monthDay]
    by_cases late : day ≤ days
    · rw [if_pos late]
      by_cases late' : day' ≤ days
      · rw [if_pos late']
        exact .inr ⟨rfl, before⟩
      · rw [if_neg late']
        exact .inl (month_le_monthDay rest (month + 1) (day' - days))
    · rw [if_neg late, if_neg (by omega)]
      exact ih (month + 1) (by omega)

theorem monthLengths_sum : (monthLengths year).sum = daysInYear year := by
  cases leap : isLeapYear year <;> simp [monthLengths, daysInYear, leap]

theorem monthLengths_le : ∀ days ∈ monthLengths year, days ≤ 31 := by
  cases leap : isLeapYear year <;> simp [monthLengths, leap]

theorem month_lt (ts : OffsetDateTime) : ts.toCalendarDate.1 < 10 ^ 2 := by
  have within := monthDay_le (monthLengths ts.year) 1 ts.ordinal
  have twelve : (monthLengths ts.year).length = 12 := rfl
  rw [twelve] at within
  exact Nat.lt_of_le_of_lt within (by decide)

theorem day_lt (ts : OffsetDateTime) : ts.toCalendarDate.2 < 10 ^ 2 := by
  have inside : ts.ordinal ≤ (monthLengths ts.year).sum := by
    rw [monthLengths_sum]
    exact ts.ordinal_le
  have within := day_le_of_monthDay (monthLengths_le ts.year) 1 inside
  exact Nat.lt_of_le_of_lt within (by decide)

theorem daysBeforeYear_succ :
    daysBeforeYear (year + 1) = daysBeforeYear year + daysInYear year := by
  unfold daysBeforeYear daysInYear isLeapYear
  simp only [Bool.and_eq_true, Bool.or_eq_true, beq_iff_eq, bne_iff_ne]
  split <;> push_cast <;> omega

theorem daysBeforeYear_mono {year year' : Int} (earlier : year ≤ year') :
    daysBeforeYear year ≤ daysBeforeYear year' := by
  unfold daysBeforeYear
  omega

theorem day_order {left right : OffsetDateTime} (before : left.unixDay ≤ right.unixDay) :
    left.year < right.year ∨ left.year = right.year ∧ left.ordinal ≤ right.ordinal := by
  unfold unixDay at before
  rcases Int.lt_trichotomy left.year right.year with less | same | greater
  · exact .inl less
  · rw [same] at before
    exact .inr ⟨same, by omega⟩
  · have years := daysBeforeYear_mono (Int.add_one_le_of_lt greater)
    rw [daysBeforeYear_succ] at years
    have last := right.ordinal_le
    have first := left.ordinal_pos
    omega

end OffsetDateTime

theorem field_lt_iff {width number number' : Nat} (bound : number < 10 ^ width)
    (bound' : number' < 10 ^ width) (separator : Char) (rest rest' : List Char) :
    padZero width number ++ separator :: rest < padZero width number' ++ separator :: rest' ↔
      number < number' ∨ number = number' ∧ rest < rest' := by
  rw [Text.append_lt_append_iff (by simp), Text.padZero_lt_iff bound bound',
    Text.padZero_eq_iff bound bound', cons_lt_cons_self]

theorem subsecond_lt_iff {nanosecond nanosecond' : Nat}
    (less : nanosecond < nanosecond') (bound' : nanosecond' < 10 ^ 9) :
    subsecond nanosecond ++ ['Z'] < subsecond nanosecond' ++ ['Z'] ↔ nanosecond + lastUnit 9 nanosecond ≤ nanosecond' := by
  have digitsBelow : ∀ digit < 10, Nat.digitChar digit < 'Z' := by decide
  have nonzero' : nanosecond' ≠ 0 := by omega
  rw [subsecond, subsecond, if_neg nonzero']
  by_cases zero : nanosecond = 0
  · -- No fraction is printed, and the closing letter sorts after the point.
    have unit : lastUnit 9 nanosecond = 10 ^ 9 := by simp [zero, lastUnit]
    rw [if_pos zero, unit]
    simp only [nil_append, cons_append, cons_lt_cons_iff]
    constructor
    · rintro (smaller | ⟨same, -⟩)
      · exact absurd smaller (by decide)
      · exact absurd same (by decide)
    · intro far
      omega
  · rw [if_neg zero, cons_append, cons_append, cons_lt_cons_self]
    exact Text.fraction_lt_iff less bound' digitsBelow

theorem rfc3339Text_lt_iff {left right : OffsetDateTime}
    (leftYear : left.year.toNat < 10 ^ 4) (rightYear : right.year.toNat < 10 ^ 4) :
    rfc3339Text left < rfc3339Text right ↔ left.year.toNat < right.year.toNat ∨ left.year.toNat = right.year.toNat ∧
      (left.toCalendarDate.1 < right.toCalendarDate.1 ∨ left.toCalendarDate.1 = right.toCalendarDate.1 ∧
      (left.toCalendarDate.2 < right.toCalendarDate.2 ∨ left.toCalendarDate.2 = right.toCalendarDate.2 ∧
      (left.hour < right.hour ∨ left.hour = right.hour ∧
      (left.minute < right.minute ∨ left.minute = right.minute ∧
      (left.second < right.second ∨ left.second = right.second ∧ subsecond left.nanosecond ++
        ['Z'] < subsecond right.nanosecond ++ ['Z']))))) := by
  have twoDigits : ∀ {number : Nat}, number < 60 → number < 10 ^ 2 := by omega
  have hours : ∀ ts : OffsetDateTime, ts.hour < 10 ^ 2 := fun ts => by
    have := ts.hour_lt
    omega
  rw [rfc3339Text, rfc3339Text, field_lt_iff leftYear rightYear, field_lt_iff left.month_lt
    right.month_lt, field_lt_iff left.day_lt right.day_lt, field_lt_iff (hours left) (hours right),
    field_lt_iff (twoDigits left.minute_lt) (twoDigits right.minute_lt),
    Text.append_lt_append_iff (by simp),
    Text.padZero_lt_iff (twoDigits left.second_lt) (twoDigits right.second_lt),
    Text.padZero_eq_iff (twoDigits left.second_lt) (twoDigits right.second_lt)]

namespace OffsetDateTime

variable {left right : OffsetDateTime}

theorem timestamp_order (before : left.unixTimestamp ≤ right.unixTimestamp) :
    left.unixDay < right.unixDay ∨
      left.unixDay = right.unixDay ∧ (left.hour < right.hour ∨ left.hour = right.hour ∧
      (left.minute < right.minute ∨ left.minute = right.minute ∧ left.second ≤ right.second)) := by
  unfold unixTimestamp at before
  have := left.hour_lt
  have := left.minute_lt
  have := left.second_lt
  have := right.hour_lt
  have := right.minute_lt
  have := right.second_lt
  omega

theorem day_eq (same : left.unixDay = right.unixDay) :
    left.year = right.year ∧ left.ordinal = right.ordinal := by
  rcases day_order (Int.le_of_eq same) with less | ⟨years, ordinals⟩
  · rcases day_order (Int.le_of_eq same.symm) with greater | ⟨years, -⟩
    all_goals omega
  · rcases day_order (Int.le_of_eq same.symm) with greater | ⟨-, ordinals'⟩
    · omega
    · exact ⟨years, by omega⟩

theorem toCalendarDate_eq (years : left.year = right.year)
    (ordinals : left.ordinal = right.ordinal) : left.toCalendarDate = right.toCalendarDate := by
  rw [toCalendarDate, toCalendarDate, years, ordinals]

theorem toCalendarDate_lt (years : left.year = right.year)
    (ordinals : left.ordinal < right.ordinal) :
    left.toCalendarDate.1 < right.toCalendarDate.1 ∨ left.toCalendarDate.1 =
      right.toCalendarDate.1 ∧ left.toCalendarDate.2 < right.toCalendarDate.2 := by
  rw [toCalendarDate, toCalendarDate, years]
  exact monthDay_lt (monthLengths right.year) 1 ordinals

theorem lt_iff : left < right ↔ left.unixTimestamp < right.unixTimestamp ∨
    left.unixTimestamp = right.unixTimestamp ∧ left.nanosecond < right.nanosecond := by
  rw [lt_def, unixTimestampNanos, unixTimestampNanos]
  have := left.nanosecond_lt
  have := right.nanosecond_lt
  omega

end OffsetDateTime

theorem rfc3339Text_lt_of_second_lt {left right : OffsetDateTime}
    (leftYear : 0 ≤ left.year ∧ left.year ≤ 9999) (rightYear : 0 ≤ right.year ∧ right.year ≤ 9999)
    (before : left.unixTimestamp < right.unixTimestamp) :
    rfc3339Text left < rfc3339Text right := by
  rw [rfc3339Text_lt_iff (by omega) (by omega)]
  rcases OffsetDateTime.timestamp_order (Int.le_of_lt before) with days | ⟨days, clock⟩
  · rcases OffsetDateTime.day_order (Int.le_of_lt days) with years | ⟨years, ordinals⟩
    · exact .inl (by omega)
    · have ordinal : left.ordinal < right.ordinal := by
        unfold OffsetDateTime.unixDay at days
        rw [years] at days
        omega
      rcases OffsetDateTime.toCalendarDate_lt years ordinal with months | ⟨months, dates⟩
      · exact .inr ⟨by rw [years], .inl months⟩
      · exact .inr ⟨by rw [years], .inr ⟨months, .inl dates⟩⟩
  · obtain ⟨years, ordinals⟩ := OffsetDateTime.day_eq days
    have dates := OffsetDateTime.toCalendarDate_eq years ordinals
    unfold OffsetDateTime.unixTimestamp at before
    rw [years, dates]
    omega

theorem rfc3339Text_lt_of_second_eq {left right : OffsetDateTime}
    (leftYear : 0 ≤ left.year ∧ left.year ≤ 9999) (rightYear : 0 ≤ right.year ∧ right.year ≤ 9999)
    (same : left.unixTimestamp = right.unixTimestamp) :
    rfc3339Text left < rfc3339Text right ↔ subsecond left.nanosecond ++ ['Z'] < subsecond right.nanosecond ++ ['Z'] := by
  rw [rfc3339Text_lt_iff (by omega) (by omega)]
  have forward := OffsetDateTime.timestamp_order (Int.le_of_eq same)
  have backward := OffsetDateTime.timestamp_order (Int.le_of_eq same.symm)
  have days : left.unixDay = right.unixDay := by omega
  obtain ⟨years, ordinals⟩ := OffsetDateTime.day_eq days
  have dates := OffsetDateTime.toCalendarDate_eq years ordinals
  have hours : left.hour = right.hour := by omega
  have minutes : left.minute = right.minute := by omega
  have seconds : left.second = right.second := by omega
  simp [years, dates, hours, minutes, seconds]

/-- The printed form of the earlier instant sorts first exactly when the later one
is at least one unit of the earlier one's last printed digit away. -/
theorem formatRfc3339_lt_iff {left right : OffsetDateTime}
    (leftYear : 0 ≤ left.year ∧ left.year ≤ 9999)
    (rightYear : 0 ≤ right.year ∧ right.year ≤ 9999) (before : left < right) :
    formatRfc3339 left < formatRfc3339 right ↔
      left.unixTimestampNanos + lastUnit 9 left.nanosecond ≤ right.unixTimestampNanos := by
  have leftText : (formatRfc3339 left).toList = rfc3339Text left := by simp [formatRfc3339, rfc3339, leftYear]
  have rightText : (formatRfc3339 right).toList = rfc3339Text right := by simp [formatRfc3339, rfc3339, rightYear]
  have room := Text.lastUnit_fits left.nanosecond_lt
  rw [String.lt_iff, leftText, rightText, OffsetDateTime.unixTimestampNanos, OffsetDateTime.unixTimestampNanos]
  rcases OffsetDateTime.lt_iff.mp before with seconds | ⟨seconds, nanos⟩
  · -- A later second is always far enough: the unit stays within the second.
    constructor
    · intro _
      omega
    · intro _
      exact rfc3339Text_lt_of_second_lt leftYear rightYear seconds
  · rw [rfc3339Text_lt_of_second_eq leftYear rightYear seconds, subsecond_lt_iff nanos right.nanosecond_lt]
    omega

theorem zeroNanoseconds : 0 < 10 ^ 9 := by decide

def sampleInstant (nanosecond : Nat) (valid : nanosecond < 10 ^ 9) : OffsetDateTime :=
  ⟨2023, 318, 22, 13, 20, nanosecond, by decide, by decide, by decide, by decide, by decide, valid⟩

theorem sampleInstant_order : formatRfc3339 (sampleInstant 500000000 (by decide)) <
    formatRfc3339 (sampleInstant 620000000 (by decide)) ↔
    (sampleInstant 500000000 (by decide)).unixTimestampNanos + lastUnit 9 500000000 ≤
      (sampleInstant 620000000 (by decide)).unixTimestampNanos :=
  formatRfc3339_lt_iff (by decide) (by decide) (by decide)

/-- A whole second is printed without a fraction and sorts after its own halves. -/
theorem sampleInstant_misordered :
    ∃ left right : OffsetDateTime, (0 ≤ left.year ∧ left.year ≤ 9999) ∧
      (0 ≤ right.year ∧ right.year ≤ 9999) ∧
      left < right ∧ ¬ formatRfc3339 left < formatRfc3339 right := by
  have later : sampleInstant 0 (by decide) < sampleInstant 500000000 (by decide) := by decide
  have texts : ¬ formatRfc3339 (sampleInstant 0 (by decide)) <
      formatRfc3339 (sampleInstant 500000000 (by decide)) := by decide +kernel
  exact ⟨sampleInstant 0 (by decide), sampleInstant 500000000 (by decide), by decide, by decide,
    later, texts⟩

end Atlas.Core
