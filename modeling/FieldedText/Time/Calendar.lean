/-
FieldedText/Time/Calendar.lean

The civil calendar, by arithmetic on day numbers.

Days are counted from the first of January 1970.  A year is taken to begin in
March, so that the leap day is its last; four hundred years are an era of
146097 days, and within an era the year, the month and the day follow from the
day's number by division.  Years run in both directions without end.
-/

namespace FieldedText

/-- A day of the civil calendar. -/
structure Date where
  year : Int
  month : Nat
  day : Nat
  deriving DecidableEq

namespace Date

/-- The days of an era of four hundred years. -/
def eraDays : Int := 146097

/-- From the first of March of the year 0 to the first of January 1970. -/
def epochShift : Int := 719468

/-- The day with the given number. The number within an era gives the year once the leap days
before it are taken out, and the day of the year gives the month, as months from March on come in
a pattern of five. -/
def ofDays (days : Int) : Date :=
  let shifted := days + epochShift
  let era := shifted.fdiv eraDays
  let dayOfEra := (shifted - era * eraDays).toNat
  let yearOfEra := (dayOfEra - dayOfEra / 1460 + dayOfEra / 36524 - dayOfEra / 146096) / 365
  let dayOfYear := dayOfEra - (365 * yearOfEra + yearOfEra / 4 - yearOfEra / 100)
  let place := (5 * dayOfYear + 2) / 153
  let day := dayOfYear - (153 * place + 2) / 5 + 1
  let month := if place < 10 then place + 3 else place - 9
  ⟨era * 400 + yearOfEra + (if month ≤ 2 then 1 else 0), month, day⟩

/-- The number of a day. It is defined for every month and day, those that no calendar has
included. -/
def toDays (date : Date) : Int :=
  let year := if date.month ≤ 2 then date.year - 1 else date.year
  let era := year.fdiv 400
  let yearOfEra := (year - era * 400).toNat
  let place := if 2 < date.month then date.month - 3 else date.month + 9
  let dayOfYear := (153 * place + 2) / 5 + date.day - 1
  let dayOfEra := yearOfEra * 365 + yearOfEra / 4 - yearOfEra / 100 + dayOfYear
  era * eraDays + dayOfEra - epochShift

/-- Whether the date is a day of the calendar: it is the day of its own number. A day that the
month does not have is the day of another date. -/
def isValid (date : Date) : Bool := ofDays date.toDays = date

end Date

end FieldedText
