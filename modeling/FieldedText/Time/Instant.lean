/-
FieldedText/Time/Instant.lean

Instants, and the RFC 3339 form in which they are written and read.

An instant is a number of seconds from the beginning of 1970 and a number of
nanoseconds, which reaches beyond a thousand million within a leap second; such
a second is written as the sixtieth of its minute.  A fraction has three, six or
nine digits, as few as hold it, and none when it is zero.  A year beyond four
digits, or before the year 0, has a sign.

Reading takes one part after the other and hands on what follows it; the first
part that is not there names the fault.  It is laxer than writing: white space,
shorter numbers and any offset are read as well.
-/
import FieldedText.Time.Calendar
import FieldedText.Number.Decimal
import FieldedText.Text.Blank

namespace FieldedText

/-- A point in time. Leap seconds are not counted; within one the nanoseconds go on beyond a
thousand million. -/
structure Instant where
  /-- Seconds from the beginning of 1970. -/
  seconds : Int
  /-- Nanoseconds; a thousand million and more within a leap second. -/
  nanoseconds : Nat
  deriving DecidableEq

namespace Instant

/-! ### Writing -/

/-- A number with zeros before it to make up the width. -/
def padded (width n : Nat) : Text :=
  let digits := natText n
  List.replicate (width - digits.length) '0' ++ digits

/-- A year: four digits, with a sign when four digits cannot hold it. -/
def yearText (year : Int) : Text :=
  if 0 ≤ year ∧ year ≤ 9999 then padded 4 year.toNat
  else (if year < 0 then '-' else '+') :: padded 4 year.natAbs

/-- A fraction of a second, with its point, in as few groups of three digits as hold it. -/
def fractionText (nanoseconds : Nat) : Text :=
  if nanoseconds = 0 then []
  else if nanoseconds % 1000000 = 0 then '.' :: padded 3 (nanoseconds / 1000000)
  else if nanoseconds % 1000 = 0 then '.' :: padded 6 (nanoseconds / 1000)
  else '.' :: padded 9 nanoseconds

/-- The date and the time of day, without an offset. The sixtieth second is the one before it with
a thousand million nanoseconds more. -/
def localText (instant : Instant) : Text :=
  let days := instant.seconds.fdiv 86400
  let second := (instant.seconds - days * 86400).toNat
  let date := Date.ofDays days
  let leap := 1000000000 ≤ instant.nanoseconds
  let nanoseconds := if leap then instant.nanoseconds - 1000000000 else instant.nanoseconds
  yearText date.year ++ ['-'] ++ padded 2 date.month ++ ['-'] ++ padded 2 date.day ++ ['T'] ++
    padded 2 (second / 3600) ++ [':'] ++ padded 2 (second / 60 % 60) ++ [':'] ++
    padded 2 (second % 60 + if leap then 1 else 0) ++ fractionText nanoseconds

/-- The instant with a numeric offset of zero. -/
def text (instant : Instant) : Text := instant.localText ++ "+00:00".toList

/-- The instant with the letter for an offset of zero. -/
def zuluText (instant : Instant) : Text := instant.localText ++ ['Z']

/-! ### Reading -/

/-- Why a text is no instant. -/
inductive Fault where
  /-- The text ends where more has to follow. -/
  | tooShort
  /-- Something stands after the instant. -/
  | tooLong
  /-- A character stands where it cannot. -/
  | invalid
  /-- A number is none of its part. -/
  | outOfRange
  /-- The instant is not one of those that can be counted. -/
  | impossible
  deriving DecidableEq

namespace Fault

def wording : Fault → Text
  | tooShort => "premature end of input".toList
  | tooLong => "trailing input".toList
  | invalid => "input contains invalid characters".toList
  | outOfRange => "input is out of range".toList
  | impossible => "no possible date and time matching input".toList

end Fault

/-- A run of digits, of which at most so many count, as a number, and what follows it. The digits
behind those that count are left to the next part. -/
def readNumber (most : Nat) (text : Text) : Except Fault (Nat × Text) :=
  match (text.take most).takeWhile Char.isDigit with
  | [] => .error (if text = [] then .tooShort else .invalid)
  | digits => .ok (digitsValue digits, text.drop digits.length)

/-- A number that is one of the given range. -/
def within (least greatest n : Int) : Except Fault Unit :=
  if least ≤ n ∧ n ≤ greatest then .ok () else .error .outOfRange

/-- A part of one or two digits, after white space. -/
def readPart (least greatest : Nat) (text : Text) : Except Fault (Nat × Text) := do
  let (n, rest) ← readNumber 2 text.trimStart
  within least greatest n
  return (n, rest)

/-- A year, of at most four digits unless it has a sign, after white space. Its bounds are those
of thirty-two bits; those of the calendar are asked for at the end. -/
def readYear (text : Text) : Except Fault (Int × Text) := do
  let (year, rest) ←
    match text.trimStart with
    | '-' :: rest => (readNumber rest.length rest).map fun (n, rest) => (-(n : Int), rest)
    | '+' :: rest => (readNumber rest.length rest).map fun (n, rest) => ((n : Int), rest)
    | rest => (readNumber 4 rest).map fun (n, rest) => ((n : Int), rest)
  within (-2147483648) 2147483647 year
  return (year, rest)

/-- What follows one of the given characters. -/
def readMark (choices : Text) : Text → Except Fault Text
  | [] => .error .tooShort
  | c :: rest => if c ∈ choices then .ok rest else .error .invalid

/-- A date, and what follows it. -/
def readDate (text : Text) : Except Fault (Date × Text) := do
  let (year, rest) ← readYear text
  let rest ← readMark ['-'] rest.trimStart
  let (month, rest) ← readPart 1 12 rest
  let rest ← readMark ['-'] rest.trimStart
  let (day, rest) ← readPart 1 31 rest
  return (⟨year, month, day⟩, rest)

/-- A fraction of a second, if there is one, in nanoseconds; digits beyond the ninth do not count.
A point without a digit behind it is an error. -/
def readFraction : Text → Except Fault (Nat × Text)
  | '.' :: rest => do
    let (value, _) ← readNumber 9 rest
    let digits := rest.takeWhile Char.isDigit
    return (value * Nat.pow 10 (9 - digits.length), rest.dropWhile Char.isDigit)
  | rest => .ok (0, rest)

/-- A time of day in seconds and nanoseconds, and what follows it and the white
space behind it.  The sixtieth second of a minute is its last one, a thousand
million nanoseconds on. -/
def readClock (text : Text) : Except Fault (Nat × Nat × Text) := do
  let (hour, rest) ← readPart 0 23 text
  let rest ← readMark [':'] rest.trimStart
  let (minute, rest) ← readPart 0 59 rest
  let rest ← readMark [':'] rest.trimStart
  let (second, rest) ← readPart 0 60 rest
  let (fraction, rest) ← readFraction rest
  let leap := second = 60
  return (hour * 3600 + minute * 60 + (if leap then 59 else second),
    fraction + (if leap then 1000000000 else 0), rest.trimStart)

/-- A number of two digits, and what follows it.  A text is too short for one
when it has less than two bytes. -/
def readPair : Text → Except Fault (Nat × Text)
  | a :: b :: rest =>
    if a.isDigit && b.isDigit then .ok (digitsValue [a, b], rest) else .error .invalid
  | text => .error (if text.byteLength < 2 then .tooShort else .invalid)

/-- The sign of an offset. -/
def readSign : Text → Except Fault (Int × Text)
  | [] => .error .tooShort
  | c :: rest =>
    if c = '+' then .ok (1, rest)
    else if c = '-' ∨ c = '−' then .ok (-1, rest)
    else .error .invalid

/-- An offset from universal time in seconds, and what follows it. The colon between the hours and
the minutes may be missing, or more than one. -/
def readOffset (text : Text) : Except Fault (Int × Text) :=
  match text with
  | 'Z' :: rest => .ok (0, rest)
  | 'z' :: rest => .ok (0, rest)
  | _ =>
    if (text.take 3).map Char.toUpper = "UTC".toList then .ok (0, text.drop 3)
    else do
      let (sign, rest) ← readSign text
      let (hours, rest) ← readPair rest
      let (minutes, rest) ← readPair (rest.dropWhile fun c => c = ':' || Text.isSpace c)
      within 0 59 minutes
      return (sign * (hours * 3600 + minutes * 60 : Nat), rest)

/-- The first and the last year whose days can be counted. -/
def firstYear : Int := -262143

def lastYear : Int := 262142

/-- The second of universal time that a day, a time of day and an offset give, if it is within the
years that count. The offset may lead beyond them from a day that is within. -/
def universal (date : Date) (clock : Nat) (offset : Int) : Except Fault Int :=
  let seconds := date.toDays * 86400 + clock - offset
  if Date.toDays ⟨firstYear, 1, 1⟩ * 86400 ≤ seconds ∧
      seconds < Date.toDays ⟨lastYear + 1, 1, 1⟩ * 86400 then
    .ok seconds
  else .error .impossible

/-- The instant that a text stands for.  White space may stand before every part
but the offset's, and the digits of a part may be fewer than are written. -/
def read (text : Text) : Except Fault Instant := do
  let (date, rest) ← readDate text
  let rest ← readMark ['T', 't', ' '] rest
  let (clock, nanoseconds, rest) ← readClock rest
  let (offset, rest) ← readOffset rest
  if rest.trimStart ≠ [] then throw .tooLong
  within firstYear lastYear date.year
  if !date.isValid then throw .outOfRange
  within (-86399) 86399 offset
  return ⟨← universal date clock offset, nanoseconds⟩

end Instant

end FieldedText
