/-!
# Dates and times

A calendar date with a time of day, and an offset from universal time when one is known. The written
form has a fixed width for each part; a fraction of a second is written only when there is one.
-/

namespace RecordApi.Time

/-- A date of the proleptic Gregorian calendar with a time of day. The offset from universal time
is counted in microseconds. -/
structure DateTime where
  year : Nat
  month : Nat
  day : Nat
  hour : Nat
  minute : Nat
  second : Nat
  micro : Nat
  offset : Option Int
deriving DecidableEq, Repr, Inhabited

/-- Whether a year has a leap day. -/
def isLeap (year : Nat) : Bool :=
  year % 4 = 0 && (year % 100 != 0 || year % 400 = 0)

/-- The number of days in a month. -/
def daysInMonth (year month : Nat) : Nat :=
  if month = 2 then (if isLeap year then 29 else 28)
  else if month = 4 || month = 6 || month = 9 || month = 11 then 30
  else 31

/-- The number of days in a year. -/
def daysInYear (year : Nat) : Nat :=
  if isLeap year then 366 else 365

/-- The number of days before the first of January of a year. -/
def daysBefore (year : Nat) : Nat :=
  let past := year - 1
  past * 365 + past / 4 - past / 100 + past / 400

/-- The number of microseconds in a day. -/
def dayMicros : Int :=
  86400000000

namespace DateTime

/-- Whether every part is within its range. -/
def isValid (t : DateTime) : Bool :=
  1 ≤ t.year && t.year ≤ 9999 && 1 ≤ t.month && t.month ≤ 12 &&
    1 ≤ t.day && t.day ≤ daysInMonth t.year t.month &&
    t.hour < 24 && t.minute < 60 && t.second < 60 && t.micro < 1000000 &&
    t.offset.all fun o => -dayMicros < o && o < dayMicros

/-- The same date and time without an offset. -/
def dropOffset (t : DateTime) : DateTime :=
  { t with offset := none }

end DateTime

/-- A number in at least so many digits. -/
def padded (width n : Nat) : String :=
  let digits := Nat.toDigits 10 n
  String.ofList (List.replicate (width - digits.length) '0' ++ digits)

/-- A fraction of a second, empty when zero. -/
def fractionText (micro : Nat) : String :=
  if micro = 0 then "" else "." ++ padded 6 micro

/-- An offset as sign, hours and minutes, with seconds and their fraction only when not zero. -/
def offsetText (offset : Int) : String :=
  let size := offset.natAbs
  let seconds := size / 1000000
  let tail :=
    if seconds % 60 = 0 && size % 1000000 = 0 then ""
    else ":" ++ padded 2 (seconds % 60) ++ fractionText (size % 1000000)
  (if offset < 0 then "-" else "+") ++ padded 2 (seconds / 3600) ++ ":" ++
    padded 2 (seconds / 60 % 60) ++ tail

namespace DateTime

/-- The date alone. -/
def dateText (t : DateTime) : String :=
  padded 4 t.year ++ "-" ++ padded 2 t.month ++ "-" ++ padded 2 t.day

/-- The time of day to the second. -/
def clockText (t : DateTime) : String :=
  padded 2 t.hour ++ ":" ++ padded 2 t.minute ++ ":" ++ padded 2 t.second

/-- Date and time with a separator between them, and the offset when there is one. -/
def textWith (separator : String) (t : DateTime) : String :=
  t.dateText ++ separator ++ t.clockText ++ fractionText t.micro ++
    (t.offset.map offsetText).getD ""

/-- The ISO 8601 text. -/
def isoText : DateTime → String :=
  textWith "T"

/-- The text under which a date and time is stored; it sorts as time does. -/
def storedText (t : DateTime) : String :=
  t.dateText ++ " " ++ t.clockText ++ "." ++ padded 6 t.micro

end DateTime

end RecordApi.Time
