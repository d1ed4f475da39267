import RecordApi.Time.DateTime

/-!
# Reading dates and times

The ISO 8601 forms that are read: calendar dates and week dates, each with or without hyphens, then
any one separator character and a time of day, then an offset from universal time. Parts of the time
may be left off from the right, and a fraction may have any number of digits, of which six count.
-/

namespace RecordApi.Time

/-- The value of an ASCII digit. -/
def digit? (c : Char) : Option Nat :=
  if '0' ≤ c && c ≤ '9' then some (c.toNat - 48) else none

/-- Reads exactly so many digits, adding to a number read so far. -/
def takeNumber : Nat → Nat → List Char → Option (Nat × List Char)
  | 0, n, cs => some (n, cs)
  | _ + 1, _, [] => none
  | width + 1, n, c :: cs =>
    match digit? c with
    | some d => takeNumber width (10 * n + d) cs
    | none => none

/-- The day of the week on which a year begins, counted from Monday as zero. -/
def firstWeekday (year : Nat) : Nat :=
  daysBefore year % 7

/-- Whether a year has 53 weeks. -/
def hasLongWeekYear (year : Nat) : Bool :=
  firstWeekday year = 3 || (firstWeekday year = 2 && isLeap year)

/-- The number of days from the start of the calendar to the first Monday of the first week of a
year. The first week is the one that holds the fourth of January. -/
def firstMonday (year : Nat) : Int :=
  let weekday : Int := firstWeekday year
  let start : Int := daysBefore year
  if weekday ≤ 3 then start - weekday else start - weekday + 7

/-- The month and day of a day counted from the start of a year, from a month on. -/
def monthDay (year : Nat) : Nat → Nat → Nat → Nat × Nat
  | 0, month, days => (month, days + 1)
  | more + 1, month, days =>
    if days < daysInMonth year month then (month, days + 1)
    else monthDay year more (month + 1) (days - daysInMonth year month)

/-- The date that lies so many days after the start of a year, in that year or the next. -/
def dateInYear (year : Nat) (days : Nat) : Nat × Nat × Nat :=
  if days < daysInYear year then
    (year, monthDay year 11 1 days)
  else
    (year + 1, monthDay (year + 1) 11 1 (days - daysInYear year))

/-- The date of a day of a week, the weekday counted from Monday as one. -/
def weekDate? (year week weekday : Nat) : Option (Nat × Nat × Nat) :=
  let weekFits := 1 ≤ week && (week ≤ 52 || (week = 53 && hasLongWeekYear year))
  if 1 ≤ year && weekFits && 1 ≤ weekday && weekday ≤ 7 then
    let days : Int := firstMonday year + 7 * (week - 1) + (weekday - 1) - daysBefore year
    if days < 0 then
      some (dateInYear (year - 1) (days + daysInYear (year - 1)).toNat)
    else
      some (dateInYear year days.toNat)
  else
    none

/-- Reads what follows the letter of a week date; a missing weekday is Monday. -/
def readWeek? (hyphens : Bool) (year : Nat) (cs : List Char) : Option (Nat × Nat × Nat) := do
  let (week, rest) ← takeNumber 2 0 cs
  match hyphens, rest with
  | _, [] => weekDate? year week 1
  | true, '-' :: tail =>
    let (weekday, _) ← takeNumber 1 0 tail
    weekDate? year week weekday
  | true, _ => none
  | false, tail =>
    let (weekday, _) ← takeNumber 1 0 tail
    weekDate? year week weekday

/-- Reads a date that takes up the whole text. -/
def readDate? (cs : List Char) : Option (Nat × Nat × Nat) := do
  let (year, rest) ← takeNumber 4 0 cs
  let hyphens := rest.head? == some '-'
  let rest := if hyphens then rest.drop 1 else rest
  match rest with
  | 'W' :: tail => readWeek? hyphens year tail
  | _ =>
    let (month, rest) ← takeNumber 2 0 rest
    let rest ← if hyphens then
        match rest with
        | '-' :: tail => some tail
        | _ => none
      else some rest
    let (day, rest) ← takeNumber 2 0 rest
    if rest.isEmpty then some (year, month, day) else none

/-- How many characters the date takes up, judged by the hyphens and the week letter. -/
def dateWidth? (cs : List Char) : Option Nat :=
  let isDigitAt := fun i => (cs[i]?.bind digit?).isSome
  if cs.length = 7 then some 7
  else if cs[4]? == some '-' then
    if cs[5]? == some 'W' then
      if cs[8]? == some '-' then
        if cs.length = 9 then none
        else if isDigitAt 10 then some 8
        else some 10
      else some 8
    else some 10
  else if cs[4]? == some 'W' then
    let stop := 7 + ((cs.drop 7).takeWhile fun c => (digit? c).isSome).length
    if stop < 9 then some stop
    else if stop % 2 = 0 then some 7
    else some 8
  else some 8

/-- The fraction written by digits, in microseconds, and the text after them; digits after the sixth
are dropped. -/
def readFraction? (cs : List Char) : Option (Nat × List Char) := do
  let width := min 6 cs.length
  let (n, rest) ← takeNumber width 0 cs
  some (n * Nat.pow 10 (6 - width), rest.dropWhile fun c => (digit? c).isSome)

/-- A time of day, or the size of an offset, as read from a text: its parts from the hour on, its
fraction in microseconds, and whether one more character or more was left over. -/
structure Clock where
  parts : List Nat
  micro : Nat
  leftOver : Bool

/-- The clock with one more part in front. -/
def Clock.cons (n : Nat) (clock : Clock) : Clock :=
  { clock with parts := n :: clock.parts }

/-- Reads the fraction with which a clock ends. -/
def readTail? (cs : List Char) : Option Clock := do
  let (micro, rest) ← readFraction? cs
  some ⟨[], micro, !rest.isEmpty⟩

/-- Reads so many more parts of a clock. The character after the first part decides whether parts
are separated by colons. A single ASCII character after a part is left over. -/
def readParts? : Nat → Option Bool → List Char → Option Clock
  | 0, _, cs => readTail? cs
  | missing + 1, colons, cs =>
    match takeNumber 2 0 cs with
    | none => none
    | some (n, []) => some ⟨[n], 0, false⟩
    | some (n, [c]) => if c.toNat < 128 then some ⟨[n], 0, true⟩ else none
    | some (n, c :: tail) =>
      let colons := colons.getD (c == ':')
      let rest? :=
        if colons && c == ':' then readParts? missing (some colons) tail
        else if c == '.' || c == ',' then readTail? tail
        else if !colons then readParts? missing (some colons) (c :: tail)
        else none
      rest?.map (Clock.cons n)

/-- Reads a clock of up to three parts. -/
def readClock? (cs : List Char) : Option Clock :=
  readParts? 3 none cs

/-- Reads an offset behind its sign. Nothing may be left over. -/
def readOffset? (negative : Bool) (cs : List Char) : Option Int := do
  let clock ← readClock? cs
  let seconds := clock.parts.getD 0 0 * 3600 + clock.parts.getD 1 0 * 60 + clock.parts.getD 2 0
  let size : Int := if seconds = 0 then 0 else seconds * 1000000 + clock.micro
  if clock.leftOver then none else some (if negative then -size else size)

/-- A clock with the offset behind it. Text left over after a clock is refused unless an offset
follows. -/
def readTime? (cs : List Char) : Option (Clock × Option Int) := do
  let isSign := fun c : Char => c == '+' || c == '-'
  let clock ← readClock? (cs.takeWhile fun c => !isSign c)
  match cs.dropWhile fun c => !isSign c with
  | [] => if clock.leftOver then none else some (clock, none)
  | sign :: tail => do
    let offset ← readOffset? (sign == '-') tail
    some (clock, some offset)

/-- The date and time of the parts, if every part is within its range. -/
def assemble? (date : Nat × Nat × Nat) (clock : Clock) (offset : Option Int) : Option DateTime :=
  let t : DateTime :=
    { year := date.1, month := date.2.1, day := date.2.2
      hour := clock.parts.getD 0 0, minute := clock.parts.getD 1 0
      second := clock.parts.getD 2 0, micro := clock.micro, offset := offset }
  if t.isValid then some t else none

/-- Reads a date and time. A date alone is midnight. -/
def readIso? (cs : List Char) : Option DateTime := do
  if cs.length < 7 then none
  let width ← dateWidth? cs
  let date ← readDate? (cs.take width)
  match cs.drop width with
  | [] => assemble? date ⟨[], 0, false⟩ none
  | _ :: time => do
    let (clock, offset) ← readTime? time
    assemble? date clock offset

/-- The text with each letter that stands for universal time spelled out as an offset. -/
def spellUniversal (cs : List Char) : List Char :=
  cs.flatMap fun c => if c == 'Z' then "+00:00".toList else [c]

/-- Reads a date and time in which the letter `Z` may stand for universal time. -/
def readDateTime? (s : String) : Option DateTime :=
  readIso? (spellUniversal s.toList)

end RecordApi.Time
