import RecordApi.Number.Double

/-!
# Decimal texts of doubles

Three decimal forms of a double: the shortest digits that read back as the same double, a given
count of significant digits, and a given count of places after the point.
-/

namespace RecordApi.Number

/-- The value `0.d₁d₂…dₙ * 10 ^ point` of a nonempty list of decimal digits, of which the first is
not zero unless the value is zero. -/
structure DecimalDigits where
  digits : List Char
  point : Int
deriving DecidableEq, Repr

namespace Decimal

/-- The decimal digits of a number. -/
def digitsOf (n : Nat) : List Char :=
  Nat.toDigits 10 n

/-- The digits without zeros at the end. -/
def dropTrailingZeros (digits : List Char) : List Char :=
  (digits.reverse.dropWhile (· == '0')).reverse

/-- The least `p` at or above a start with `num / den < 10 ^ p`, looked for in so many steps. -/
def pointFrom (num den : Nat) : Nat → Int → Int
  | 0, p => p
  | steps + 1, p =>
    let small :=
      if 0 ≤ p then num < den * Nat.pow 10 p.toNat else num * Nat.pow 10 (-p).toNat < den
    if small then p else pointFrom num den steps (p + 1)

/-- The place of the decimal point before the first digit of a positive fraction. -/
def pointOf (num den : Nat) : Int :=
  let estimate : Int := ((num.log2 : Int) - (den.log2 : Int) - 1) * 30103 / 100000
  pointFrom num den 4 (estimate - 1)

/-- A fraction in units of `10 ^ exponent`, as a fraction. -/
def scaled (num den : Nat) (exponent : Int) : Nat × Nat :=
  if 0 ≤ exponent then (num, den * Nat.pow 10 exponent.toNat)
  else (num * Nat.pow 10 (-exponent).toNat, den)

/-- The digits of a whole number of units of `10 ^ exponent`. -/
def digitsAt (count : Nat) (exponent : Int) : DecimalDigits :=
  let digits := digitsOf count
  ⟨dropTrailingZeros digits, exponent + digits.length⟩

/-- A fraction rounded to so many significant digits, a tie to the even digit. -/
def significant (num den : Nat) (places : Nat) : DecimalDigits :=
  let exponent := pointOf num den - places
  let (n, d) := scaled num den exponent
  digitsAt (Double.roundDiv n d) exponent

/-- The interval of fractions of one denominator whose nearest double is the given one; the ends
belong to it when the double is even. -/
structure Interval where
  low : Nat
  value : Nat
  high : Nat
  den : Nat
  closed : Bool

/-- The interval that rounds to a positive count of units. -/
def intervalOf (units : Nat) : Interval :=
  let step := Nat.pow 2 (Double.spacing units)
  let mantissa := units / step
  let below := if mantissa = Nat.pow 2 52 && 1 < step then step else 2 * step
  { low := 4 * units - below
    value := 4 * units
    high := 4 * units + 2 * step
    den := 4 * Double.unitsPerOne
    closed := mantissa % 2 = 0 }

/-- Whether a count of units of `10 ^ exponent` lies in the interval. -/
def Interval.holds (i : Interval) (count : Nat) (exponent : Int) : Bool :=
  let (num, den) :=
    if 0 ≤ exponent then (count * Nat.pow 10 exponent.toNat * i.den, 1)
    else (count * i.den, Nat.pow 10 (-exponent).toNat)
  if i.closed then i.low * den ≤ num && num ≤ i.high * den
  else i.low * den < num && num < i.high * den

/-- The first count of digits, from the given one up, at which a neighbour of the value on the
decimal grid lies in the interval; of two neighbours the nearer one, of a tie the even one. -/
def shortestFrom (i : Interval) (point : Int) : Nat → Nat → DecimalDigits
  | 0, count => significant i.value i.den count
  | steps + 1, count =>
    let exponent := point - count
    let (num, den) := scaled i.value i.den exponent
    let near := Double.roundDiv num den
    let other := if near * den ≤ num then near + 1 else near - 1
    if i.holds near exponent then digitsAt near exponent
    else if i.holds other exponent then digitsAt other exponent
    else shortestFrom i point steps (count + 1)

/-- The fewest digits that read back as the double of that many units. -/
def shortest (units : Nat) : DecimalDigits :=
  if units = 0 then ⟨['0'], 1⟩
  else
    let i := intervalOf units
    shortestFrom i (pointOf i.value i.den) 17 1

/-- How a text of a number is laid out: positional notation is used for exponents from `leastPlain`
up to `mostPlain`, and otherwise one digit stands before the point. -/
structure Layout where
  leastPlain : Int
  mostPlain : Int
  pointInExponential : Bool

/-- Digits in positional notation, always with a point. -/
def plainText (d : DecimalDigits) : List Char :=
  let count : Int := d.digits.length
  if d.point ≤ 0 then
    '0' :: '.' :: (List.replicate (-d.point).toNat '0' ++ d.digits)
  else if count ≤ d.point then
    d.digits ++ List.replicate (d.point - count).toNat '0' ++ ['.', '0']
  else
    d.digits.take d.point.toNat ++ '.' :: d.digits.drop d.point.toNat

/-- Digits with an exponent of at least two digits. -/
def exponentialText (pointed : Bool) (d : DecimalDigits) : List Char :=
  let exponent := d.point - 1
  let size := digitsOf exponent.natAbs
  let head := match d.digits with
    | [] => []
    | [c] => if pointed then [c, '.', '0'] else [c]
    | c :: cs => c :: '.' :: cs
  head ++ 'e' :: (if exponent < 0 then '-' else '+') ::
    (if size.length < 2 then '0' :: size else size)

/-- The text of digits in a layout. -/
def Layout.text (layout : Layout) (d : DecimalDigits) : List Char :=
  if layout.leastPlain ≤ d.point - 1 && d.point - 1 ≤ layout.mostPlain then
    plainText d
  else
    exponentialText layout.pointInExponential d

/-- Shortest texts are positional from `1e-4` up to below `1e16`. -/
def shortestLayout : Layout :=
  ⟨-4, 15, false⟩

/-- The texts of stored numbers are positional from `1e-4` up to below `1e15`. -/
def storedLayout : Layout :=
  ⟨-4, 14, true⟩

/-- A minus sign in front of negative numbers. -/
def withSign (negative : Bool) (cs : List Char) : String :=
  String.ofList (if negative then '-' :: cs else cs)

/-- A fraction with a fixed count of places after the point, a tie to the even digit. -/
def fixedText (num den : Nat) (places : Nat) : List Char :=
  let count := Double.roundDiv (num * Nat.pow 10 places) den
  let digits := digitsOf count
  let padded := List.replicate (places + 1 - digits.length) '0' ++ digits
  if places = 0 then padded
  else padded.take (padded.length - places) ++ '.' :: padded.drop (padded.length - places)

end Decimal

namespace Double

/-- The shortest text that reads back as the double. -/
def text : Double → String
  | nan => "nan"
  | infinite negative => if negative then "-inf" else "inf"
  | finite negative units =>
    Decimal.withSign negative (Decimal.shortestLayout.text (Decimal.shortest units))

/-- The text of a stored double, in fifteen significant digits. -/
def storedText : Double → String
  | nan => ""
  | infinite negative => if negative then "-Inf" else "Inf"
  | finite negative units =>
    if units = 0 then "0.0"
    else
      Decimal.withSign negative
        (Decimal.storedLayout.text (Decimal.significant units unitsPerOne 15))

/-- The text of a double with a fixed count of places after the point. -/
def fixed (places : Nat) : Double → String
  | nan => "NaN"
  | infinite negative => if negative then "-Infinity" else "Infinity"
  | finite negative units => Decimal.withSign negative (Decimal.fixedText units unitsPerOne places)

end Double

end RecordApi.Number
