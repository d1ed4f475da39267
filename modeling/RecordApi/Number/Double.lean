/-!
# Double precision numbers

A finite double is a whole multiple of the least positive one, so its size is a natural number of
such units and all comparisons are exact. Rounding is to the nearest double, ties to the even one.
-/

namespace RecordApi.Number

/-- A double precision number. The size of a finite one is counted in units of `2 ^ (-1074)`. -/
inductive Double where
  | nan
  | infinite (negative : Bool)
  | finite (negative : Bool) (units : Nat)
deriving DecidableEq, Repr, Inhabited

namespace Double

/-- How many units make one. -/
def unitsPerOne : Nat :=
  Nat.pow 2 1074

/-- The least number of units that is too large for a finite double. -/
def overflow : Nat :=
  Nat.pow 2 1024 * unitsPerOne

/-- The distance, as a power of two, between neighbours at a size of that many units. -/
def spacing (units : Nat) : Nat :=
  units.log2 - 52

/-- The quotient rounded to the nearest whole number, a tie to the even one. -/
def roundDiv (num den : Nat) : Nat :=
  let quotient := num / den
  let rest := num % den
  if 2 * rest < den then quotient
  else if den < 2 * rest then quotient + 1
  else if quotient % 2 = 0 then quotient else quotient + 1

/-- The double nearest to the fraction of the given sign. -/
def ofFraction (negative : Bool) (num den : Nat) : Double :=
  let exact := num * unitsPerOne
  let step := Nat.pow 2 (spacing (exact / den))
  let units := roundDiv exact (den * step) * step
  if overflow ≤ units then .infinite negative else .finite negative units

/-- The double nearest to `digits * 10 ^ exponent`. Exponents far beyond the range of doubles are
decided by the count of digits, so no huge power is formed. -/
def ofDecimal (negative : Bool) (digits : Nat) (exponent : Int) : Double :=
  let magnitude : Int := (Nat.toDigits 10 digits).length + exponent
  if digits = 0 then .finite negative 0
  else if 400 < magnitude then .infinite negative
  else if magnitude < -400 then .finite negative 0
  else if 0 ≤ exponent then ofFraction negative (digits * Nat.pow 10 exponent.toNat) 1
  else ofFraction negative digits (Nat.pow 10 (-exponent).toNat)

/-- The double nearest to an integer. -/
def ofInt (n : Int) : Double :=
  ofFraction (n < 0) n.natAbs 1

/-- The signed count of units of a finite double. -/
def signedUnits (negative : Bool) (units : Nat) : Int :=
  if negative then -(units : Int) else units

/-- The place of a double on the line, with the infinities beyond all finite ones. -/
inductive Place where
  | below
  | at (units : Int)
  | above
deriving DecidableEq

/-- The place of a double, absent for the one that is no number. -/
def place? : Double → Option Place
  | nan => none
  | infinite true => some .below
  | infinite false => some .above
  | finite negative units => some (.at (signedUnits negative units))

/-- The place of an integer. -/
def placeOfInt (n : Int) : Place :=
  .at (n * unitsPerOne)

/-- The order of two places. -/
def Place.compare : Place → Place → Ordering
  | .below, .below => .eq
  | .below, _ => .lt
  | .at _, .below => .gt
  | .at a, .at b => Ord.compare a b
  | .at _, .above => .lt
  | .above, .above => .eq
  | .above, _ => .gt

/-- The integer that a double is equal to. -/
def toInt? : Double → Option Int
  | finite negative units =>
    if units % unitsPerOne = 0 then some (signedUnits negative (units / unitsPerOne)) else none
  | _ => none

/-- Whether a double is neither zero nor unordered. -/
def isZero : Double → Bool
  | finite _ units => units == 0
  | _ => false

end Double

end RecordApi.Number
