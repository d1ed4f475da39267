import RecordApi.Number.Double

/-!
# Plain numerals

A plain numeral has ASCII digits, perhaps with a point among them and an exponent behind them, a
sign in front, and white space at either end. One without point and exponent is whole.
-/

namespace RecordApi.Number

/-- The number `digits * 10 ^ exponent` as it is written. -/
structure Numeral where
  negative : Bool
  digits : Nat
  exponent : Int
  whole : Bool
deriving DecidableEq, Repr

namespace Numeral

/-- The ASCII white space. -/
def isBlank (c : Char) : Bool :=
  c == ' ' || (9 ≤ c.toNat && c.toNat ≤ 13)

/-- The text without white space at its ends. -/
def trim (cs : List Char) : List Char :=
  ((cs.dropWhile isBlank).reverse.dropWhile isBlank).reverse

/-- The number that ASCII digits write. -/
def natOf (digits : List Char) : Nat :=
  digits.foldl (fun n c => 10 * n + (c.toNat - 48)) 0

/-- A sign at the head of a text, and the rest. -/
def takeSign : List Char → Bool × List Char
  | '-' :: cs => (true, cs)
  | '+' :: cs => (false, cs)
  | cs => (false, cs)

/-- The digits at the head of a text, and the rest. -/
def takeDigits (cs : List Char) : List Char × List Char :=
  (cs.takeWhile Char.isDigit, cs.dropWhile Char.isDigit)

/-- A fraction at the head of a text, absent when there is no point, and the rest. -/
def takeFraction : List Char → Option (List Char) × List Char
  | '.' :: cs =>
    let (digits, rest) := takeDigits cs
    (some digits, rest)
  | cs => (none, cs)

/-- The exponent that the whole text writes, absent when the text is empty. -/
def readExponent? : List Char → Option (Option Int)
  | [] => some none
  | c :: cs =>
    if c == 'e' || c == 'E' then
      let (negative, body) := takeSign cs
      match takeDigits body with
      | ([], _) => none
      | (digits, []) => some (some (if negative then -(natOf digits : Int) else natOf digits))
      | _ => none
    else
      none

/-- The numeral that a text is. -/
def read? (cs : List Char) : Option Numeral :=
  let (negative, body) := takeSign (trim cs)
  let (before, afterWhole) := takeDigits body
  let (fraction, afterFraction) := takeFraction afterWhole
  let behind := fraction.getD []
  match readExponent? afterFraction with
  | none => none
  | some exponent =>
    if before.isEmpty && behind.isEmpty then none
    else
      some
        { negative := negative
          digits := natOf (before ++ behind)
          exponent := exponent.getD 0 - behind.length
          whole := fraction.isNone && exponent.isNone }

/-- The integer that a numeral without exponent writes. -/
def toInt (n : Numeral) : Int :=
  if n.negative then -(n.digits : Int) else n.digits

/-- The double nearest to the number. -/
def toDouble (n : Numeral) : Double :=
  Double.ofDecimal n.negative n.digits n.exponent

end Numeral

end RecordApi.Number
