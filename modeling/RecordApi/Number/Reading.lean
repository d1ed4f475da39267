import RecordApi.Number.Decimal
import RecordApi.Text.CharClass

/-!
# Reading numbers

Numbers are read from text with white space at either end, a sign, digits of any script, and single
underscores between digits.
-/

namespace RecordApi.Number

/-- The white space allowed around a number; the separators among the control characters are not. -/
def isNumberSpace (c : Char) : Bool :=
  Text.isSpace c && !(0x1C ≤ c.toNat && c.toNat ≤ 0x1F)

/-- The text without the white space that is allowed around a number. -/
def trimNumber (cs : List Char) : List Char :=
  ((cs.dropWhile isNumberSpace).reverse.dropWhile isNumberSpace).reverse

/-- The sign at the head of a text and the rest. -/
def takeSign : List Char → Bool × List Char
  | '-' :: cs => (true, cs)
  | '+' :: cs => (false, cs)
  | cs => (false, cs)

/-- Digits that stand at the head of a text, with single underscores between them, and the rest.
The flag tells whether a digit has just been read. -/
def takeDigits : Bool → List Char → List Nat × List Char
  | _, [] => ([], [])
  | afterDigit, c :: cs =>
    match Text.digitValue? c with
    | some d =>
      let (ds, rest) := takeDigits true cs
      (d :: ds, rest)
    | none =>
      if afterDigit && c == '_' && ((cs.head?.bind Text.digitValue?).isSome) then
        takeDigits false cs
      else
        ([], c :: cs)

/-- The number written by digits, the most significant first. -/
def ofDigits (ds : List Nat) : Nat :=
  ds.foldl (fun n d => 10 * n + d) 0

/-- The most digits an integer may be written with. -/
def mostIntDigits : Nat :=
  4300

/-- The integer written by a text. -/
def readInt? (cs : List Char) : Option Int :=
  let (negative, body) := takeSign (trimNumber cs)
  match takeDigits false body with
  | ([], _) => none
  | (ds, []) =>
    if mostIntDigits < ds.length then none
    else some (if negative then -(ofDigits ds : Int) else ofDigits ds)
  | _ => none

/-- The exponent part at the head of a text, zero when there is none, and the rest. -/
def takeExponent : List Char → Option (Int × List Char)
  | c :: cs =>
    if c == 'e' || c == 'E' then
      let (negative, body) := takeSign cs
      match takeDigits false body with
      | ([], _) => none
      | (ds, rest) => some (if negative then -(ofDigits ds : Int) else ofDigits ds, rest)
    else
      some (0, c :: cs)
  | [] => some (0, [])

/-- The fraction digits at the head of a text and the rest. -/
def takeFraction : List Char → List Nat × List Char
  | '.' :: cs => takeDigits false cs
  | cs => ([], cs)

/-- The double written by an unsigned text of digits. -/
def readDecimal? (negative : Bool) (cs : List Char) : Option Double :=
  let (whole, afterWhole) := takeDigits false cs
  let (fraction, afterFraction) := takeFraction afterWhole
  if whole.isEmpty && fraction.isEmpty then none
  else
    match takeExponent afterFraction with
    | some (exponent, []) =>
      some (Double.ofDecimal negative (ofDigits (whole ++ fraction)) (exponent - fraction.length))
    | _ => none

/-- The double written by a text, which may also be a name of infinity or of no number. -/
def readDouble? (cs : List Char) : Option Double :=
  let (negative, body) := takeSign (trimNumber cs)
  let word := String.ofList (body.map Char.toLower)
  if word == "inf" || word == "infinity" then some (.infinite negative)
  else if word == "nan" then some .nan
  else readDecimal? negative body

end RecordApi.Number
