import RecordApi.Data.Datum
import RecordApi.Number.Reading
import RecordApi.Text.Case
import RecordApi.Time.Reading

/-!
# Coercion of filter values

Filter values are sent as text. A text that reads as a value of the column's type becomes that
value; any other is left as it is.
-/

namespace RecordApi.Table

/-- The types of columns. -/
inductive ColumnType where
  | integer
  | bigInteger
  | float
  | numeric (places : Nat)
  | string
  | text
  | boolean
  | dateTime (zoned : Bool)
deriving DecidableEq, Repr, Inhabited

namespace ColumnType

/-- Whether the values are integers. -/
def isInteger : ColumnType → Bool
  | integer | bigInteger => true
  | _ => false

end ColumnType

/-- The words for true. -/
def trueWords : List String :=
  ["true", "t", "1", "yes", "y"]

/-- The words for false. -/
def falseWords : List String :=
  ["false", "f", "0", "no", "n"]

/-- The truth value written by a text. -/
def readBool? (cs : List Char) : Option Bool :=
  let word := String.ofList (Text.lower (Text.trimSpace cs))
  if trueWords.contains word then some true
  else if falseWords.contains word then some false
  else none

/-- The value of a type that a text is read as. A date and time for a column without time zone
loses its offset. -/
def ColumnType.read? (type : ColumnType) (s : String) : Option Datum :=
  match type with
  | integer | bigInteger => (Number.readInt? s.toList).map .int
  | float | numeric _ => (Number.readDouble? s.toList).map .real
  | boolean => (readBool? s.toList).map .bool
  | dateTime zoned =>
    (Time.readDateTime? s).map fun t => .dateTime (if zoned then t else t.dropOffset)
  | string | text => none

/-- The value to compare with a column of the given type, if it has one. -/
def coerce (type : Option ColumnType) (value : Datum) : Datum :=
  match type, value with
  | some type, .text s => (type.read? s).getD (.text s)
  | _, value => value

end RecordApi.Table
