import RecordApi.Failure
import RecordApi.Table.Cell
import RecordApi.Table.Coercion

/-!
# Values and cells

A value that is written is first brought into the form of its column's type, which not every value
has, and then becomes a cell. A cell is read back as a value of the type.
-/

namespace RecordApi.Table

open Number

namespace ColumnType

/-- The kind of cell that columns of the type prefer. -/
def affinity : ColumnType → Affinity
  | string | text => .text
  | float => .real
  | integer | bigInteger | numeric _ | boolean | dateTime _ => .numeric

/-- The double that a value counts as. -/
def double? : Datum → Option Double
  | .bool b => some (Double.ofInt (if b then 1 else 0))
  | .int n =>
    match Double.ofInt n with
    | .infinite _ => none
    | x => some x
  | .real x => some x
  | .text s | .decimal s => readDouble? s.toList
  | _ => none

/-- The truth value that a value counts as. -/
def truth? : Datum → Option Bool
  | .bool b => some b
  | .int n => if n = 0 then some false else if n = 1 then some true else none
  | .real x => if x.isZero then some false else if x.toInt? = some 1 then some true else none
  | .decimal s =>
    match readDouble? s.toList with
    | some x => if x.isZero then some false else if x.toInt? = some 1 then some true else none
    | none => none
  | _ => none

/-- A value in the form of the type. Columns of texts and integers take any value. -/
def form : ColumnType → Datum → Except Failure Datum
  | _, .null => .ok .null
  | integer, value | bigInteger, value | string, value | text, value => .ok value
  | float, value | numeric _, value =>
    match double? value with
    | some x => .ok (.real x)
    | none => .error .unfitValue
  | boolean, value =>
    match truth? value with
    | some b => .ok (.bool b)
    | none => .error .unfitValue
  | dateTime _, .dateTime t => .ok (.text t.storedText)
  | dateTime _, _ => .error .unfitValue

end ColumnType

namespace Cell

/-- The cell of a value. What is no number is nothing; lists, records and decimals have no cell. -/
def ofDatum : Datum → Except Failure Cell
  | .null => .ok .null
  | .bool b => .ok (.integer (if b then 1 else 0))
  | .int n => if fitsWord n then .ok (.integer n) else .error .tooLarge
  | .real .nan => .ok .null
  | .real x => .ok (.real x)
  | .text s => .ok (.text s)
  | .dateTime t => .ok (.text (t.textWith " "))
  | .decimal _ | .list _ | .record _ => .error .noCell

end Cell

namespace ColumnType

/-- The cell of a value in the form of the type. -/
def cell (type : ColumnType) (value : Datum) : Except Failure Cell := do
  Cell.ofDatum (← type.form value)

/-- The cell of a value that is compared with a column of the type. -/
def operand (type : ColumnType) (value : Datum) : Except Failure Cell :=
  match value with
  | .decimal _ => cell float value
  | .dateTime _ => cell (dateTime false) value
  | .list _ | .record _ => type.cell value
  | value => Cell.ofDatum value

/-- The value that a cell holds in a column of the type. -/
def value (type : ColumnType) (cell : Cell) : Datum :=
  match type, cell with
  | _, .null => .null
  | numeric places, .integer n => .decimal ((Double.ofInt n).fixed places)
  | numeric places, .real x => .decimal (x.fixed places)
  | boolean, .integer n => .bool (n != 0)
  | dateTime _, .text s => ((Time.readDateTime? s).map .dateTime).getD (.text s)
  | _, .integer n => .int n
  | _, .real x => .real x
  | _, .text s => .text s

end ColumnType

end RecordApi.Table
