import RecordApi.Naming
import RecordApi.Table.Conversion

/-!
# Models

A model describes the rows of a table: its columns and the one that is the key. Rows are shown as
records, in which a value stands under the name of its column and, where that name is in snake case,
under its camel case form as well.
-/

namespace RecordApi.Table

/-- A column; one that is required holds something in every row. -/
structure Column where
  name : String
  type : ColumnType
  required : Bool := false
deriving DecidableEq, Repr, Inhabited

/-- The cells of a row under the names of their columns. -/
abbrev Row := List (String × Cell)

/-- The cell of a row under a name. -/
def cellAt (row : Row) (name : String) : Cell :=
  (row.lookup name).getD .null

/-- A row with cells in the place of those it has under their names. -/
def overlaid (changes row : Row) : Row :=
  changes ++ row.filter fun (name, _) => (changes.lookup name).isNone

/-- A table with a key. -/
structure Model where
  name : String
  columns : List Column
  key : Column
deriving DecidableEq, Repr, Inhabited

namespace Model

variable (model : Model)

/-- The column of a name. -/
def column? (name : String) : Option Column :=
  model.columns.find? (·.name == name)

/-- The column that a field is: the one of its name, or of the name's snake case form. -/
def columnOf (field : String) : Except Failure Column :=
  match model.column? field with
  | some column => .ok column
  | none =>
    match model.column? (Naming.camelToSnake field) with
    | some column => .ok column
    | none => .error (.unknownField field model.name)

/-- The data with each value under the name of its column. -/
def values (data : Datum.Entries) : Except Failure Datum.Entries :=
  data.foldlM (fun done (field, value) => do
    let column ← model.columnOf field
    return Entries.set column.name value done) []

/-- The record of a row. -/
def record (row : Row) : Datum.Entries :=
  model.columns.foldl (fun done column =>
    let value := column.type.value (cellAt row column.name)
    Entries.set (Naming.snakeToCamel column.name false) value (Entries.set column.name value done))
    []

/-- The cells of values under the names of columns, each of the kind that its column prefers. All
values are brought into the form of their columns before the first becomes a cell. -/
def cells (values : Datum.Entries) : Except Failure Row := do
  let forms ← values.mapM fun (name, value) =>
    match model.column? name with
    | some column => do return (column, ← column.type.form value)
    | none => throw (.unknownField name model.name)
  forms.mapM fun (column, form) => do
    return (column.name, column.type.affinity.stored (← Cell.ofDatum form))

/-- Whether rows without a key are numbered. -/
def numbersRows : Bool :=
  model.key.type == .integer

/-- The key of a row. -/
def keyOf (row : Row) : Cell :=
  cellAt row model.key.name

/-- Whether a row has a key of the right kind and everything that is required. -/
def complete (row : Row) : Bool :=
  let keyed :=
    match model.keyOf row with
    | .null => false
    | .integer _ => true
    | _ => !model.numbersRows
  keyed && model.columns.all fun column => !(column.required && (cellAt row column.name).isNull)

/-- Whether every row is complete and no two have the same key. -/
def accepts : List Row → Bool
  | [] => true
  | row :: rows =>
    model.complete row &&
      rows.all (fun other => (model.keyOf other).compare (model.keyOf row) != .eq) && accepts rows

/-- The rows, unless the model does not accept them. -/
def accepted (rows : List Row) : Except Failure (List Row) :=
  if model.accepts rows then .ok rows else .error .constraint

/-- The number after the greatest key, one if there is none. -/
def nextKey (rows : List Row) : Int :=
  let keys := rows.filterMap fun row =>
    match model.keyOf row with
    | .integer n => some n
    | _ => none
  match keys with
  | [] => 1
  | n :: more => more.foldl max n + 1

/-- A row that has been given the next key if it has none and rows are numbered. -/
def withKey (rows : List Row) (row : Row) : Row :=
  if model.numbersRows && (model.keyOf row).isNull then
    (model.key.name, .integer (model.nextKey rows)) :: row.filter (·.1 != model.key.name)
  else
    row

/-- The rows in the order in which a table is read: numbered rows by their numbers, others as they
were added. -/
def inOrder (rows : List Row) : List Row :=
  if model.numbersRows then
    rows.mergeSort fun a b => (model.keyOf a).compare (model.keyOf b) != .gt
  else
    rows

end Model

end RecordApi.Table
