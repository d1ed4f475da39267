import RecordApi.Table.Model
import RecordApi.Table.Pattern
import RecordApi.Text.Case

/-!
# Conditions

An operator makes a condition of a column and a value, and a condition selects rows. A cell that
holds nothing satisfies no condition on its value. The operators by which a list can be filtered are
kept under names, and more can be registered.
-/

namespace RecordApi.Table

/-- How two values are compared. -/
inductive Comparison where
  | less
  | atMost
  | equal
  | different
  | atLeast
  | greater
deriving DecidableEq, Repr, Inhabited

namespace Comparison

/-- Whether values in the given order compare so. -/
def holds : Comparison → Ordering → Bool
  | less, o => o == .lt
  | atMost, o => o != .gt
  | equal, o => o == .eq
  | different, o => o != .eq
  | atLeast, o => o != .lt
  | greater, o => o == .gt

end Comparison

/-- A condition on a row. A likeness holds if the text of a cell is the text of a value between any
texts, or in front of any text. -/
inductive Condition where
  | always
  | missing (column : Column)
  | present (column : Column)
  | compared (column : Column) (how : Comparison) (value : Datum)
  | alike (column : Column) (anchored : Bool) (value : Datum)
deriving Inhabited

namespace Condition

/-- The part of a text in front of its first null character. Patterns and the texts that they are
held against end there. -/
def beforeNull (cs : List Char) : List Char :=
  cs.takeWhile (· != '\x00')

/-- The pattern for the text of a value. -/
def pattern (anchored : Bool) (s : String) : List Char :=
  (if anchored then [] else ['%']) ++ s.toList ++ ['%']

/-- The test of rows that a condition stands for, once its value has become a cell. -/
def test : Condition → Except Failure (Row → Bool)
  | always => .ok fun _ => true
  | missing column => .ok fun row => (cellAt row column.name).isNull
  | present column => .ok fun row => !(cellAt row column.name).isNull
  | compared column how value => do
    let cell := column.type.affinity.compared (← column.type.operand value)
    return fun row =>
      let own := cellAt row column.name
      !own.isNull && !cell.isNull && how.holds (own.compare cell)
  | alike column anchored value => do
    let cell ← column.type.operand value
    return fun row =>
      match (cellAt row column.name).text?, cell.text? with
      | some own, some s => Pattern.fits (beforeNull (pattern anchored s)) (beforeNull own.toList)
      | _, _ => false

end Condition

/-- Makes a condition of a column and a value. -/
abbrev Operator := Column → Datum → Except Failure Condition

namespace Operator

/-- The operator of a comparison. The missing value can only be told apart from others, and so can
truth values. -/
def compare (how : Comparison) : Operator := fun column value =>
  match how, value with
  | .equal, .null => .ok (.missing column)
  | .different, .null => .ok (.present column)
  | _, .null => .error .incomparable
  | .equal, .bool b | .different, .bool b => .ok (.compared column how (.int (if b then 1 else 0)))
  | _, .bool _ => .error .incomparable
  | how, value => .ok (.compared column how value)

/-- The operator of a likeness. -/
def like (anchored : Bool) : Operator := fun column value =>
  match value with
  | .null | .bool _ => .error .incomparable
  | value => .ok (.alike column anchored value)

/-- The operator by which a text holds another. -/
def contains : Operator :=
  like false

/-- The operator by which a text starts with another. -/
def startsWith : Operator :=
  like true

/-- The operator that any row satisfies. -/
def always : Operator := fun _ _ =>
  .ok .always

end Operator

/-- Operators under names. -/
abbrev OperatorTable := List (String × Operator)

/-- The operators that are there from the start. -/
def standardOperators : OperatorTable :=
  [ ("LT", Operator.compare .less), ("LTE", Operator.compare .atMost),
    ("EQ", Operator.compare .equal), ("GTE", Operator.compare .atLeast),
    ("GT", Operator.compare .greater), ("CONTAINS", Operator.contains) ]

/-- Whether a value counts as a yes. -/
def isTrue : Datum → Bool
  | .null => false
  | .bool b => b
  | .int n => n != 0
  | .real x => !x.isZero
  | .text s => !s.isEmpty
  | .list items => !items.isEmpty
  | .record entries => !entries.isEmpty
  | .dateTime _ => true
  | .decimal digits => digits.any fun c => '1' ≤ c && c ≤ '9'

/-- The entry of a filter or an order under a name. -/
def specEntry (spec : Datum) (name : String) : Except Failure Datum :=
  match spec with
  | .record entries =>
    match Entries.get? entries name with
    | some value => .ok value
    | none => .error (.noKey name)
  | _ => .error .unusableSpec

/-- The column that a filter or an order names. -/
def specColumn (model : Model) (spec : Datum) : Except Failure Column := do
  match ← specEntry spec "field" with
  | .text field => model.columnOf field
  | _ => throw .unusableSpec

/-- The items of a list of filters or orders, which may be missing. -/
def specItems (specs : Datum) : Except Failure (List Datum) :=
  if isTrue specs then
    match specs with
    | .list items => .ok items
    | _ => .error .unusableSpec
  else
    .ok []

/-- The condition of a filter. Operators are looked up in capitals. -/
def filterCondition (operators : OperatorTable) (model : Model) (spec : Datum) :
    Except Failure Condition := do
  let column ← specColumn model spec
  let given ← specEntry spec "op"
  let name := String.ofList (Text.upper given.plainText.toList)
  match operators.lookup name with
  | none => throw (.unknownOperation name)
  | some operator => operator column (coerce (some column.type) (← specEntry spec "value"))

/-- An order of rows by one column. -/
structure SortKey where
  column : Column
  descending : Bool
deriving DecidableEq, Repr, Inhabited

namespace SortKey

/-- The order of two rows by a column. -/
def compare (key : SortKey) (a b : Row) : Ordering :=
  let order := (cellAt a key.column.name).compare (cellAt b key.column.name)
  if key.descending then order.swap else order

/-- The order of two rows by several columns, of which the first that tells them apart counts. -/
def compareBy (keys : List SortKey) (a b : Row) : Ordering :=
  keys.foldr (fun key rest => (key.compare a b).then rest) .eq

@[simp] theorem compareBy_nil (a b : Row) : compareBy [] a b = .eq := rfl

@[simp] theorem compareBy_cons (key : SortKey) (keys : List SortKey) (a b : Row) :
    compareBy (key :: keys) a b = (key.compare a b).then (compareBy keys a b) := rfl

end SortKey

/-- The sort key of an order. -/
def sortKey (model : Model) (spec : Datum) : Except Failure SortKey := do
  let column ← specColumn model spec
  match spec with
  | .record entries => return ⟨column, isTrue (Entries.get entries "desc")⟩
  | _ => throw .unusableSpec

end RecordApi.Table
