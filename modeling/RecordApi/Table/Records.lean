import RecordApi.Binding.Handle
import RecordApi.Context
import RecordApi.Paging.Window
import RecordApi.Table.Session

/-!
# Collections of rows

The rows of a table as a collection of records. Records are found by the key of the table; all other
operations go by the identifier column, which may be another one.
-/

namespace RecordApi.Table

namespace Model

variable (model : Model)

/-- The one value that an identifier is. It may stand alone in a list, or under the name of the key
in a record. -/
def keyValue : Datum → Except Failure Datum
  | .list [value] => .ok value
  | .list _ => .error .unusableId
  | .record entries =>
    match Entries.get? entries model.key.name with
    | some value => .ok value
    | none => .error .unusableId
  | value => .ok value

/-- Finds the row with a key. -/
def findRow (key : Datum) : Action Session (Option Row) := do
  let value ← Session.lift (model.keyValue key)
  let rows ← Session.read model
  let cell ← Session.lift (model.key.type.cell value)
  let wanted := model.key.type.affinity.compared cell
  return if wanted.isNull then none
    else rows.find? fun row => (model.keyOf row).compare wanted == .eq

/-- Adds a row of values, and answers it with its key. -/
def addRow (values : Datum.Entries) : Session.Change Row := fun rows => do
  let row := model.withKey rows (← model.cells values)
  return (← model.accepted (rows ++ [row]), row)

/-- Writes values into the rows that a test picks, and answers whether there were any. -/
def changeRows (picked : Row → Bool) (values : Datum.Entries) :
    Session.Change Bool := fun rows => do
  let changes ← model.cells values
  let changed ← model.accepted (rows.map fun row =>
    if picked row then overlaid changes row else row)
  return (changed, rows.any picked)

/-- Removes the rows that a test picks, and answers whether there were any. -/
def removeRows (picked : Row → Bool) : Session.Change Bool := fun rows =>
  .ok (rows.filter fun row => !picked row, rows.any picked)

/-- The test of rows by their identifier. -/
def idTest (idColumn : Column) (id : Datum) : Except Failure (Row → Bool) := do
  let condition ← Operator.compare .equal idColumn (coerce (some idColumn.type) id)
  condition.test

/-- Whether a row satisfies all of some tests. -/
def passesAll (tests : List (Row → Bool)) (row : Row) : Bool :=
  tests.all fun test => test row

/-- The cursor that an option is. -/
def cursorOf : Datum → Except Failure (Option String)
  | .null => .ok none
  | .text s => .ok (some s)
  | _ => .error .unusableCursor

/-- The window of a list of so many rows that options ask for. A plain cursor counts where there is
no `after`, and a limit where there is no `first`. -/
def window (options : ListOptions) (total : Nat) : Except Failure Paging.Window := do
  let bounds : Paging.Bounds :=
    { before := ← cursorOf options.before
      after := ← cursorOf (if options.after.isNull then options.cursor else options.after)
      first := options.first.or options.limit
      last := options.last }
  match Paging.pageWindow total bounds with
  | .ok window => if fitsWord window.start then .ok window else .error .tooLarge
  | .error fault => .error (.cursor fault)

/-- The page of sorted rows that a window shows. -/
def page (rows : List Row) (window : Paging.Window) : Datum :=
  let shown := (rows.drop window.start.toNat).take (window.stop - window.start).toNat
  let edges := shown.zipIdx.map fun (row, index) =>
    Datum.record
      [ ("node", .record (model.record row)),
        ("cursor", .text (Paging.encodeCursor (window.start + index))) ]
  .record
    [ ("edges", .list edges),
      ("pageInfo", .record
        [ ("hasNextPage", .bool (window.stop < rows.length)),
          ("hasPreviousPage", .bool (0 < window.start)) ]) ]

/-- Finds a record by the key of the table. The identifier is read as one of the identifier
column. -/
def find (idColumn : Column) (id : Datum) : Action Session Datum := do
  let row ← model.findRow (coerce (some idColumn.type) id)
  return Datum.ofOption (row.map fun row => .record (model.record row))

/-- Lists records that satisfy all filters, sorted by the orders and last by identifier. -/
def list (idColumn : Column) (options : ListOptions) : Action Session Datum := do
  let operators := (← get).operators
  let filters ← Session.lift (specItems options.filter)
  let conditions ← Session.lift (filters.mapM (filterCondition operators model))
  let rows ← Session.read model
  let tests ← Session.lift (conditions.mapM Condition.test)
  let matching := rows.filter (passesAll tests)
  let orders ← Session.lift (specItems options.order)
  let given ← Session.lift (orders.mapM (sortKey model))
  let keys := given ++ [⟨idColumn, false⟩]
  let window ← Session.lift (window options matching.length)
  let sorted := matching.mergeSort fun a b => (SortKey.compareBy keys a b).isLE
  return model.page sorted window

/-- Creates a record and answers its identifier. An identifier that is missing is made up, unless
the identifier column holds integers. -/
def create (idColumn : Column) (id : Datum) (data : Datum.Entries) : Action Session Datum := do
  let given ← Session.lift (model.values data)
  let values ←
    if !id.isNull then
      pure (Entries.set idColumn.name (coerce (some idColumn.type) id) given)
    else if idColumn.type.isInteger then pure given
    else pure (Entries.set idColumn.name (← Session.drawId) given)
  let row ← Session.flush model (model.addRow values)
  match Entries.get values idColumn.name with
  | .null =>
    if idColumn.name = model.key.name then return idColumn.type.value (model.keyOf row)
    else return .null
  | value => return value

/-- Changes the records of an identifier, and answers whether there were any. -/
def update (idColumn : Column) (id : Datum) (data : Datum.Entries) : Action Session Datum := do
  let values ← Session.lift (model.values data)
  if values.isEmpty then
    return .bool !(← model.find idColumn id).isNull
  Session.write model fun rows => do
    let (changed, found) ← model.changeRows (← idTest idColumn id) values rows
    return (changed, .bool found)

/-- Changes the record that is found by an identifier, or creates one with it. -/
def upsert (idColumn : Column) (id : Datum) (data : Datum.Entries) : Action Session Datum := do
  let values ← Session.lift (model.values data)
  let id := coerce (some idColumn.type) id
  match ← model.findRow id with
  | none =>
    let _ ← Session.flush model (model.addRow (Entries.set idColumn.name id values))
    return .bool true
  | some row =>
    let same := fun (other : Row) => (model.keyOf other).compare (model.keyOf row) == .eq
    let _ ← Session.flush model (model.changeRows same values)
    return .bool true

/-- Deletes the records of an identifier, and answers whether there were any. -/
def delete (idColumn : Column) (id : Datum) : Action Session Datum := do
  Session.write model fun rows => do
    let (left, found) ← removeRows (← idTest idColumn id) rows
    return (left, .bool found)

/-- The collection of a model's records with an identifier column. -/
def collection (idColumn : Column) : Collection Session :=
  { find := model.find idColumn
    list := model.list idColumn
    create := model.create idColumn
    update := model.update idColumn
    upsert := model.upsert idColumn
    delete := model.delete idColumn }

/-- Hands out the collections of models by their names. Unless the session is at hand, the context
of the request must hold one. -/
def store {α : Type} (models : List Model) (atHand : Bool) : Store Session (Context α) :=
  fun request => do
    if !atHand && request.context.session?.isNone then
      throw .noSession
    match models.find? (·.name == request.name) with
    | none => throw (.noKey request.name)
    | some model => return model.collection (← Session.lift (model.columnOf request.idName))

end Model

end RecordApi.Table
