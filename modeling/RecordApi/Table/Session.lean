import RecordApi.Collection
import RecordApi.Counter
import RecordApi.Table.Condition
import RecordApi.Text.Quoted

/-!
# Sessions

A session works on the tables of a database. A write either is done as a whole or changes nothing.
Rows that are added or changed one by one are written by a flush; a session whose flush has failed
refuses all work until it is rolled back.
-/

namespace RecordApi.Table

/-- The state of a session. `drawn` counts the identifiers made up so far. -/
structure Session where
  tables : List (String × List Row) := []
  operators : OperatorTable := standardOperators
  drawn : Nat := 0
  waiting : Bool := false
  clock : Counter := ⟨0, 0⟩

namespace Session

/-- An action on a session that changes nothing by itself. -/
def lift {α : Type} : Except Failure α → Action Session α
  | .ok a => return a
  | .error failure => throw failure

/-- The rows of a table. -/
def rows (session : Session) (model : Model) : List Row :=
  (session.tables.lookup model.name).getD []

/-- The session with other rows in a table. -/
def withRows (session : Session) (model : Model) (rows : List Row) : Session :=
  { session with tables :=
      (model.name, rows) :: session.tables.filter fun table => table.1 != model.name }

/-- The session ready for work again; what has been written stays. -/
def rollback (session : Session) : Session :=
  { session with waiting := false }

/-- The session with an operator under a name, in place of the one there. -/
def register (session : Session) (name : String) (operator : Operator) : Session :=
  { session with operators :=
      (name, operator) :: session.operators.filter fun entry => entry.1 != name }

/-- Refuses work in a session that waits for a rollback. -/
def begin : Action Session Unit := do
  if (← get).waiting then
    throw .rollbackNeeded

/-- The rows of a table, as they are read. -/
def read (model : Model) : Action Session (List Row) := do
  begin
  return model.inOrder ((← get).rows model)

/-- A change of the rows of a table, with an answer. -/
abbrev Change (α : Type) := List Row → Except Failure (List Row × α)

/-- Makes a change, unless it fails. -/
def write {α : Type} (model : Model) (change : Change α) : Action Session α := do
  begin
  let (rows, answer) ← lift (change ((← get).rows model))
  modify fun session => session.withRows model rows
  return answer

/-- Makes a change after whose failure the session waits for a rollback. -/
def flush {α : Type} (model : Model) (change : Change α) : Action Session α := do
  begin
  match change ((← get).rows model) with
  | .ok (rows, answer) =>
    modify fun session => session.withRows model rows
    return answer
  | .error failure =>
    modify fun session => { session with waiting := true }
    throw failure

/-- Makes up an identifier of thirty-two digits. -/
def drawId : Action Session Datum := do
  modify fun session => { session with drawn := session.drawn + 1 }
  return .text (String.ofList (Text.hexDigits 32 (← get).drawn))

/-- Looks at the clock. -/
def tick : Action Session Datum := do
  let clock := (← get).clock
  modify fun session => { session with clock := clock.advance }
  return .int clock.next

end Session

end RecordApi.Table
