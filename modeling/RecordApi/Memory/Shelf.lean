import RecordApi.Collection
import RecordApi.Text.Case

/-!
# Collections in memory

A shelf keeps the records of one collection under their identifiers, in the order in which they were
put there, and writes down every call. Numbers and truth values are the same identifier if they are
equal as numbers.
-/

namespace RecordApi

/-- A collection in memory. -/
structure Shelf where
  name : String
  records : List (Datum × Datum.Entries)
  /-- The calls made, each with the name of the operation first. -/
  calls : List (List Datum)
  /-- The operations that are refused, with what they say. -/
  refusals : List (String × String)
deriving Inhabited

namespace Shelf

/-- The number that an identifier counts as. -/
def number? : Datum → Option Number.Double.Place
  | .int n => some (Number.Double.placeOfInt n)
  | .bool b => some (Number.Double.placeOfInt (if b then 1 else 0))
  | .real x => x.place?
  | _ => none

/-- Whether two values are the same identifier. -/
def sameKey (a b : Datum) : Bool :=
  match number? a, number? b with
  | some p, some q => p = q
  | none, none => a == b
  | _, _ => false

/-- An identifier; lists and records are none. -/
def key : Datum → Action Shelf Datum
  | .list _ => throw (.unusableKey "list")
  | .record _ => throw (.unusableKey "dict")
  | d => return d

/-- Writes down a call, which may be refused. -/
def begin (operation : String) (arguments : List Datum) : Action Shelf Unit := do
  modify fun shelf => { shelf with calls := shelf.calls ++ [.text operation :: arguments] }
  match (← get).refusals.lookup operation with
  | some message => throw (.refused message)
  | none => return ()

/-- The record under an identifier. -/
def record? (shelf : Shelf) (id : Datum) : Option Datum.Entries :=
  (shelf.records.find? fun entry => sameKey entry.1 id).map (·.2)

/-- Puts a record under an identifier: in place of the one there, or at the end. -/
def put (id : Datum) (record : Datum.Entries) :
    List (Datum × Datum.Entries) → List (Datum × Datum.Entries)
  | [] => [(id, record)]
  | entry :: rest =>
    if sameKey entry.1 id then (entry.1, record) :: rest else entry :: put id record rest

/-- Stores a record under an identifier. -/
def store (id : Datum) (record : Datum.Entries) : Action Shelf Unit :=
  modify fun shelf => { shelf with records := put id record shelf.records }

/-- The identifier of a new record for which none is given. -/
def freshId (shelf : Shelf) : Datum :=
  .text (String.ofList (Text.lower shelf.name.toList) ++ "-" ++ toString (shelf.records.length + 1))

/-- A page of all records, with their positions as cursors. -/
def page (shelf : Shelf) : Datum :=
  let edges := shelf.records.zipIdx.map fun ((_, record), index) =>
    Datum.record [("node", .record record), ("cursor", .text (toString index))]
  .record
    [ ("edges", .list edges),
      ("pageInfo", .record [("hasNextPage", .bool false), ("hasPreviousPage", .bool false)]) ]

/-- Finds a record. -/
def find (id : Datum) : Action Shelf Datum := do
  begin "find" [id]
  let id ← key id
  return Datum.ofOption (((← get).record? id).map .record)

/-- Lists all records. -/
def list (options : ListOptions) : Action Shelf Datum := do
  begin "list" [options.toDatum]
  return (← get).page

/-- Creates a record; data that has an identifier of its own keeps it inside. -/
def create (id : Datum) (data : Datum.Entries) : Action Shelf Datum := do
  begin "create" [id, .record data]
  let id ← if id.isNull then pure (← get).freshId else key id
  store id (Entries.merge [("id", id)] data)
  return id

/-- Merges data into a record that is there. -/
def update (id : Datum) (data : Datum.Entries) : Action Shelf Datum := do
  begin "update" [id, .record data]
  let id ← key id
  match (← get).record? id with
  | none => throw (.noKey id.plainText)
  | some record =>
    store id (Entries.merge record data)
    return .bool true

/-- Merges data into a record, which is started if it is not there. -/
def upsert (id : Datum) (data : Datum.Entries) : Action Shelf Datum := do
  begin "upsert" [id, .record data]
  let id ← key id
  store id (Entries.merge (((← get).record? id).getD [("id", id)]) data)
  return .bool true

/-- Removes a record, and answers whether there was one. -/
def delete (id : Datum) : Action Shelf Datum := do
  begin "delete" [id]
  let id ← key id
  let found := ((← get).record? id).isSome
  modify fun shelf =>
    { shelf with records := shelf.records.filter fun entry => !sameKey entry.1 id }
  return .bool found

/-- The operations on a shelf. -/
def collection : Collection Shelf :=
  { find := find
    list := list
    create := create
    update := update
    upsert := upsert
    delete := delete }

end Shelf

end RecordApi
