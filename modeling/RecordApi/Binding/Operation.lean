import RecordApi.Binding.Handle
import RecordApi.Options

/-!
# Operations on records

The calls by which the fields of a root type are served. Creations and changes may carry the time;
an update needs a record that is there.
-/

namespace RecordApi

/-- The operations that a root type has. -/
inductive Operation where
  | find
  | list
  | create
  | update
  | upsert
  | delete
deriving DecidableEq, Repr, Inhabited

namespace Operation

/-- The field that an operation is selected by. -/
def name : Operation → String
  | find => "find"
  | list => "list"
  | create => "create"
  | update => "update"
  | upsert => "upsert"
  | delete => "delete"

/-- The operations that read. -/
def queries : List Operation :=
  [find, list]

/-- The operations that write. -/
def mutations : List Operation :=
  [create, update, upsert, delete]

end Operation

/-- How the records of a root type are worked on. `now` looks at the clock. -/
structure RecordBinding (σ κ : Type) where
  handle : Handle σ κ
  timestamps : Bool
  mostPerPage : Int
  now : Action σ Datum

namespace RecordBinding

variable {σ κ : Type} (binding : RecordBinding σ κ)

/-- The identifier among arguments. -/
def idOf (arguments : Datum.Entries) : Datum :=
  Entries.get arguments binding.handle.descriptor.idName

/-- The data among arguments. -/
def dataOf (arguments : Datum.Entries) : Datum.Entries :=
  ((Entries.get arguments "data").entries?).getD []

/-- The data with the time of a change. -/
def stampModified (now : Datum) (data : Datum.Entries) : Datum.Entries :=
  Entries.set "modified" now data

/-- The data with the time of a creation. -/
def stampCreated (now : Datum) (data : Datum.Entries) : Datum.Entries :=
  stampModified now (Entries.set "created" now data)

/-- The data with the time at hand written into it, if times are kept. -/
def stamped (stamp : Datum → Datum.Entries → Datum.Entries) (data : Datum.Entries) :
    Action σ Datum.Entries :=
  if binding.timestamps then (fun now => stamp now data) <$> binding.now else pure data

/-- Finds a record. -/
def find (request : Option κ) (arguments : Datum.Entries) : Action σ Datum := do
  let collection ← binding.handle.collection request
  collection.find (binding.idOf arguments)

/-- Lists records, with the page sizes within their bound. -/
def list (request : Option κ) (arguments : Datum.Entries) : Action σ Datum := do
  let collection ← binding.handle.collection request
  collection.list ((ListOptions.ofArguments arguments).clamp binding.mostPerPage)

/-- Creates a record and answers its identifier. -/
def create (request : Option κ) (arguments : Datum.Entries) : Action σ Datum := do
  let collection ← binding.handle.collection request
  collection.create (binding.idOf arguments) (← binding.stamped stampCreated (dataOf arguments))

/-- Changes a record, which must be there. -/
def update (request : Option κ) (arguments : Datum.Entries) : Action σ Datum := do
  let collection ← binding.handle.collection request
  let id := binding.idOf arguments
  if (← collection.find id).isNull then
    throw (.noRecord binding.handle.descriptor.typeName id.plainText)
  collection.update id (← binding.stamped stampModified (dataOf arguments))

/-- Changes a record, or creates it if it is not there. -/
def upsert (request : Option κ) (arguments : Datum.Entries) : Action σ Datum := do
  let collection ← binding.handle.collection request
  let id := binding.idOf arguments
  let data := dataOf arguments
  if binding.timestamps then
    let now ← binding.now
    let missing := (← collection.find id).isNull
    collection.upsert id (if missing then stampCreated now data else stampModified now data)
  else
    collection.upsert id data

/-- Deletes a record. -/
def delete (request : Option κ) (arguments : Datum.Entries) : Action σ Datum := do
  let collection ← binding.handle.collection request
  collection.delete (binding.idOf arguments)

/-- The call of an operation. -/
def run : Operation → Option κ → Datum.Entries → Action σ Datum
  | .find => binding.find
  | .list => binding.list
  | .create => binding.create
  | .update => binding.update
  | .upsert => binding.upsert
  | .delete => binding.delete

end RecordBinding

end RecordApi
