import RecordApi.Binding.Handle
import RecordApi.Counter
import RecordApi.Memory.Shelf

/-!
# Shelves by name

A cabinet holds one shelf for each name, set up when it is first asked for, together with everything
that it was asked and the clocks that its users look at.
-/

namespace RecordApi

/-- Shelves by name. -/
structure Cabinet (κ : Type) where
  shelves : List Shelf := []
  requests : List (CollectionRequest κ) := []
  counters : List (Nat × Counter) := []

/-- How shelves are set up: their first records, the operations that are refused, and the names for
which there is no shelf. -/
structure Setup where
  records : List (String × List (Datum × Datum.Entries))
  refusals : List (String × List (String × String))
  rejected : List String

namespace Cabinet

variable {κ : Type}

/-- The shelf of a name. -/
def shelf? (cabinet : Cabinet κ) (name : String) : Option Shelf :=
  cabinet.shelves.find? (·.name == name)

/-- The cabinet with a shelf in the place of its namesake. -/
def putShelf (cabinet : Cabinet κ) (shelf : Shelf) : Cabinet κ :=
  { cabinet with shelves :=
      cabinet.shelves.map fun other => if other.name = shelf.name then shelf else other }

/-- An action on a shelf as one on the cabinet. -/
def onShelf {α : Type} (name : String) (action : Action Shelf α) : Action (Cabinet κ) α := do
  match (← get).shelf? name with
  | none => throw (.noKey name)
  | some shelf =>
    let (outcome, shelf) := action.run.run shelf
    modify fun cabinet => cabinet.putShelf shelf
    match outcome with
    | .ok a => return a
    | .error failure => throw failure

/-- The operations on the shelf of a name. -/
def collection (name : String) : Collection (Cabinet κ) :=
  { find := fun id => onShelf name (Shelf.collection.find id)
    list := fun options => onShelf name (Shelf.collection.list options)
    create := fun id data => onShelf name (Shelf.collection.create id data)
    update := fun id data => onShelf name (Shelf.collection.update id data)
    upsert := fun id data => onShelf name (Shelf.collection.upsert id data)
    delete := fun id => onShelf name (Shelf.collection.delete id) }

/-- Hands out shelves, each set up at the first request for it. -/
def store (setup : Setup) : Store (Cabinet κ) κ := fun request => do
  modify fun cabinet => { cabinet with requests := cabinet.requests ++ [request] }
  let name := request.name
  if setup.rejected.contains name then
    throw (.refused ("no " ++ name ++ " store"))
  if ((← get).shelf? name).isNone then
    let shelf : Shelf := ⟨name, (setup.records.lookup name).getD [], [],
      (setup.refusals.lookup name).getD []⟩
    modify fun cabinet => { cabinet with shelves := cabinet.shelves ++ [shelf] }
  return collection name

/-- Looks at a counter. -/
def tick (index : Nat) : Action (Cabinet κ) Datum := do
  match (← get).counters.lookup index with
  | none => return .int 0
  | some counter =>
    modify fun cabinet =>
      { cabinet with counters := (index, counter.advance) ::
          cabinet.counters.filter (·.1 != index) }
    return .int counter.next

end Cabinet

end RecordApi
