import RecordApi.Collection
import RecordApi.Descriptor

/-!
# Acquiring collections

A store hands out the collection of a root type. It is asked once when a schema is bound, or anew
for each call with the context of the request.
-/

namespace RecordApi

/-- What a store is told when it is asked for a collection. -/
structure CollectionRequest (κ : Type) where
  idName : String
  name : String
  context : κ
deriving Repr

/-- Hands out collections. -/
abbrev Store (σ κ : Type) := CollectionRequest κ → Action σ (Collection σ)

/-- Access to the collection of a root type, which may have been acquired already. `context` is the
context in which the schema is bound. -/
structure Handle (σ κ : Type) where
  store : Store σ κ
  descriptor : Descriptor
  context : κ
  opened : Option (Collection σ)

namespace Handle

variable {σ κ : Type}

/-- Asks the store for the collection. -/
def acquire (handle : Handle σ κ) (context : κ) : Action σ (Collection σ) :=
  handle.store ⟨handle.descriptor.idName, handle.descriptor.typeName, context⟩

/-- The handle with its collection acquired, unless calls are to acquire it. -/
def prepare (handle : Handle σ κ) (requestScoped : Bool) : Action σ (Handle σ κ) :=
  if requestScoped then return handle
  else return { handle with opened := some (← handle.acquire handle.context) }

/-- The collection for a call; one that has not been acquired is acquired with the context of the
request, if there is a request. -/
def collection (handle : Handle σ κ) (request : Option κ) : Action σ (Collection σ) :=
  match handle.opened with
  | some collection => return collection
  | none => handle.acquire (request.getD handle.context)

end Handle

end RecordApi
