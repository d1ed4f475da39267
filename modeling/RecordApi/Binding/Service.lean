import RecordApi.Assembly
import RecordApi.Binding.Resolvers
import RecordApi.Request.Execution

/-!
# Services

A service is a schema whose fields are bound to collections. It executes requests. Services that
were built independently are combined into one.
-/

namespace RecordApi

open RecordApi.Language

/-- A schema with its document, its resolvers and the descriptors of its root types. -/
structure Service (σ κ : Type) where
  document : Document
  schema : Schema
  resolvers : ResolverMap σ κ
  descriptors : List Descriptor

namespace Service

variable {σ κ : Type}

/-- An action that does not touch the world. -/
def pureAction {α : Type} : Except Failure α → Action σ α
  | .ok a => return a
  | .error failure => throw failure

/-- Builds a service from schema fragments and the names of the root types. -/
def build (env : Environment σ κ) (sources : List Source) (roots : List String)
    (options : Options) : Action σ (Service σ κ) := do
  let assembled ← pureAction (Assembly.assemble sources roots options)
  let schema ← pureAction (Schema.build assembled.document)
  let resolvers ← env.resolvers options schema assembled.descriptors
  pureAction (ResolverMap.check schema resolvers)
  return ⟨assembled.document, schema, resolvers, assembled.descriptors⟩

/-- Puts a descriptor in the place of the one of its type, or at the end. -/
def putDescriptor (descriptors : List Descriptor) (d : Descriptor) : List Descriptor :=
  if descriptors.any (·.typeName == d.typeName) then
    descriptors.map fun other => if other.typeName = d.typeName then d else other
  else
    descriptors ++ [d]

/-- Combines services into one: their documents are merged, and so are their resolvers. -/
def combine (services : List (Service σ κ)) : Except Failure (Service σ κ) := do
  let documents := services.map (·.document)
  let document ← Merge.mergeDocuments
    (Assembly.rootPolicies documents ++ PolicyTable.standard) documents
  let schema ← Schema.build document
  let resolvers := services.foldl
    (fun merged service => ResolverMap.merge merged service.resolvers) []
  ResolverMap.check schema resolvers
  return ⟨document, schema, resolvers,
    (services.flatMap (·.descriptors)).foldl putDescriptor []⟩

/-- What serves the fields of a service within a request. -/
def serving (service : Service σ κ) (context : κ) : Request.Serving σ :=
  fun typeName fieldName =>
    (service.resolvers.find? typeName fieldName).map fun resolver arguments =>
      resolver.serve (some context) arguments

/-- Executes a request in a context. -/
def execute (service : Service σ κ) (context : κ) (request : Request.Submission) :
    StateM σ Request.Response :=
  Request.execute service.schema (service.serving context) request

/-- Calls what serves a field, within a request if there is one. -/
def resolve (service : Service σ κ) (typeName fieldName : String) (request : Option κ)
    (arguments : Datum.Entries) : Action σ Datum := do
  match service.resolvers.ofType? typeName with
  | none => throw (.noKey typeName)
  | some fields =>
    match fields.lookup fieldName with
    | none => throw (.noKey fieldName)
    | some resolver =>
      match resolver.serve request arguments with
      | .now result => pureAction result
      | .later call => call

end Service

end RecordApi
