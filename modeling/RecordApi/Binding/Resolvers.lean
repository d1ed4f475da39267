import RecordApi.Binding.Operation
import RecordApi.Naming
import RecordApi.Request.Answer
import RecordApi.Schema.Build

/-!
# Binding a schema to collections

Every root type has an entry point on both roots of the schema, which leads to its queries and its
mutations. The collections are acquired for all root types, and only then the first failure, if
there is one, is raised.
-/

namespace RecordApi

open RecordApi.Language

/-- What serves a field: the entry point of a root type, or an operation on its records. -/
inductive Resolver (σ κ : Type) where
  | entryPoint
  | operation (binding : RecordBinding σ κ) (operation : Operation)

/-- The resolvers of object types by type and field, both in the order in which they were first
named. -/
abbrev ResolverMap (σ κ : Type) := Association (Association (Resolver σ κ))

namespace Resolver

variable {σ κ : Type}

/-- The names that arguments may not have, since calls use them themselves. -/
def reservedArguments : List String :=
  ["root", "info"]

/-- What a resolver serves for arguments, within a request if there is one. -/
def serve (request : Option κ) (arguments : Datum.Entries) : Resolver σ κ → Request.Served σ
  | entryPoint => .now (.ok (.record []))
  | operation binding op =>
    match arguments.find? fun entry => reservedArguments.contains entry.1 with
    | some (name, _) => .now (.error (.reservedArgument name))
    | none => .later (binding.run op request arguments)

end Resolver

namespace ResolverMap

variable {σ κ : Type}

/-- The resolvers of a type. -/
def ofType? (resolvers : ResolverMap σ κ) (typeName : String) :
    Option (Association (Resolver σ κ)) :=
  resolvers.lookup typeName

/-- The resolver of a field. -/
def find? (resolvers : ResolverMap σ κ) (typeName fieldName : String) : Option (Resolver σ κ) :=
  (resolvers.ofType? typeName).bind (·.lookup fieldName)

/-- The map that holds the root types alone. -/
def empty (query mutation : String) : ResolverMap σ κ :=
  Association.put mutation [] [(query, [])]

/-- The resolvers of operations. -/
def ofOperations (binding : RecordBinding σ κ) (operations : List Operation) :
    Association (Resolver σ κ) :=
  operations.map fun op => (op.name, .operation binding op)

/-- The map with the resolvers of one more root type. -/
def add (query mutation : String) (resolvers : ResolverMap σ κ) (binding : RecordBinding σ κ) :
    ResolverMap σ κ :=
  let typeName := binding.handle.descriptor.typeName
  let entry := Association.put (Naming.lowerCamel typeName) Resolver.entryPoint
  let withEntries := Association.change mutation entry (Association.change query entry resolvers)
  Association.put (typeName ++ "Mutation") (ofOperations binding Operation.mutations)
    (Association.put (typeName ++ "Query") (ofOperations binding Operation.queries) withEntries)

/-- Checks that every type and field is one of the schema's object types. -/
def check (schema : Schema) (resolvers : ResolverMap σ κ) : Except Failure Unit :=
  resolvers.forM fun (typeName, fields) =>
    if schema.isOf TypeShape.isObject (.named typeName) then
      fields.forM fun (fieldName, _) =>
        if (schema.fieldsOf typeName).any (·.name == fieldName) then .ok ()
        else .error (.noKey fieldName)
    else
      .error (.notBindable typeName)

/-- The resolvers of both maps; those of the second count where both have one. -/
def merge (resolvers more : ResolverMap σ κ) : ResolverMap σ κ :=
  more.foldl (fun merged (typeName, fields) =>
    let known := (merged.lookup typeName).getD []
    Association.put typeName (Association.putAll known fields) merged)
    resolvers

end ResolverMap

/-- What binds a schema: the store, the context at the time of binding, and the clock. -/
structure Environment (σ κ : Type) where
  store : Store σ κ
  context : κ
  now : Action σ Datum

namespace Environment

variable {σ κ : Type}

/-- The binding of a root type before its collection is acquired. -/
def bindingOf (env : Environment σ κ) (options : Options) (descriptor : Descriptor) :
    RecordBinding σ κ :=
  { handle := ⟨env.store, descriptor, env.context, none⟩
    timestamps := options.timestamps
    mostPerPage := options.mostPerPage
    now := env.now }

/-- The binding of a root type, its collection acquired unless calls acquire it. -/
def bind (env : Environment σ κ) (options : Options) (descriptor : Descriptor) :
    Action σ (RecordBinding σ κ) := do
  let binding := env.bindingOf options descriptor
  return { binding with handle := ← binding.handle.prepare options.requestScoped }

/-- The outcomes of binding all root types in order; a failure keeps no other from being bound. -/
def bindAll (env : Environment σ κ) (options : Options) :
    List Descriptor → StateM σ (List (Except Failure (RecordBinding σ κ)))
  | [] => return []
  | descriptor :: rest => do
    let first ← (env.bind options descriptor).run
    return first :: (← bindAll env options rest)

/-- The resolvers of a schema, unless a root type cannot be bound; of several failures the first
counts. -/
def resolvers (env : Environment σ κ) (options : Options) (schema : Schema)
    (descriptors : List Descriptor) : Action σ (ResolverMap σ κ) := do
  let query := schema.query.getD "Query"
  let mutation := schema.mutation.getD "Mutation"
  let outcomes ← env.bindAll options descriptors
  match outcomes.mapM id with
  | .ok bindings =>
    return bindings.foldl (ResolverMap.add query mutation) (ResolverMap.empty query mutation)
  | .error failure => throw failure

end Environment

end RecordApi
