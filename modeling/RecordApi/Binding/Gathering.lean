import RecordApi.Binding.Resolvers

/-!
# Binding root types side by side

The root types of a schema are bound side by side. Each asks the store for its collection, and
enters its resolvers when the answer is there, in whatever order the answers arrive. When all root
types are done, the first of them in their own order that has failed decides.
-/

namespace RecordApi

/-- Root types on their way to being bound: the root types that have asked for their collection and
those that are done, both in turn, and the resolvers that have been entered. -/
structure Gathering (σ κ : Type) where
  world : σ
  asked : List Descriptor
  finished : List (Descriptor × Except Failure (RecordBinding σ κ))
  resolvers : ResolverMap σ κ

/-- A turn of a root type: it starts, or it has the answer of the store. -/
inductive Turn where
  | start (d : Descriptor)
  | answer (d : Descriptor)
deriving DecidableEq, Repr

namespace Gathering

variable {σ κ : Type}

/-- No root type has started yet. -/
def initial (schema : Schema) (world : σ) : Gathering σ κ :=
  ⟨world, [], [],
    ResolverMap.empty (schema.query.getD "Query") (schema.mutation.getD "Mutation")⟩

/-- The root types that are done, in turn. -/
def order (gathering : Gathering σ κ) : List Descriptor :=
  gathering.finished.map (·.1)

/-- What comes of binding root types, once all of them are done: of several failures the first in
the order of the root types counts. -/
def outcome? (descriptors : List Descriptor) (gathering : Gathering σ κ) :
    Option (Except Failure (ResolverMap σ κ)) := do
  let outcomes ← descriptors.mapM fun d => gathering.finished.lookup d
  return (outcomes.mapM id).map fun _ => gathering.resolvers

end Gathering

namespace Environment

variable {σ κ : Type} (env : Environment σ κ) (options : Options) (schema : Schema)

/-- What the store is told when it is asked for the collection of a root type at binding time. -/
def request (d : Descriptor) : CollectionRequest κ :=
  ⟨d.idName, d.typeName, env.context⟩

/-- A root type is bound, and enters its resolvers unless it fails. -/
def finish (d : Descriptor) (gathering : Gathering σ κ) : Gathering σ κ :=
  let (outcome, world) := ((env.bind options d).run.run gathering.world).run
  { gathering with
    world := world
    finished := gathering.finished ++ [(d, outcome)]
    resolvers := match outcome with
      | .ok binding => ResolverMap.add (schema.query.getD "Query")
          (schema.mutation.getD "Mutation") gathering.resolvers binding
      | .error _ => gathering.resolvers }

/-- A root type takes a turn, if it is its turn. One whose calls ask for the collection is done as
soon as it starts. -/
def turn (descriptors : List Descriptor) (gathering : Gathering σ κ) :
    Turn → Option (Gathering σ κ)
  | .start d =>
    if d ∈ descriptors ∧ d ∉ gathering.asked ∧ d ∉ gathering.order then
      some (if options.requestScoped then env.finish options schema d gathering
        else { gathering with asked := gathering.asked ++ [d] })
    else none
  | .answer d =>
    if d ∈ gathering.asked ∧ d ∉ gathering.order then
      some (env.finish options schema d gathering)
    else none

/-- Root types take turns. -/
def gather (descriptors : List Descriptor) (turns : List Turn) (gathering : Gathering σ κ) :
    Option (Gathering σ κ) :=
  turns.foldlM (env.turn options schema descriptors) gathering

end Environment

end RecordApi
