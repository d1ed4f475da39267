import RecordApi.Derivation.Fragment
import RecordApi.Merge
import RecordApi.Source

/-!
# Assembling a document

The fragments of a schema are merged into one working document. The primitives, the working document
and the generated fragments of the root types are then merged into the assembled document, in which
a schema definition names both roots.
-/

namespace RecordApi

open RecordApi.Language

/-- The assembled document, and the descriptors of the root types in order. -/
structure Assembled where
  document : Document
  descriptors : List Descriptor
deriving DecidableEq, Inhabited

namespace Assembly

/-- The root types of documents unite their fields. -/
def rootPolicies (documents : List Document) : PolicyTable :=
  documents.flatMap fun document =>
    let roots := RootNames.ofDocument document
    [(roots.query, .fieldUnion), (roots.mutation, .fieldUnion)]

/-- A schema definition with the roots that it leaves out. -/
def completeRoots (names : RootNames) (d : SchemaDef) : SchemaDef :=
  let present := d.roots.map (·.operation)
  let missing := [RootDef.mk .query names.query, RootDef.mk .mutation names.mutation].filter
    fun root => !present.contains root.operation
  { d with roots := d.roots ++ missing }

/-- The document with both roots in every schema definition. -/
def completeSchema (document : Document) : Document :=
  let names := RootNames.ofDocument document
  Document.ofDefinitions (document.definitions.map fun
    | .schema d => .schema (completeRoots names d)
    | d => d)

/-- Merges fragments into a working document. -/
def workingDocument (reading : ReadOptions) (fragments : List Source) :
    Except Failure Document := do
  let documents ← fragments.mapM (Source.load reading)
  Merge.mergeDocuments PolicyTable.standard documents

/-- The object type of a name; of two definitions the later counts. -/
def objectFields? (working : Document) (name : String) : Option (List FieldDef) :=
  working.types.reverse.findSome? fun d =>
    match d.body with
    | .object _ fields => if d.name = name then some fields else none
    | _ => none

/-- The descriptor of a root type. -/
def describeRoot (working : Document) (selector : Option IdSelector) (name : String) :
    Except Failure Descriptor :=
  match objectFields? working name with
  | none => .error (.notAnObject name)
  | some fields =>
    match Descriptor.describe name fields (KindTable.ofDocument working) selector with
    | .ok d => .ok d
    | .error fault => .error (.identifier fault)

/-- The basis that a working document and the descriptors of its root types provide. -/
def rootBasis (working : Document) (options : Options) (descriptors : List Descriptor) : Basis :=
  Basis.ofDocument working options none (descriptors.map fun d => (d.typeName, d))

/-- The fragments of all root types, unless one fails. -/
def fragments (basis : Basis) (descriptors : List Descriptor) :
    Except Failure (List (List Definition)) :=
  (Fragment.generateEach basis descriptors []).mapM id

/-- Assembles the document of a schema from a working document. -/
def assembleFrom (working : Document) (roots : List String) (options : Options) :
    Except Failure Assembled := do
  let descriptors ← roots.eraseDups.mapM (describeRoot working options.selector)
  let generated ← fragments (rootBasis working options descriptors) descriptors
  let primitives ← Primitives.document options.ns
  let merged ← Merge.mergeDocuments (rootPolicies [working] ++ PolicyTable.standard)
    (primitives :: working :: generated.map Document.ofDefinitions)
  return ⟨completeSchema merged, descriptors⟩

/-- Assembles the document of a schema from fragments. -/
def assemble (sources : List Source) (roots : List String) (options : Options) :
    Except Failure Assembled := do
  let working ← workingDocument options.reading sources
  assembleFrom working roots options

end Assembly

end RecordApi
