import RecordApi.Derivation.Inputs
import RecordApi.Naming
import RecordApi.Primitives

/-!
# The fragment of a root type

For each root type there are input types for creation and update, the types of a page of records,
one type of queries and one of mutations, and an entry point to each on the roots of the schema.
-/

namespace RecordApi

open RecordApi.Language

namespace Fragment

/-- A field without description, default and directives. -/
def plainField (name : String) (arguments : List InputDef) (type : TypeExpr) : FieldDef :=
  ⟨none, name, arguments, type, none, [], false⟩

/-- An argument without default and directives. -/
def plainArgument (description : Option String) (name : String) (type : TypeExpr) : InputDef :=
  ⟨description.map fun text => ⟨text, false⟩, name, type, none, []⟩

/-- An object type with the given fields. -/
def objectType (name : String) (fields : List FieldDef) : TypeDef :=
  ⟨none, name, [], .object [] fields⟩

/-- A list of required items. -/
def listOf (name : String) : TypeExpr :=
  .list (.nonNull (.named name))

/-- A record with its cursor. -/
def edgeType (typeName : String) : TypeDef :=
  objectType (typeName ++ "Edge")
    [ plainField "node" [] (.nonNull (.named typeName)),
      plainField "cursor" [] (.nonNull (.named "ID")) ]

/-- A page of records. -/
def connectionType (ns typeName : String) : TypeDef :=
  objectType (typeName ++ "Connection")
    [ plainField "edges" [] (.nonNull (listOf (typeName ++ "Edge"))),
      plainField "pageInfo" [] (.nonNull (.named (Primitives.pageInfo ns))) ]

/-- The arguments that choose and order a page. -/
def listArguments (ns : String) (mostPerPage : Int) : List InputDef :=
  let most := "(at most " ++ toString mostPerPage ++ ")."
  [ plainArgument (some "Return items before this cursor.") "before" (.named "ID"),
    plainArgument (some "Return items after this cursor.") "after" (.named "ID"),
    plainArgument (some ("Number of items from the start of the window " ++ most)) "first"
      (.named "Int"),
    plainArgument (some ("Number of items from the end of the window " ++ most)) "last"
      (.named "Int"),
    plainArgument (some "Ordering specs; later entries break ties of earlier ones.") "order"
      (listOf (Primitives.orderInput ns)),
    plainArgument
      (some ("Filters combined with AND, e.g. " ++
        "\x7bfield: \"name\", op: EQ, value: \"x\"\x7d.")) "filter"
      (listOf (Primitives.filterInput ns)) ]

/-- The type of queries of a root type. -/
def queryType (options : Options) (d : Descriptor) : TypeDef :=
  objectType (d.typeName ++ "Query")
    [ plainField "find" [plainArgument none d.idName d.idType.toExpr] (.named d.typeName),
      plainField "list" (listArguments options.ns options.mostPerPage)
        (.named (d.typeName ++ "Connection")) ]

/-- The type of mutations of a root type. -/
def mutationType (d : Descriptor) : TypeDef :=
  let id := plainArgument none d.idName
  let data := fun mode : InputMode =>
    plainArgument none "data" (.nonNull (.named (mode.inputName d.typeName)))
  objectType (d.typeName ++ "Mutation")
    [ plainField "create" [id d.idType.nullable.toExpr, data .create] d.idType.required.toExpr,
      plainField "update" [id d.idType.toExpr, data .update] (.named "Boolean"),
      plainField "upsert" [id d.idType.toExpr, data .create] (.named "Boolean"),
      plainField "delete" [id d.idType.toExpr] (.named "Boolean") ]

/-- The entry points of a root type. -/
def entryPoints (roots : RootNames) (typeName : String) : List TypeDef :=
  let field := Naming.lowerCamel typeName
  [ objectType roots.query [plainField field [] (.named (typeName ++ "Query"))],
    objectType roots.mutation [plainField field [] (.named (typeName ++ "Mutation"))] ]

/-- The types of a fragment behind its input types. -/
def outputTypes (basis : Basis) (d : Descriptor) : List TypeDef :=
  [ edgeType d.typeName, connectionType basis.options.ns d.typeName, queryType basis.options d,
    mutationType d ] ++ entryPoints basis.roots d.typeName

/-- The definitions of generated types, written as text and read back. A name that is none makes the
text mean something else, or nothing, and a limit on tokens counts those of the text. -/
def reread (options : ReadOptions) (types : List TypeDef) : Except Failure (List Definition) :=
  match readDocument options (Document.ofDefinitions (types.map .type)).print with
  | .ok document => .ok document.definitions
  | .error fault => .error (.misread fault)

/-- The root type with the fields for times that it lacks, if it lacks any. -/
def withTimestamps (basis : Basis) (typeName : String) : Option TypeDef := do
  let d ← basis.type? typeName
  match d.body with
  | .object interfaces fields =>
    let missing := timestampFields.filter fun name => fields.all fun f => f.name != name
    if missing.isEmpty then none
    else
      let added := missing.map fun name => plainField name [] (.nonNull (.named "Float"))
      some { d with body := .object interfaces (fields ++ added) }
  | _ => none

/-- The root type again, with fields for times, if they are asked for and lacking. -/
def augmented (basis : Basis) (typeName : String) : List Definition :=
  if basis.options.timestamps then (withTimestamps basis typeName).toList.map .type else []

/-- Derives the input types of a root type in both modes. -/
def inputs (basis : Basis) (d : Descriptor) : Derive Unit := do
  let fields := basis.inputFields d
  let _ ← Derive.input basis .create (Derive.depth basis) [] d.typeName fields
  let _ ← Derive.input basis .update (Derive.depth basis) [] d.typeName fields
  return ()

/-- The fragment of a root type, given the names of the input types derived before. Answers the
names derived since, which stay known also when the fragment fails. -/
def generate (basis : Basis) (d : Descriptor) (known : List String) :
    Except Failure (List Definition) × List String :=
  match (inputs basis d).run ⟨known, []⟩ with
  | (.error failure, derived) => (.error failure, derived.names)
  | (.ok (), derived) =>
    let definitions := do
      let generated ← reread basis.options.reading (derived.inputs ++ outputTypes basis d)
      return generated ++ augmented basis d.typeName
    (definitions, derived.names)

/-- The fragments of root types in turn. Each outcome is kept. -/
def generateEach (basis : Basis) :
    List Descriptor → List String → List (Except Failure (List Definition))
  | [], _ => []
  | d :: rest, known =>
    let (outcome, known) := generate basis d known
    outcome :: generateEach basis rest known

end Fragment

end RecordApi
