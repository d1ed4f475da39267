import RecordApi.Failure
import RecordApi.Schema.Check
import RecordApi.Schema.Literal
import RecordApi.Validation.Declaration

/-!
# Building a schema

The schema of a document takes every type with its extensions. Where a type is used in a place that
is not for its kind, no schema can be built; what is built is then checked as a whole.
-/

namespace RecordApi

open RecordApi.Language Validation

/-- Why no schema can be built. -/
inductive BuildFault where
  | argumentType
  | fieldType
  | slotType
  | defaultType (type : String)
  | inFields (typeName : String) (fault : BuildFault)
  | interfaces (typeName : String)
  | members (typeName : String)
deriving DecidableEq, Repr, Inhabited

/-- The text of a fault. -/
def BuildFault.message : BuildFault → String
  | argumentType => "Argument type must be a GraphQL input type."
  | fieldType => "Field type must be an output type."
  | slotType => "Input field type must be a GraphQL input type."
  | defaultType type => "Unexpected input type: " ++ type ++ "."
  | inFields typeName fault => typeName ++ " fields cannot be resolved. " ++ fault.message
  | interfaces typeName =>
    typeName ++ " interfaces must be specified as a collection of GraphQLInterfaceType instances."
  | members typeName =>
    typeName ++ " types must be specified as a collection of GraphQLObjectType instances."

namespace SchemaBuild

/-- The body of a type together with that of an extension of the same kind. -/
def extendBody : TypeBody → TypeBody → TypeBody
  | .object interfaces fields, .object moreInterfaces moreFields =>
    .object (interfaces ++ moreInterfaces) (fields ++ moreFields)
  | .interface interfaces fields, .interface moreInterfaces moreFields =>
    .interface (interfaces ++ moreInterfaces) (fields ++ moreFields)
  | .union members, .union more => .union (members ++ more)
  | .enum values, .enum more => .enum (values ++ more)
  | .input fields, .input more => .input (fields ++ more)
  | body, _ => body

/-- A type together with one of its extensions. -/
def extendType (d more : TypeDef) : TypeDef :=
  if more.name = d.name then
    { d with directives := d.directives ++ more.directives, body := extendBody d.body more.body }
  else
    d

/-- The types that a document defines, each with its extensions. A type named like a standard one
is left out. -/
def extendedTypes (definitions : List Definition) : List TypeDef :=
  let extensions := definitions.filterMap fun
    | .typeExtension d => some d
    | _ => none
  let types := definitions.filterMap fun
    | .type d => if standardNames.contains d.name then none else some d
    | _ => none
  types.map fun d => extensions.foldl extendType d

/-- The text of a description. -/
def textOf (description : Option Description) : Option String :=
  description.map (·.text)

/-- The text that a directive is given as an argument. -/
def givenText (ds : List Directive) (directive argument : String) (otherwise : Option String) :
    Option String :=
  match ds.find? (·.name == directive) with
  | none => none
  | some d =>
    match d.arguments.reverse.find? (·.name.text == argument) with
    | some given =>
      match given.value with
      | .string _ text _ => some text
      | _ => none
    | none => otherwise

/-- The reason of a deprecation. -/
def deprecationOf (ds : List Directive) : Option String :=
  givenText ds "deprecated" "reason" (some standardReason)

/-- An argument or an input field as a slot, its default read. -/
def slotOf (shapes : ShapeLookup) (d : InputDef) : InputSlot :=
  { description := textOf d.description
    name := d.name
    type := d.type
    default := d.default.bind (Literal.read shapes [] d.type)
    deprecation := deprecationOf d.directives }

/-- A field that can be selected. -/
def fieldOf (shapes : ShapeLookup) (d : FieldDef) : OutputField :=
  { description := textOf d.description
    name := d.name
    arguments := d.arguments.map (slotOf shapes)
    type := d.type
    deprecation := deprecationOf d.directives }

/-- What a type is made of. -/
def shapeOf (shapes : ShapeLookup) (d : TypeDef) : TypeShape :=
  match d.body with
  | .scalar => .scalar (givenText d.directives "specifiedBy" "url" none)
  | .object interfaces fields => .object interfaces (fields.map (fieldOf shapes))
  | .interface interfaces fields => .interface interfaces (fields.map (fieldOf shapes))
  | .union members => .union members
  | .enum values =>
    .enum (values.map fun v => ⟨textOf v.description, v.name, deprecationOf v.directives⟩)
  | .input fields => .input (fields.map (slotOf shapes))

/-- The standard type of a name. -/
def standardType? (name : String) : Option SchemaType :=
  (builtinTypes ++ introspectionTypes).find? (·.name == name)

/-- The shapes of types by name. A default may be made of other defaults; the number bounds how far
this goes, and one more than there are types is enough where defaults are not made of themselves. -/
def shapesOf (types : List TypeDef) : Nat → ShapeLookup
  | 0, _ => none
  | depth + 1, name =>
    match standardType? name with
    | some type => some type.shape
    | none => (types.find? (·.name == name)).map (shapeOf (shapesOf types depth))

/-- Whether a name stands for a sort of types, as far as their definitions show it. -/
def isOf (types : List TypeDef) (sort : TypeShape → Bool) (name : String) : Bool :=
  match standardType? name with
  | some type => sort type.shape
  | none => (types.find? (·.name == name)).any fun d => sort (shapeOf (fun _ => none) d)

/-- Checks the type of an argument. -/
def checkArgument (types : List TypeDef) (d : InputDef) : Except BuildFault Unit :=
  if isOf types TypeShape.isInput d.type.baseName then .ok ()
  else
    match d.default with
    | none | some (.null _) => .error .argumentType
    | some _ => .error (.defaultType d.type.baseName)

/-- Checks the types of a field and its arguments. -/
def checkField (types : List TypeDef) (d : FieldDef) : Except BuildFault Unit := do
  d.arguments.forM (checkArgument types)
  if isOf types TypeShape.isOutput d.type.baseName then return () else throw .fieldType

/-- Checks the type of an input field. -/
def checkSlot (types : List TypeDef) (d : InputDef) : Except BuildFault Unit :=
  match checkArgument types d with
  | .error .argumentType => .error .slotType
  | outcome => outcome

/-- Checks the fields of a type. -/
def checkFields (typeName : String) (outcome : Except BuildFault Unit) : Except BuildFault Unit :=
  match outcome with
  | .ok () => .ok ()
  | .error fault => .error (.inFields typeName fault)

/-- Checks that a type uses other types only where their kinds belong. -/
def checkType (types : List TypeDef) (d : TypeDef) : Except BuildFault Unit :=
  match d.body with
  | .object interfaces fields | .interface interfaces fields => do
    if !interfaces.all (isOf types TypeShape.isInterface) then throw (.interfaces d.name)
    checkFields d.name (fields.forM (checkField types))
  | .union members =>
    if members.all (isOf types TypeShape.isObject) then .ok () else .error (.members d.name)
  | .input fields => checkFields d.name (fields.forM (checkSlot types))
  | .scalar | .enum _ => .ok ()

/-- The names that a type mentions. -/
def mentions (d : TypeDef) : List String :=
  match d.body with
  | .object interfaces fields | .interface interfaces fields =>
    interfaces ++ fields.flatMap fun f =>
      f.type.baseName :: f.arguments.map (·.type.baseName)
  | .union members => members
  | .input fields => fields.map (·.type.baseName)
  | .scalar | .enum _ => []

/-- The built-in scalars that are in use: those that types, directives or the description of the
schema itself mention, and those that the document names as if it declared them. -/
def usedBuiltins (definitions : List Definition) (types : List TypeDef)
    (directives : List DirectiveSpec) (roots : List String) : List SchemaType :=
  let named := definitions.filterMap fun
    | .type d => some d.name
    | _ => none
  let used := ["String", "Boolean"] ++ named ++ roots ++ types.flatMap mentions ++
    directives.flatMap fun d => d.arguments.map (·.type.baseName)
  builtinTypes.filter fun type => used.contains type.name

/-- The type that serves a kind of operation: the one that a schema definition or an extension
names; without a schema definition, the type of the usual name comes first. -/
def rootOf (definitions : List Definition) (types : List TypeDef) (operation : OperationKind)
    (usual : String) : Option String :=
  let named := fun (roots : List RootDef) =>
    (roots.reverse.find? (·.operation == operation)).map (·.type)
  let defined := definitions.filterMap fun
    | .schema d => some d.roots
    | _ => none
  let extended := definitions.flatMap fun
    | .schemaExtension d => d.roots
    | _ => []
  let standing := if types.any (·.name == usual) then some usual else none
  match defined.getLast? with
  | some roots => (named extended).or (named roots)
  | none => standing.or (named extended)

/-- The directives of a schema: those defined, and the standard ones that are not. -/
def directivesOf (shapes : ShapeLookup) (definitions : List Definition) : List DirectiveSpec :=
  let defined := definitions.filterMap fun
    | .directive d =>
      some (⟨textOf d.description, d.name, d.arguments.map (slotOf shapes), d.repeatable,
        d.locations⟩ : DirectiveSpec)
    | _ => none
  defined ++ standardDirectives.filter fun d => !(defined.map (·.name)).contains d.name

/-- The description of the schema. -/
def descriptionOf (definitions : List Definition) : Option String :=
  let defined := definitions.filterMap fun
    | .schema d => some (textOf d.description)
    | _ => none
  defined.getLast?.join

end SchemaBuild

open SchemaBuild

namespace Schema

/-- The schema of definitions whose types are used where their kinds belong. -/
def ofDefinitions (definitions : List Definition) : Except BuildFault Schema := do
  let types := extendedTypes definitions
  let shapes := shapesOf types (types.length + 1)
  definitions.forM fun
    | .directive d => d.arguments.forM (checkArgument types)
    | _ => .ok ()
  types.forM (checkType types)
  let directives := directivesOf shapes definitions
  let query := rootOf definitions types .query "Query"
  let mutation := rootOf definitions types .mutation "Mutation"
  let subscription := rootOf definitions types .subscription "Subscription"
  let roots := [query, mutation, subscription].filterMap id
  let declared := types.map fun d =>
    (⟨textOf d.description, d.name, shapeOf shapes d⟩ : SchemaType)
  return {
    description := descriptionOf definitions
    types := declared ++ usedBuiltins definitions types directives roots ++ introspectionTypes
    directives := directives
    query := query
    mutation := mutation
    subscription := subscription }

/-- Whether an object type or an interface holds a field that was taken over from an input type. -/
def hasTakenOver : Definition → Bool
  | .type d | .typeExtension d =>
    match d.body with
    | .object _ fields | .interface _ fields => fields.any (·.takenOver)
    | _ => false
  | _ => false

/-- The schema of a document that follows the rules on definitions, not yet checked as a whole. -/
def assume (document : Document) : Except Failure Schema :=
  if document.definitions.any hasTakenOver then .error .takenOverField
  else
    match declarationReports document.definitions with
    | [] =>
      match ofDefinitions document.definitions with
      | .ok schema => .ok schema
      | .error fault => .error (.invalidSchema [fault.message])
    | reports => .error (.invalidSchema (reports.map (·.message)))

/-- The schema of a document, which must be valid as a whole. -/
def build (document : Document) : Except Failure Schema := do
  let schema ← assume document
  match schema.faults with
  | [] => return schema
  | messages => throw (.invalidSchema messages)

end Schema

end RecordApi
