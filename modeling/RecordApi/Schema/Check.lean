import RecordApi.Schema.Basic

/-!
# Checking a schema

A schema that has been built must have a query root, types that are not empty, names that are not
reserved, object types that provide what their interfaces ask for, and input types that can be
given a value at all. All faults are told.
-/

namespace RecordApi.Schema

open RecordApi.Language

/-- The fault of a name that is reserved. -/
def nameFaults (name : String) : List String :=
  if name.startsWith "__" then
    ["Name " ++ Text.quoted name ++
      " must not begin with '__', which is reserved by GraphQL introspection."]
  else
    []

/-- The fault of a root type other than that of queries. -/
def otherRootFaults (schema : Schema) (title : String) (root : Option String) : List String :=
  match root with
  | none => []
  | some name =>
    if schema.isOf TypeShape.isObject (.named name) then []
    else
      [title ++ " root type must be Object type if provided, it cannot be " ++ name ++ "."]

/-- The faults of the root types. -/
def rootFaults (schema : Schema) : List String :=
  let query := match schema.query with
    | none => ["Query root type must be provided."]
    | some name =>
      if schema.isOf TypeShape.isObject (.named name) then []
      else ["Query root type must be Object type, it cannot be " ++ name ++ "."]
  query ++ schema.otherRootFaults "Mutation" schema.mutation ++
    schema.otherRootFaults "Subscription" schema.subscription

/-- The faults of the arguments of a field or a directive. -/
def argumentFaults (owner : String) (arguments : List InputSlot) : List String :=
  arguments.flatMap fun slot =>
    nameFaults slot.name ++
      (if slot.isRequired && slot.deprecation.isSome then
        ["Required argument " ++ owner ++ "(" ++ slot.name ++ ":) cannot be deprecated."]
      else [])

/-- The faults of the directives. -/
def directiveFaults (schema : Schema) : List String :=
  schema.directives.flatMap fun d => nameFaults d.name ++ argumentFaults ("@" ++ d.name) d.arguments

/-- The faults of the fields of an object type or an interface. -/
def fieldFaults (type : SchemaType) : List String :=
  let fields := type.shape.fields
  (if fields.isEmpty then ["Type " ++ type.name ++ " must define one or more fields."] else []) ++
    fields.flatMap fun f =>
      nameFaults f.name ++ argumentFaults (type.name ++ "." ++ f.name) f.arguments

/-- The faults of a field that an interface asks for with its arguments. -/
def providedFieldFaults (schema : Schema) (typeName ifaceName : String) (asked : OutputField)
    (provided : OutputField) : List String :=
  let askedName := ifaceName ++ "." ++ asked.name
  let providedName := typeName ++ "." ++ asked.name
  let typeFaults :=
    if schema.isSubtype provided.type asked.type then []
    else
      ["Interface field " ++ askedName ++ " expects type " ++ asked.type.text ++ " but " ++
        providedName ++ " is type " ++ provided.type.text ++ "."]
  let askedFaults := asked.arguments.flatMap fun slot =>
    let call := "(" ++ slot.name ++ ":)"
    match provided.arguments.find? (·.name == slot.name) with
    | none =>
      ["Interface field argument " ++ askedName ++ call ++ " expected but " ++ providedName ++
        " does not provide it."]
    | some own =>
      if own.type = slot.type then []
      else
        ["Interface field argument " ++ askedName ++ call ++ " expects type " ++ slot.type.text ++
          " but " ++ providedName ++ call ++ " is type " ++ own.type.text ++ "."]
  let additional := provided.arguments.filter fun slot =>
    slot.isRequired && !asked.arguments.any (·.name == slot.name)
  let additionalFaults := additional.map fun slot =>
    "Object field " ++ providedName ++ " includes required argument " ++ slot.name ++
      " that is missing from the Interface field " ++ askedName ++ "."
  typeFaults ++ askedFaults ++ additionalFaults

/-- The faults of what a type does not provide though an interface asks for it. -/
def provisionFaults (schema : Schema) (type : SchemaType) (ifaceName : String) : List String :=
  (schema.fieldsOf ifaceName).flatMap fun asked =>
    match type.shape.fields.find? (·.name == asked.name) with
    | none =>
      ["Interface field " ++ ifaceName ++ "." ++ asked.name ++ " expected but " ++ type.name ++
        " does not provide it."]
    | some provided => schema.providedFieldFaults type.name ifaceName asked provided

/-- The faults of the interfaces that a type does not name though one of its own does. -/
def ancestorFaults (schema : Schema) (type : SchemaType) (ifaceName : String) : List String :=
  let ancestors := ((schema.shape? (.named ifaceName)).map TypeShape.interfaces).getD []
  (ancestors.filter fun name => !type.shape.interfaces.contains name).map fun name =>
    if name = type.name then
      "Type " ++ type.name ++ " cannot implement " ++ ifaceName ++
        " because it would create a circular reference."
    else
      "Type " ++ type.name ++ " must implement " ++ name ++ " because it is implemented by " ++
        ifaceName ++ "."

/-- The faults of the interfaces of a type, given those met before. -/
def interfaceFaults (schema : Schema) (type : SchemaType) :
    List String → List String → List String
  | [], _ => []
  | name :: rest, seen =>
    if name = type.name then
      ("Type " ++ name ++
        " cannot implement itself because it would create a circular reference.") ::
        interfaceFaults schema type rest seen
    else if seen.contains name then
      ("Type " ++ type.name ++ " can only implement " ++ name ++ " once.") ::
        interfaceFaults schema type rest seen
    else
      schema.ancestorFaults type name ++ schema.provisionFaults type name ++
        interfaceFaults schema type rest (name :: seen)

/-- The faults of the members of a union, given those met before. -/
def memberFaults (unionName : String) : List String → List String → List String
  | [], _ => []
  | name :: rest, seen =>
    if seen.contains name then
      ("Union type " ++ unionName ++ " can only include type " ++ name ++ " once.") ::
        memberFaults unionName rest seen
    else
      memberFaults unionName rest (name :: seen)

/-- The faults of the fields of an input type. -/
def slotFaults (typeName : String) (slots : List InputSlot) : List String :=
  (if slots.isEmpty then
    ["Input Object type " ++ typeName ++ " must define one or more fields."] else []) ++
    slots.flatMap fun slot =>
      nameFaults slot.name ++
        (if slot.isRequired && slot.deprecation.isSome then
          ["Required input field " ++ typeName ++ "." ++ slot.name ++ " cannot be deprecated."]
        else [])

/-- The input type that a field requires directly. -/
def requiredInput? (schema : Schema) : TypeExpr → Option String
  | .nonNull (.named name) =>
    if schema.isOf TypeShape.isInputObject (.named name) then some name else none
  | _ => none

/-- What a search for circular input types has visited and found. -/
structure CircleSearch where
  visited : List String
  faults : List String

/-- Searches for input types that require themselves, from one type on. `path` holds the types on
the way with the field by which each is left, the last first. The number bounds the depth; the
number of types is enough, since no type is visited twice. -/
def searchCircles (schema : Schema) :
    Nat → List (String × String) → String → CircleSearch → CircleSearch
  | 0, _, _, found => found
  | depth + 1, path, name, found =>
    if found.visited.contains name then found
    else
      (schema.slotsOf name).foldl (fun found slot =>
        match schema.requiredInput? slot.type with
        | none => found
        | some next =>
          let path := (name, slot.name) :: path
          if path.any (·.1 == next) then
            let circle := (path.reverse.dropWhile (·.1 != next)).map (·.2)
            { found with faults := found.faults ++
                ["Cannot reference Input Object '" ++ next ++
                  "' within itself through a series of non-null fields: '" ++
                  ".".intercalate circle ++ "'."] }
          else
            searchCircles schema depth path next found)
        { found with visited := name :: found.visited }

/-- The faults of one type, and what the search for circles has visited by then. -/
def typeFaults (schema : Schema) (type : SchemaType) (visited : List String) :
    List String × List String :=
  let named := if standardNames.contains type.name then [] else nameFaults type.name
  match type.shape with
  | .scalar _ => (named, visited)
  | .object interfaces _ | .interface interfaces _ =>
    (named ++ fieldFaults type ++ schema.interfaceFaults type interfaces [], visited)
  | .union members =>
    let empty :=
      if members.isEmpty then
        ["Union type " ++ type.name ++ " must define one or more member types."] else []
    (named ++ empty ++ memberFaults type.name members [], visited)
  | .enum options =>
    let empty :=
      if options.isEmpty then
        ["Enum type " ++ type.name ++ " must define one or more values."] else []
    (named ++ empty ++ options.flatMap (nameFaults ·.name), visited)
  | .input slots =>
    let found := schema.searchCircles (schema.types.length + 1) [] type.name ⟨visited, []⟩
    (named ++ slotFaults type.name slots ++ found.faults, found.visited)

/-- The faults of types in order. -/
def typeListFaults (schema : Schema) : List SchemaType → List String → List String
  | [], _ => []
  | type :: types, visited =>
    let (faults, visited) := schema.typeFaults type visited
    faults ++ typeListFaults schema types visited

/-- Everything that is wrong with a schema. -/
def faults (schema : Schema) : List String :=
  schema.rootFaults ++ schema.directiveFaults ++
    schema.typeListFaults schema.declared []

end RecordApi.Schema
