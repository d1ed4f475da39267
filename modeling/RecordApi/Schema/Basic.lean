import RecordApi.Data.Datum
import RecordApi.TypeRef

/-!
# Schemas

A schema holds the types that a document declares, each with its extensions taken in, the built-in
types that are in use, the directives, and the names of the root types. Types refer to each other by
name.
-/

namespace RecordApi

open RecordApi.Language

/-- An argument, or a field of an input type. -/
structure InputSlot where
  description : Option String
  name : String
  type : TypeExpr
  default : Option Datum
  deprecation : Option String
deriving DecidableEq, Inhabited

/-- A slot that must be filled: neither null nor a default can stand in. -/
def InputSlot.isRequired (slot : InputSlot) : Bool :=
  slot.type.isNonNull && slot.default.isNone

/-- A field that can be selected. -/
structure OutputField where
  description : Option String
  name : String
  arguments : List InputSlot
  type : TypeExpr
  deprecation : Option String
deriving DecidableEq, Inhabited

/-- A value of an enumeration. -/
structure EnumOption where
  description : Option String
  name : String
  deprecation : Option String
deriving DecidableEq, Inhabited

/-- What a type is made of. -/
inductive TypeShape where
  | scalar (specifiedBy : Option String)
  | object (interfaces : List String) (fields : List OutputField)
  | interface (interfaces : List String) (fields : List OutputField)
  | union (members : List String)
  | enum (options : List EnumOption)
  | input (fields : List InputSlot)
deriving DecidableEq, Inhabited

/-- A type of a schema. -/
structure SchemaType where
  description : Option String
  name : String
  shape : TypeShape
deriving DecidableEq, Inhabited

namespace TypeShape

/-- Whether the type is an object type. -/
def isObject : TypeShape → Bool
  | object _ _ => true
  | _ => false

/-- Whether the type is an interface. -/
def isInterface : TypeShape → Bool
  | interface _ _ => true
  | _ => false

/-- Whether the type is an input object type. -/
def isInputObject : TypeShape → Bool
  | input _ => true
  | _ => false

/-- Whether values of the type have no parts to select. -/
def isLeaf : TypeShape → Bool
  | scalar _ | enum _ => true
  | _ => false

/-- Whether values of the type have fields, directly or through an object type. -/
def isComposite : TypeShape → Bool
  | object _ _ | interface _ _ | union _ => true
  | _ => false

/-- Whether values of the type are values of one of several object types. -/
def isAbstract : TypeShape → Bool
  | interface _ _ | union _ => true
  | _ => false

/-- Whether the type may be that of an argument. -/
def isInput : TypeShape → Bool
  | scalar _ | enum _ | input _ => true
  | _ => false

/-- Whether the type may be that of a field. -/
def isOutput : TypeShape → Bool
  | input _ => false
  | _ => true

/-- The interfaces that a type names. -/
def interfaces : TypeShape → List String
  | object names _ | interface names _ => names
  | _ => []

/-- The fields that can be selected on a type. -/
def fields : TypeShape → List OutputField
  | object _ fields | interface _ fields => fields
  | _ => []

/-- The fields of an input type. -/
def slots : TypeShape → List InputSlot
  | input fields => fields
  | _ => []

/-- The names of the values of an enumeration. -/
def optionNames : TypeShape → List String
  | enum options => options.map (·.name)
  | _ => []

end TypeShape

/-- A directive that may be applied. -/
structure DirectiveSpec where
  description : Option String
  name : String
  arguments : List InputSlot
  repeatable : Bool
  locations : List String
deriving DecidableEq, Inhabited

/-- A schema. -/
structure Schema where
  description : Option String
  types : List SchemaType
  directives : List DirectiveSpec
  query : Option String
  mutation : Option String
  subscription : Option String
deriving DecidableEq, Inhabited

/-- The types that every schema describes itself by. -/
def introspectionTypes : List SchemaType :=
  let objects := ["__Schema", "__Type", "__Field", "__InputValue", "__EnumValue", "__Directive"]
  let kinds :=
    ["SCALAR", "OBJECT", "INTERFACE", "UNION", "ENUM", "INPUT_OBJECT", "LIST", "NON_NULL"]
  let enumeration := fun name options =>
    SchemaType.mk none name (.enum (options.map fun option => ⟨none, option, none⟩))
  objects.map (fun name => ⟨none, name, .object [] []⟩) ++
    [enumeration "__TypeKind" kinds, enumeration "__DirectiveLocation" directiveLocations]

/-- The scalars that need no declaration, as types. -/
def builtinTypes : List SchemaType :=
  builtinScalars.map fun name => ⟨none, name, .scalar none⟩

/-- The names of the types that need no declaration. -/
def standardNames : List String :=
  (builtinTypes ++ introspectionTypes).map (·.name)

/-- The reason of a deprecation that gives none. -/
def standardReason : String :=
  "No longer supported"

/-- The directives that need no definition. -/
def standardDirectives : List DirectiveSpec :=
  let condition := InputSlot.mk none "if" (.nonNull (.named "Boolean")) none none
  let selections := ["FIELD", "FRAGMENT_SPREAD", "INLINE_FRAGMENT"]
  [ ⟨none, "include", [condition], false, selections⟩,
    ⟨none, "skip", [condition], false, selections⟩,
    ⟨none, "deprecated",
      [⟨none, "reason", .named "String", some (.text standardReason), none⟩], false,
      ["FIELD_DEFINITION", "ARGUMENT_DEFINITION", "INPUT_FIELD_DEFINITION", "ENUM_VALUE"]⟩,
    ⟨none, "specifiedBy", [⟨none, "url", .nonNull (.named "String"), none, none⟩], false,
      ["SCALAR"]⟩ ]

namespace Schema

/-- The type of a name. -/
def type? (schema : Schema) (name : String) : Option SchemaType :=
  schema.types.find? (·.name == name)

/-- What the innermost name of a type stands for. -/
def shape? (schema : Schema) (type : TypeExpr) : Option TypeShape :=
  (schema.type? type.baseName).map (·.shape)

/-- The types that are declared, in order. -/
def declared (schema : Schema) : List SchemaType :=
  schema.types.filter fun type => !standardNames.contains type.name

/-- Whether the shape of the innermost name is known and of a certain sort. -/
def isOf (schema : Schema) (sort : TypeShape → Bool) (type : TypeExpr) : Bool :=
  (schema.shape? type).any sort

/-- The name of the root type for a kind of operation. -/
def root? (schema : Schema) : OperationKind → Option String
  | .query => schema.query
  | .mutation => schema.mutation
  | .subscription => schema.subscription

/-- The directive of a name. -/
def directive? (schema : Schema) (name : String) : Option DirectiveSpec :=
  schema.directives.find? (·.name == name)

/-- The fields that can be selected on a type. -/
def fieldsOf (schema : Schema) (typeName : String) : List OutputField :=
  ((schema.shape? (.named typeName)).map TypeShape.fields).getD []

/-- The fields of an input type. -/
def slotsOf (schema : Schema) (typeName : String) : List InputSlot :=
  ((schema.shape? (.named typeName)).map TypeShape.slots).getD []

/-- The field of every composite type that tells the name of the object type. -/
def typenameField : OutputField :=
  ⟨none, "__typename", [], .nonNull (.named "String"), none⟩

/-- The field of a name on a composite type. -/
def field? (schema : Schema) (typeName fieldName : String) : Option OutputField :=
  if fieldName = "__typename" then
    if schema.isOf TypeShape.isComposite (.named typeName) then some typenameField else none
  else
    (schema.fieldsOf typeName).find? (·.name == fieldName)

/-- Whether a name stands for an abstract type. -/
def isAbstract (schema : Schema) (name : String) : Bool :=
  schema.isOf TypeShape.isAbstract (.named name)

/-- The object types whose values are values of an abstract type, in declaration order for an
interface and in the order of the members for a union. -/
def possibleTypes (schema : Schema) (name : String) : List String :=
  match schema.shape? (.named name) with
  | some (.union members) => members
  | some (.interface _ _) =>
    (schema.types.filter fun type =>
      type.shape.isObject && type.shape.interfaces.contains name).map (·.name)
  | _ => []

/-- Whether an object type or an interface is below an abstract type. -/
def isBelow (schema : Schema) (abstract name : String) : Bool :=
  match schema.shape? (.named abstract) with
  | some (.union members) => members.contains name
  | some (.interface _ _) =>
    ((schema.shape? (.named name)).map TypeShape.interfaces).getD [] |>.contains abstract
  | _ => false

/-- Whether all values of one type are values of another. -/
def isSubtype (schema : Schema) (sub super : TypeExpr) : Bool :=
  match sub, super with
  | .nonNull sub, .nonNull super => isSubtype schema sub super
  | _, .nonNull _ => false
  | .nonNull sub, super => isSubtype schema sub super
  | .list sub, .list super => isSubtype schema sub super
  | .named sub, .named super => sub == super || schema.isBelow super sub
  | _, _ => false

/-- Whether a value may be of both composite types. -/
def overlap (schema : Schema) (a b : String) : Bool :=
  a == b ||
    if schema.isAbstract a then
      if schema.isAbstract b then (schema.possibleTypes a).any (schema.isBelow b)
      else schema.isBelow a b
    else
      schema.isAbstract b && schema.isBelow b a

end Schema

end RecordApi
