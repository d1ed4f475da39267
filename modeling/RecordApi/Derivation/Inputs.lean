import RecordApi.Options
import RecordApi.Language.Parts

/-!
# Derived input types

An input type is derived from a type by going over its fields: scalars and enumerations are kept,
and an object field becomes a field of the input type derived from that object. In update mode every
field may be left out. Each input type is derived once, and never when the document declares it.
-/

namespace RecordApi

open RecordApi.Language

/-- The names of all declarations of a document, those of extensions included. -/
def declaredNames (document : Document) : List String :=
  document.definitions.filterMap Definition.name?

/-- The names of the types that serve queries and mutations. -/
structure RootNames where
  query : String
  mutation : String
deriving DecidableEq, Repr, Inhabited

namespace RootNames

/-- The roots with the one for a kind of operation replaced. -/
def set (names : RootNames) (root : RootDef) : RootNames :=
  match root.operation with
  | .query => { names with query := root.type }
  | .mutation => { names with mutation := root.type }
  | .subscription => names

/-- The roots that schema definitions name, the last one counting, and otherwise the usual ones. -/
def ofDocument (document : Document) : RootNames :=
  (document.definitions.flatMap fun
    | .schema d => d.roots
    | _ => []).foldl set ⟨"Query", "Mutation"⟩

end RootNames

/-- The fields that hold the times of creation and last change. -/
def timestampFields : List String :=
  ["created", "modified"]

/-- What a derivation works from: the options, the document's types, the names that are declared,
the descriptors of the root types, and the names of the roots. -/
structure Basis where
  options : Options
  kinds : KindTable
  declared : List String
  descriptors : List (String × Descriptor)
  types : List TypeDef
  roots : RootNames

namespace Basis

/-- The basis that a document provides. -/
def ofDocument (document : Document) (options : Options) (declared : Option (List String))
    (descriptors : List (String × Descriptor)) : Basis :=
  { options := options
    kinds := KindTable.ofDocument document
    declared := declared.getD (declaredNames document)
    descriptors := descriptors
    types := document.types.filter fun d =>
      match d.body with
      | .object _ _ | .interface _ _ => true
      | _ => false
    roots := RootNames.ofDocument document }

/-- The object or interface of a name; of two definitions the later counts. -/
def type? (basis : Basis) (name : String) : Option TypeDef :=
  basis.types.reverse.find? (·.name == name)

/-- The data fields of a root type that its input types have. -/
def inputFields (basis : Basis) (descriptor : Descriptor) : List DataField :=
  if basis.options.timestamps then
    descriptor.fields.filter fun f => !timestampFields.contains f.name
  else
    descriptor.fields

/-- The fields that the input types of a name have, if there is such a type to derive them from. -/
def nestedFields? (basis : Basis) (name : String) : Option (List DataField) :=
  match basis.descriptors.lookup name with
  | some descriptor => some (basis.inputFields descriptor)
  | none =>
    (basis.type? name).map fun d =>
      (Definition.type d).fields.map (Descriptor.dataField basis.kinds)

end Basis

/-- Whether input types are for the creation or for the update of records. -/
inductive InputMode where
  | create
  | update
deriving DecidableEq, Repr

/-- The name of the input type of a type. -/
def InputMode.inputName (mode : InputMode) (typeName : String) : String :=
  match mode with
  | create => typeName ++ "Input"
  | update => typeName ++ "UpdateInput"

/-- The type of an input field: in update mode it may always be left out. -/
def InputMode.fieldType (mode : InputMode) (ref : TypeRef) : TypeRef :=
  match mode with
  | create => ref
  | update => ref.nullable

/-- The names of the input types derived so far, and the definitions derived in this run. -/
structure Derived where
  names : List String
  inputs : List TypeDef

/-- A derivation: what has been derived stays known when it fails. -/
abbrev Derive := ExceptT Failure (StateM Derived)

namespace Derive

/-- An input type with the given fields. -/
def inputType (name : String) (fields : List (String × TypeRef)) : TypeDef :=
  { description := none
    name := name
    directives := []
    body := .input (fields.map fun (name, ref) => ⟨none, name, ref.toExpr, none, []⟩) }

/-- Adds a derived input type. -/
def emit (d : TypeDef) : Derive Unit :=
  modify fun derived => ⟨derived.names ++ [d.name], derived.inputs ++ [d]⟩

/-- The input field for a data field, with nested input types derived by `nested`. A field of a
type that has no input types is left out. -/
def inputField (basis : Basis) (mode : InputMode)
    (nested : String → List DataField → Derive String) (field : DataField) :
    Derive (Option (String × TypeRef)) := do
  match field.type.base with
  | .object name =>
    match basis.nestedFields? name with
    | none => return none
    | some fields =>
      let inputName ← nested name fields
      return some (field.name, mode.fieldType (field.type.rename fun _ => .object inputName))
  | _ => return some (field.name, mode.fieldType field.type)

/-- The input fields for data fields. -/
def inputFields (basis : Basis) (mode : InputMode)
    (nested : String → List DataField → Derive String) :
    List DataField → Derive (List (String × TypeRef))
  | [] => return []
  | field :: rest => do
    let first ← inputField basis mode nested field
    let more ← inputFields basis mode nested rest
    return match first with
      | some f => f :: more
      | none => more

/-- Derives the input type of a type with the given fields and answers its name. The number bounds
the depth, and `active` holds the names of the input types that are being derived. -/
def input (basis : Basis) (mode : InputMode) :
    Nat → List String → String → List DataField → Derive String
  | bound, active, typeName, fields => do
    let inputName := mode.inputName typeName
    if basis.declared.contains inputName then return inputName
    if (← get).names.contains inputName || active.contains inputName then return inputName
    match bound with
    | 0 => return inputName
    | bound + 1 =>
      let inputs ← inputFields basis mode (input basis mode bound (inputName :: active)) fields
      if inputs.isEmpty then throw (.emptyInput inputName typeName)
      emit (inputType inputName inputs)
      return inputName

/-- A depth that no derivation reaches: an input type is active at most once for each known type. -/
def depth (basis : Basis) : Nat :=
  basis.types.length + basis.descriptors.length + 2

end Derive

end RecordApi
