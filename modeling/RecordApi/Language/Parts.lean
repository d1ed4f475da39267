import RecordApi.Language.Printer

/-!
# Parts of definitions

What definitions of different kinds have in common: descriptions, directives, interfaces and fields.
A definition that has no place for such a part has none of it.
-/

namespace RecordApi.Language

namespace Definition

/-- The description of a definition. -/
def description : Definition → Option Description
  | operation _ | fragment _ | schemaExtension _ | typeExtension _ => none
  | schema d => d.description
  | type d => d.description
  | directive d => d.description

/-- The directives that are applied to a definition. -/
def directives : Definition → List Directive
  | operation d => d.directives
  | fragment d => d.directives
  | schema d | schemaExtension d => d.directives
  | type d | typeExtension d => d.directives
  | directive _ => []

/-- The interfaces that a definition names. -/
def interfaces : Definition → List String
  | type d | typeExtension d =>
    match d.body with
    | .object names _ | .interface names _ => names
    | _ => []
  | _ => []

/-- The fields of a definition. Those of an input type are fields without arguments. -/
def fields : Definition → List FieldDef
  | type d | typeExtension d =>
    match d.body with
    | .object _ fields | .interface _ fields => fields
    | .input fields => fields.map InputDef.toField
    | _ => []
  | _ => []

/-- Whether the definition is an extension. -/
def isExtension : Definition → Bool
  | schemaExtension _ | typeExtension _ => true
  | _ => false

end Definition

end RecordApi.Language
