import RecordApi.Language.Document

/-!
# Visiting the parts of a document

The parts of a document are visited in the order in which they stand, each once on entering and
once on leaving. A visit carries a scope, which a part may narrow for all that lies inside it.
-/

namespace RecordApi.Validation

open RecordApi.Language

/-- A part of a document that is visited. -/
inductive Part where
  | document
  | operation (d : OperationDef)
  | fragment (d : FragmentDef)
  | variableDef (d : VariableDef)
  | selections (selections : List Selection)
  | field (head : FieldHead) (selections : List Selection)
  | spread (pos : Pos) (name : Name) (directives : List Directive)
  | inline (pos : Pos) (condition : Option Name) (directives : List Directive)
  | directive (location : String) (d : Directive)
  | argument (a : Argument)
  | value (v : Value)
  | valueField (name : Name) (value : Value)
  /-- A type that is named, in a definition of the schema or elsewhere. -/
  | typeName (defining : Bool) (name : Name)
  | schema (d : SchemaDef)
  | schemaExtension (d : SchemaDef)
  | type (d : TypeDef)
  | typeExtension (d : TypeDef)
  | directiveDef (d : DirectiveDef)
  | fieldDef (d : FieldDef)
  | inputDef (d : InputDef)
  | enumValueDef (d : EnumValueDef)
deriving Inhabited

/-- Entering or leaving a part, within a scope. -/
structure Visit (σ : Type) where
  entering : Bool
  part : Part
  scope : σ

/-- How parts narrow a scope. -/
abbrev Narrowing (σ : Type) := Part → σ → σ

section

variable {σ : Type} (narrow : Narrowing σ)

/-- The visits of a part and of what lies inside it. -/
def around (part : Part) (inside : σ → List (Visit σ)) (scope : σ) : List (Visit σ) :=
  let scope := narrow part scope
  ⟨true, part, scope⟩ :: inside scope ++ [⟨false, part, scope⟩]

/-- The visits of a part with nothing inside it. -/
def alone (part : Part) (scope : σ) : List (Visit σ) :=
  around narrow part (fun _ => []) scope

/-- The visits of one thing after another. -/
def each {α : Type} (visits : α → σ → List (Visit σ)) (things : List α) (scope : σ) :
    List (Visit σ) :=
  things.flatMap fun thing => visits thing scope

/-- The visits of some things and then of others. -/
def andThen (first second : σ → List (Visit σ)) (scope : σ) : List (Visit σ) :=
  first scope ++ second scope

mutual

/-- The visits of a value. -/
def valueVisits : Value → σ → List (Visit σ)
  | .list pos items, scope =>
    around narrow (.value (.list pos items)) (fun scope => itemVisits items scope) scope
  | .object pos fields, scope =>
    around narrow (.value (.object pos fields)) (fun scope => valueFieldVisits fields scope) scope
  | value, scope => alone narrow (.value value) scope

/-- The visits of the items of a list. -/
def itemVisits : List Value → σ → List (Visit σ)
  | [], _ => []
  | item :: items, scope => valueVisits item scope ++ itemVisits items scope

/-- The visits of the fields of an object. -/
def valueFieldVisits : List (Name × Value) → σ → List (Visit σ)
  | [], _ => []
  | (name, value) :: fields, scope =>
    around narrow (.valueField name value) (fun scope => valueVisits value scope) scope ++
      valueFieldVisits fields scope

end

/-- The visits of an argument. -/
def argumentVisits (a : Argument) (scope : σ) : List (Visit σ) :=
  around narrow (.argument a) (valueVisits narrow a.value) scope

/-- The visits of a directive. -/
def directiveVisits (location : String) (d : Directive) (scope : σ) : List (Visit σ) :=
  around narrow (.directive location d) (each (argumentVisits narrow) d.arguments) scope

/-- The visits of the directives at a location. -/
def directivesVisits (location : String) (ds : List Directive) (scope : σ) : List (Visit σ) :=
  each (directiveVisits narrow location) ds scope

/-- The visit of a type that is named. -/
def typeVisits (defining : Bool) (name : Name) (scope : σ) : List (Visit σ) :=
  alone narrow (.typeName defining name) scope

/-- The visits of a default. -/
def defaultVisits (default : Option Value) (scope : σ) : List (Visit σ) :=
  each (valueVisits narrow) default.toList scope

/-- The visits of a variable's definition. -/
def variableVisits (d : VariableDef) (scope : σ) : List (Visit σ) :=
  around narrow (.variableDef d)
    (andThen (typeVisits narrow false ⟨d.type.baseName, d.basePos⟩)
      (andThen (defaultVisits narrow d.default)
        (directivesVisits narrow "VARIABLE_DEFINITION" d.directives))) scope

mutual

/-- The visits of one item of a selection. -/
def selectionVisits : Selection → σ → List (Visit σ)
  | .field head selections, scope =>
    around narrow (.field head selections) (fun scope =>
      each (argumentVisits narrow) head.arguments scope ++
        directivesVisits narrow "FIELD" head.directives scope ++
        (if selections.isEmpty then []
          else around narrow (.selections selections)
            (fun scope => selectionListVisits selections scope) scope)) scope
  | .spread pos name directives, scope =>
    around narrow (.spread pos name directives)
      (directivesVisits narrow "FRAGMENT_SPREAD" directives) scope
  | .inline pos condition directives selections, scope =>
    around narrow (.inline pos condition directives) (fun scope =>
      each (typeVisits narrow false) condition.toList scope ++
        directivesVisits narrow "INLINE_FRAGMENT" directives scope ++
        around narrow (.selections selections)
          (fun scope => selectionListVisits selections scope) scope) scope

/-- The visits of the items of a selection. -/
def selectionListVisits : List Selection → σ → List (Visit σ)
  | [], _ => []
  | selection :: selections, scope =>
    selectionVisits selection scope ++ selectionListVisits selections scope

end

/-- The visits of a selection as a whole. -/
def selectionSetVisits (selections : List Selection) (scope : σ) : List (Visit σ) :=
  around narrow (.selections selections) (selectionListVisits narrow selections) scope

/-- Where the directives of an operation stand. -/
def operationLocation : OperationKind → String
  | .query => "QUERY"
  | .mutation => "MUTATION"
  | .subscription => "SUBSCRIPTION"

/-- The visits of an operation. -/
def operationVisits (d : OperationDef) (scope : σ) : List (Visit σ) :=
  around narrow (.operation d)
    (andThen (each (variableVisits narrow) d.parameters)
      (andThen (directivesVisits narrow (operationLocation d.operation) d.directives)
        (selectionSetVisits narrow d.selections))) scope

/-- The visits of a fragment. -/
def fragmentVisits (d : FragmentDef) (scope : σ) : List (Visit σ) :=
  around narrow (.fragment d)
    (andThen (each (variableVisits narrow) d.parameters)
      (andThen (typeVisits narrow false d.condition)
        (andThen (directivesVisits narrow "FRAGMENT_DEFINITION" d.directives)
          (selectionSetVisits narrow d.selections)))) scope

/-- The visit of a type that a definition names. -/
def mentionVisits (name : String) (scope : σ) : List (Visit σ) :=
  typeVisits narrow true ⟨name, Pos.nowhere⟩ scope

/-- The visits of an argument's or an input field's definition. -/
def inputDefVisits (location : String) (d : InputDef) (scope : σ) : List (Visit σ) :=
  around narrow (.inputDef d)
    (andThen (mentionVisits narrow d.type.baseName)
      (andThen (defaultVisits narrow d.default)
        (directivesVisits narrow location d.directives))) scope

/-- The visits of a field's definition. -/
def fieldDefVisits (d : FieldDef) (scope : σ) : List (Visit σ) :=
  around narrow (.fieldDef d)
    (andThen (each (inputDefVisits narrow "ARGUMENT_DEFINITION") d.arguments)
      (andThen (mentionVisits narrow d.type.baseName)
        (directivesVisits narrow "FIELD_DEFINITION" d.directives))) scope

/-- The visits of an enumeration value's definition. -/
def enumValueDefVisits (d : EnumValueDef) (scope : σ) : List (Visit σ) :=
  around narrow (.enumValueDef d) (directivesVisits narrow "ENUM_VALUE" d.directives) scope

/-- The visits of what is inside a type's definition. Inside an extension, the fields of an input
type count as arguments. -/
def bodyVisits (inExtension : Bool) (d : TypeDef) : σ → List (Visit σ) :=
  let directives := fun location => directivesVisits narrow location d.directives
  match d.body with
  | .scalar => directives "SCALAR"
  | .object interfaces fields =>
    andThen (each (mentionVisits narrow) interfaces)
      (andThen (directives "OBJECT") (each (fieldDefVisits narrow) fields))
  | .interface interfaces fields =>
    andThen (each (mentionVisits narrow) interfaces)
      (andThen (directives "INTERFACE") (each (fieldDefVisits narrow) fields))
  | .union members => andThen (directives "UNION") (each (mentionVisits narrow) members)
  | .enum values => andThen (directives "ENUM") (each (enumValueDefVisits narrow) values)
  | .input fields =>
    let location := if inExtension then "ARGUMENT_DEFINITION" else "INPUT_FIELD_DEFINITION"
    andThen (directives "INPUT_OBJECT") (each (inputDefVisits narrow location) fields)

/-- The visits of what is inside a schema's definition. -/
def schemaVisits (d : SchemaDef) : σ → List (Visit σ) :=
  andThen (directivesVisits narrow "SCHEMA" d.directives)
    (each (fun root => mentionVisits narrow root.type) d.roots)

/-- The visits of a definition. -/
def definitionVisits : Definition → σ → List (Visit σ)
  | .operation d => operationVisits narrow d
  | .fragment d => fragmentVisits narrow d
  | .schema d => around narrow (.schema d) (schemaVisits narrow d)
  | .schemaExtension d => around narrow (.schemaExtension d) (schemaVisits narrow d)
  | .type d => around narrow (.type d) (bodyVisits narrow false d)
  | .typeExtension d => around narrow (.typeExtension d) (bodyVisits narrow true d)
  | .directive d =>
    around narrow (.directiveDef d)
      (each (inputDefVisits narrow "ARGUMENT_DEFINITION") d.arguments)

/-- The visits of a whole document. -/
def documentVisits (definitions : List Definition) (scope : σ) : List (Visit σ) :=
  around narrow .document (each (definitionVisits narrow) definitions) scope

end

/-- Gives the types that definitions of the schema name their places, in the order in which they are
entered. -/
def placeMentions {σ : Type} : List Pos → List (Visit σ) → List (Visit σ)
  | pos :: places, ⟨true, .typeName true name, scope⟩ :: visits =>
    ⟨true, .typeName true ⟨name.text, pos⟩, scope⟩ :: placeMentions places visits
  | places, visit :: visits => visit :: placeMentions places visits
  | _, [] => []

/-- The directives that are applied to a part. -/
def Part.directives : Part → List Directive
  | operation d => d.directives
  | fragment d => d.directives
  | variableDef d => d.directives
  | field head _ => head.directives
  | spread _ _ directives | inline _ _ directives => directives
  | schema d | schemaExtension d => d.directives
  | type d | typeExtension d => d.directives
  | fieldDef d => d.directives
  | inputDef d => d.directives
  | enumValueDef d => d.directives
  | _ => []

end RecordApi.Validation
