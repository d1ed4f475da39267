import RecordApi.Language.Parts
import RecordApi.Validation.Application

/-!
# Rules on definitions

A document that defines a schema has at most one schema definition and one root type for each kind
of operation, declares nothing twice, and extends only types that it defines.
-/

namespace RecordApi.Validation

open RecordApi.Language

/-- A name without a place. -/
def unplaced (text : String) : Name :=
  ⟨text, Pos.nowhere⟩

section

variable {σ : Type}

/-- There is at most one schema definition. -/
def loneSchema : Rule σ :=
  let step := fun (visit : Visit σ) (seen : Bool) =>
    match visit.entering, visit.part with
    | true, .schema _ =>
      (if seen then [⟨"Must provide only one schema definition.", []⟩] else [], true)
    | _, _ => ([], seen)
  Rule.remembering step false

/-- Each kind of operation has at most one root type. -/
def uniqueRoots : Rule σ :=
  let message := fun operation => "There can be only one " ++ operation ++ " type in schema."
  let step := fun (visit : Visit σ) (seen : List Name) =>
    match visit.entering, visit.part with
    | true, .schema d | true, .schemaExtension d =>
      Rule.repeated message (d.roots.map fun root => unplaced root.operation.text) seen
    | _, _ => ([], seen)
  Rule.remembering step []

/-- No two types have the same name. -/
def uniqueTypes : Rule σ :=
  let message := fun name => "There can be only one type named '" ++ name ++ "'."
  let step := fun (visit : Visit σ) (seen : List Name) =>
    match visit.entering, visit.part with
    | true, .type d => Rule.repeated message [unplaced d.name] seen
    | _, _ => ([], seen)
  Rule.remembering step []

/-- No member is declared twice on a type, its extensions included. -/
def uniqueMembers (members : TypeBody → List String) (message : String → String → String) :
    Rule σ :=
  let step := fun (visit : Visit σ) (memory : List (String × List Name)) =>
    match visit.entering, visit.part with
    | true, .type d | true, .typeExtension d =>
      let (reports, seen) := Rule.repeated (message d.name) ((members d.body).map unplaced)
        ((memory.lookup d.name).getD [])
      (reports, (d.name, seen) :: memory)
    | _, _ => ([], memory)
  Rule.remembering step []

/-- No value is declared twice on an enumeration. -/
def uniqueEnumValues : Rule σ :=
  uniqueMembers (fun | .enum values => values.map (·.name) | _ => [])
    fun type value => "Enum value '" ++ type ++ "." ++ value ++ "' can only be defined once."

/-- The names of the fields of a type. -/
def fieldNames : TypeBody → List String
  | .object _ fields | .interface _ fields => fields.map (·.name)
  | .input fields => fields.map (·.name)
  | _ => []

/-- No field is declared twice on a type. -/
def uniqueFields : Rule σ :=
  uniqueMembers fieldNames
    fun type field => "Field '" ++ type ++ "." ++ field ++ "' can only be defined once."

/-- The reports on arguments that are declared more than once. -/
def repeatedArgumentDefs (owner : String) (arguments : List InputDef) : List Report :=
  (Rule.duplicates (arguments.map (·.name))).map fun name =>
    ⟨"Argument '" ++ owner ++ "(" ++ name ++ ":)' can only be defined once.", []⟩

/-- No argument is declared twice on a field or a directive. -/
def uniqueArgumentDefs : Rule σ :=
  let ofFields := fun (d : TypeDef) =>
    match d.body with
    | .object _ fields | .interface _ fields =>
      fields.flatMap fun f => repeatedArgumentDefs (d.name ++ "." ++ f.name) f.arguments
    | _ => []
  Rule.entering fun part _ =>
    match part with
    | .type d | .typeExtension d => ofFields d
    | .directiveDef d => repeatedArgumentDefs ("@" ++ d.name) d.arguments
    | _ => []

/-- No two directives have the same name. -/
def uniqueDirectiveDefs : Rule σ :=
  let message := fun name => "There can be only one directive named '@" ++ name ++ "'."
  let step := fun (visit : Visit σ) (seen : List Name) =>
    match visit.entering, visit.part with
    | true, .directiveDef d => Rule.repeated message [unplaced d.name] seen
    | _, _ => ([], seen)
  Rule.remembering step []

/-- The words for the kind of a type in messages about extensions. -/
def kindWords : TypeBody → String
  | .input _ => "input object"
  | body => body.word

/-- Extensions extend types that the document defines, and of the same kind. -/
def possibleExtensions (definitions : List Definition) : Rule σ :=
  let types := definitions.filterMap fun
    | .type d => some d
    | _ => none
  Rule.entering fun part _ =>
    match part with
    | .typeExtension d =>
      match types.reverse.find? (·.name == d.name) with
      | some defined =>
        if defined.body.word = d.body.word then []
        else [⟨"Cannot extend non-" ++ kindWords d.body ++ " type '" ++ d.name ++ "'.", []⟩]
      | none =>
        [⟨"Cannot extend type '" ++ d.name ++ "' because it is not defined." ++
          Text.didYouMean (Text.similarNames d.name (types.map (·.name))), []⟩]
    | _ => []

/-- The rules on documents that define a schema. -/
def declarationRules (definitions : List Definition) : List (Rule σ) :=
  let vocabulary := Vocabulary.extend [] standardDirectives definitions
  [ loneSchema,
    uniqueRoots,
    uniqueTypes,
    uniqueEnumValues,
    uniqueFields,
    uniqueArgumentDefs,
    uniqueDirectiveDefs,
    knownTypes vocabulary,
    knownDirectives vocabulary,
    uniqueDirectives vocabulary,
    possibleExtensions definitions,
    knownDirectiveArguments vocabulary,
    uniqueArguments,
    uniqueInputFields,
    requiredDirectiveArguments vocabulary ]

end

/-- What is wrong with a document that defines a schema. -/
def declarationReports (definitions : List Definition) : List Report :=
  Rule.reports (declarationRules definitions) (documentVisits (fun _ scope => scope) definitions ())

end RecordApi.Validation
