import RecordApi.Schema.Basic
import RecordApi.Text.Similar
import RecordApi.Validation.Rule

/-!
# Rules on applied directives and named types

What is named anywhere in a document must exist: types, directives and their arguments. Directives
stand only where they may, and no argument or input field is given twice. These rules hold for
definitions and for queries alike.
-/

namespace RecordApi.Validation

open RecordApi.Language

/-- What the applications of a directive must agree with. -/
structure DirectiveUse where
  name : String
  arguments : List String
  required : List (String × TypeExpr)
  repeatable : Bool
  locations : List String
deriving Repr, Inhabited

namespace DirectiveUse

/-- The use of a directive of a schema. -/
def ofSpec (d : DirectiveSpec) : DirectiveUse :=
  { name := d.name
    arguments := d.arguments.map (·.name)
    required := (d.arguments.filter InputSlot.isRequired).map fun slot => (slot.name, slot.type)
    repeatable := d.repeatable
    locations := d.locations }

/-- The use of a directive that a document defines. -/
def ofDef (d : DirectiveDef) : DirectiveUse :=
  { name := d.name
    arguments := d.arguments.map (·.name)
    required := (d.arguments.filter fun a => a.type.isNonNull && a.default.isNone).map
      fun a => (a.name, a.type)
    repeatable := d.repeatable
    locations := d.locations }

end DirectiveUse

/-- The types and directives that a document may name. -/
structure Vocabulary where
  typeNames : List String
  directives : List DirectiveUse

namespace Vocabulary

/-- What exists before a document together with what the document defines. Of two definitions of a
directive the later counts. -/
def extend (typeNames : List String) (directives : List DirectiveSpec)
    (definitions : List Definition) : Vocabulary :=
  { typeNames := typeNames ++ definitions.filterMap fun
      | .type d => some d.name
      | _ => none
    directives := (definitions.filterMap fun
      | .directive d => some (DirectiveUse.ofDef d)
      | _ => none).reverse ++ directives.map DirectiveUse.ofSpec }

/-- The use of a directive. -/
def directive? (vocabulary : Vocabulary) (name : String) : Option DirectiveUse :=
  vocabulary.directives.find? (·.name == name)

end Vocabulary

section

variable {σ : Type} (vocabulary : Vocabulary)

/-- Every named type exists. In definitions the standard types need no declaration. -/
def knownTypes : Rule σ :=
  Rule.entering fun part _ =>
    match part with
    | .typeName defining name =>
      if vocabulary.typeNames.contains name.text ||
          (defining && standardNames.contains name.text) then []
      else
        let known :=
          if defining then standardNames ++ vocabulary.typeNames else vocabulary.typeNames
        [⟨"Unknown type '" ++ name.text ++ "'." ++
          Text.didYouMean (Text.similarNames name.text known), [name.pos]⟩]
    | _ => []

/-- The words for a location of directives. -/
def locationWords (location : String) : String :=
  location.map fun c => if c = '_' then ' ' else c.toLower

/-- Every applied directive exists and may stand where it does. -/
def knownDirectives : Rule σ :=
  Rule.entering fun part _ =>
    match part with
    | .directive location d =>
      match vocabulary.directive? d.name with
      | none => [⟨"Unknown directive '@" ++ d.name ++ "'.", [d.pos]⟩]
      | some use =>
        if use.locations.contains location then []
        else
          [⟨"Directive '@" ++ d.name ++ "' may not be used on " ++ locationWords location ++ ".",
            [d.pos]⟩]
    | _ => []

/-- Where directives count as applied together: all definitions of the schema, all definitions of
one type, or one part alone. -/
inductive DirectiveHost where
  | schema
  | type (name : String)
  | part
deriving DecidableEq

/-- Where the directives of a part count as applied. -/
def directiveHost : Part → DirectiveHost
  | .schema _ | .schemaExtension _ => .schema
  | .type d | .typeExtension d => .type d.name
  | _ => .part

/-- No directive is applied twice together unless it is repeatable. -/
def uniqueDirectives : Rule σ :=
  let step := fun (visit : Visit σ) (memory : List (DirectiveHost × List Name)) =>
    if visit.entering then
      let host := directiveHost visit.part
      let names := visit.part.directives.filterMap fun d =>
        match vocabulary.directive? d.name with
        | some use => if use.repeatable then none else some (⟨d.name, d.pos⟩ : Name)
        | none => none
      let message := fun name =>
        "The directive '@" ++ name ++ "' can only be used once at this location."
      let (reports, seen) := Rule.repeated message names ((memory.lookup host).getD [])
      (reports, if host = .part then memory else (host, seen) :: memory)
    else
      ([], memory)
  Rule.remembering step []

/-- The reports on arguments of a directive that it does not have. -/
def unknownDirectiveArguments (d : Directive) : List Report :=
  match vocabulary.directive? d.name with
  | none => []
  | some use =>
    (d.arguments.filter fun a => !use.arguments.contains a.name.text).map fun a =>
      ⟨"Unknown argument '" ++ a.name.text ++ "' on directive '@" ++ d.name ++ "'." ++
        Text.didYouMean (Text.similarNames a.name.text use.arguments), [a.name.pos]⟩

/-- Directives are given no arguments but their own. -/
def knownDirectiveArguments : Rule σ :=
  Rule.entering fun part _ =>
    match part with
    | .directive _ d => unknownDirectiveArguments vocabulary d
    | _ => []

/-- The reports on arguments that are given more than once. -/
def repeatedArguments (arguments : List Argument) : List Report :=
  (Rule.duplicates (arguments.map (·.name.text))).map fun name =>
    ⟨"There can be only one argument named '" ++ name ++ "'.",
      (arguments.filter (·.name.text == name)).map (·.name.pos)⟩

/-- No argument is given twice. -/
def uniqueArguments : Rule σ :=
  Rule.entering fun part _ =>
    match part with
    | .directive _ d => repeatedArguments d.arguments
    | .field head _ => repeatedArguments head.arguments
    | _ => []

/-- No field of an input object is given twice. The memory holds the names met in the objects that
are open, the innermost first. -/
def uniqueInputFields : Rule σ :=
  let message := fun name => "There can be only one input field named '" ++ name ++ "'."
  let step := fun (visit : Visit σ) (memory : List (List Name)) =>
    match visit.entering, visit.part with
    | true, .value (.object _ _) => ([], [] :: memory)
    | false, .value (.object _ _) => ([], memory.drop 1)
    | true, .valueField name _ =>
      let (reports, seen) := Rule.repeated message [name] (memory.headD [])
      (reports, seen :: memory.drop 1)
    | _, _ => ([], memory)
  Rule.remembering step []

/-- The reports on required arguments that a directive is not given. -/
def missingDirectiveArguments (d : Directive) : List Report :=
  match vocabulary.directive? d.name with
  | none => []
  | some use =>
    (use.required.filter fun (name, _) => !d.arguments.any (·.name.text == name)).map
      fun (name, type) =>
        ⟨"Directive '@" ++ d.name ++ "' argument '" ++ name ++ "' of type '" ++ type.text ++
          "' is required, but it was not provided.", [d.pos]⟩

/-- Directives are given all arguments that they require. -/
def requiredDirectiveArguments : Rule σ :=
  Rule.leaving fun part _ =>
    match part with
    | .directive _ d => missingDirectiveArguments vocabulary d
    | _ => []

end

end RecordApi.Validation
