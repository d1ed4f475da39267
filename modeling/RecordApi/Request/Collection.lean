import RecordApi.Request.Arguments

/-!
# Collecting the fields of a selection

What is selected from an object is gathered field by field under the keys of the answer, in the
order of their first use. Fragments take part where their condition holds, each once.
-/

namespace RecordApi.Request

open RecordApi.Language

/-- A field as it is selected at one place. -/
structure FieldNode where
  head : FieldHead
  selections : List Selection
deriving Inhabited

/-- The fields that answer under one key: the first one and the further ones. -/
structure FieldGroup where
  key : String
  first : FieldNode
  more : List FieldNode
deriving Inhabited

namespace FieldGroup

/-- All fields of a group. -/
def nodes (group : FieldGroup) : List FieldNode :=
  group.first :: group.more

/-- The places of the fields of a group. -/
def places (group : FieldGroup) : List Pos :=
  group.nodes.map (·.head.pos)

/-- What is selected below the fields of a group. -/
def selections (group : FieldGroup) : List Selection :=
  group.nodes.flatMap (·.selections)

end FieldGroup

/-- Adds a field to the group of its key, or at the end as a new group. -/
def addField (node : FieldNode) : List FieldGroup → List FieldGroup
  | [] => [⟨node.head.key, node, []⟩]
  | group :: groups =>
    if group.key = node.head.key then { group with more := group.more ++ [node] } :: groups
    else group :: addField node groups

/-- What a selection is collected from: the schema, the fragments and the variables of a request. -/
structure Sources where
  schema : Schema
  fragments : List FragmentDef
  bindings : VariableValues

/-- The fragment of a name; of two the later counts. -/
def Sources.fragment? (sources : Sources) (name : String) : Option FragmentDef :=
  sources.fragments.reverse.find? (·.name.text == name)

/-- Whether an object of a type fulfils a condition. -/
def fulfils (schema : Schema) (typeName condition : String) : Bool :=
  condition == typeName || schema.isBelow condition typeName

/-- The groups of fields and the fragments that have been met. -/
structure Gathered where
  groups : List FieldGroup := []
  met : List String := []
deriving Inhabited

/-- Gathers the fields of selections from an object of a type. The number bounds the steps. -/
def gather (sources : Sources) (typeName : String) :
    Nat → List Selection → Gathered → Except ArgumentFault Gathered
  | 0, _, gathered => .ok gathered
  | _, [], gathered => .ok gathered
  | steps + 1, selection :: rest, gathered => do
    match selection with
    | .field head selections =>
      if ← isIncluded sources.schema sources.bindings head.directives then
        gather sources typeName steps rest
          { gathered with groups := addField ⟨head, selections⟩ gathered.groups }
      else
        gather sources typeName steps rest gathered
    | .inline _ condition directives selections =>
      let taken ← isIncluded sources.schema sources.bindings directives
      if taken && condition.all (fun c => fulfils sources.schema typeName c.text) then
        gather sources typeName steps (selections ++ rest) gathered
      else
        gather sources typeName steps rest gathered
    | .spread _ name directives =>
      if gathered.met.contains name.text then gather sources typeName steps rest gathered
      else if ← isIncluded sources.schema sources.bindings directives then
        let gathered := { gathered with met := name.text :: gathered.met }
        match sources.fragment? name.text with
        | some d =>
          if fulfils sources.schema typeName d.condition.text then
            gather sources typeName steps (d.selections ++ rest) gathered
          else
            gather sources typeName steps rest gathered
        | none => gather sources typeName steps rest gathered
      else
        gather sources typeName steps rest gathered

/-- A number of steps that is enough to gather selections: no fragment is met twice. -/
def Sources.stepsFor (sources : Sources) (selections : List Selection) : Nat :=
  let sizes := sources.fragments.map fun d => selectionsSize d.selections
  selectionsSize selections + sizes.foldl (· + ·) 0 + 1

/-- The groups of fields of selections from an object of a type. -/
def fieldGroups (sources : Sources) (typeName : String) (selections : List Selection) :
    Except ArgumentFault (List FieldGroup) := do
  return (← gather sources typeName (sources.stepsFor selections) selections {}).groups

end RecordApi.Request
