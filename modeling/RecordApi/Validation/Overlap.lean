import RecordApi.Language.Printer
import RecordApi.Validation.Fragments
import RecordApi.Validation.Selection

/-!
# Fields that answer under one key

Fields that are selected under one key must be the same field with the same arguments, unless no
object can have both, and what is selected below them must agree in the same way. Fragments are
compared pair by pair, each pair once.
-/

namespace RecordApi.Validation

open RecordApi.Language

/-- A selected field with the type that it is selected from. -/
structure FieldUse where
  parent : Option String
  head : FieldHead
  selections : List Selection
  type : Option TypeExpr
deriving Inhabited

/-- The fields of a selection by key in the order of their first use, and the fragments that it
spreads. -/
structure Collected where
  source : List Selection
  fields : List (String × List FieldUse)
  spreads : List String
deriving Inhabited

/-- A disagreement of fields under a key, with the places of the fields on both sides. -/
structure Conflict where
  key : String
  reason : String
  first : List Pos
  second : List Pos

/-- A pair of fragments that has been compared, and whether no object can have fields of both. -/
structure ComparedPair where
  first : String
  second : String
  exclusive : Bool

/-- Comparing keeps the pairs of fragments that have been compared. -/
abbrev Comparing := StateM (List ComparedPair)

/-- Adds a field under its key. -/
def addUse (use : FieldUse) : List (String × List FieldUse) → List (String × List FieldUse)
  | [] => [(use.head.key, [use])]
  | (key, uses) :: rest =>
    if key = use.head.key then (key, uses ++ [use]) :: rest else (key, uses) :: addUse use rest

mutual

/-- A value with the fields of all objects in it sorted by name. -/
def sortValue : Value → Value
  | .list pos items => .list pos (sortItems items)
  | .object pos fields =>
    .object pos ((sortFields fields).mergeSort fun a b => Text.naturalLe a.1.text b.1.text)
  | value => value

/-- The items of a list with the objects in them sorted. -/
def sortItems : List Value → List Value
  | [] => []
  | item :: items => sortValue item :: sortItems items

/-- The fields of an object with the objects in them sorted. -/
def sortFields : List (Name × Value) → List (Name × Value)
  | [] => []
  | (name, value) :: fields => (name, sortValue value) :: sortFields fields

end

/-- The text of the arguments of a field without regard to their order. -/
def argumentsText (head : FieldHead) : String :=
  (sortValue (.object Pos.nowhere (head.arguments.map fun a => (a.name, a.value)))).print

section

variable (schema : Schema) (parts : RequestParts)

mutual

/-- Adds one item of a selection to what is collected. -/
def collectItem (parent : Option String) : Selection → Collected → Collected
  | .field head selections, found =>
    let field := parent.bind fun name =>
      (schema.fieldsOf name).find? (·.name == head.name)
    { found with
      fields := addUse ⟨parent, head, selections, field.map (·.type)⟩ found.fields }
  | .spread _ name _, found =>
    { found with spreads := (found.spreads ++ [name.text]).eraseDups }
  | .inline _ none _ selections, found => collectItems parent selections found
  | .inline _ (some condition) _ selections, found =>
    collectItems ((schema.type? condition.text).map (·.name)) selections found

/-- Adds the items of a selection to what is collected. -/
def collectItems (parent : Option String) : List Selection → Collected → Collected
  | [], found => found
  | selection :: selections, found =>
    collectItems parent selections (collectItem parent selection found)

end

/-- The fields and spreads of a selection from a type. -/
def collect (parent : Option String) (selections : List Selection) : Collected :=
  collectItems schema parent selections ⟨selections, [], []⟩

/-- The fields and spreads of a fragment. -/
def collectFragment (d : FragmentDef) : Collected :=
  collect schema ((schema.type? d.condition.text).map (·.name)) d.selections

/-- Whether no value can be of both types. -/
def typesConflict : TypeExpr → TypeExpr → Bool
  | .list a, .list b => typesConflict a b
  | .list _, _ | _, .list _ => true
  | .nonNull a, .nonNull b => typesConflict a b
  | .nonNull _, _ | _, .nonNull _ => true
  | .named a, .named b =>
    (schema.isOf TypeShape.isLeaf (.named a) || schema.isOf TypeShape.isLeaf (.named b)) && a != b

/-- Whether no object can be of both types. -/
def isExclusive (a b : Option String) : Bool :=
  match a, b with
  | some a, some b =>
    a != b && schema.isOf TypeShape.isObject (.named a) && schema.isOf TypeShape.isObject (.named b)
  | _, _ => false

/-- Whether a pair of fragments has been compared. A comparison of fragments that one object can
have covers both cases. -/
def isCompared (first second : String) (exclusive : Bool) : Comparing Bool := do
  return (← get).any fun pair =>
    ((pair.first == first && pair.second == second) ||
      (pair.first == second && pair.second == first)) && (exclusive || !pair.exclusive)

/-- Notes that a pair of fragments is compared. -/
def noteCompared (first second : String) (exclusive : Bool) : Comparing Unit :=
  modify fun pairs => ⟨first, second, exclusive⟩ :: pairs.filter fun pair =>
    !((pair.first == first && pair.second == second) ||
      (pair.first == second && pair.second == first))

/-- The first disagreement on two fields themselves. -/
def ownConflict (exclusive : Bool) (a b : FieldUse) : Option String :=
  if !exclusive && a.head.name != b.head.name then
    some (quote a.head.name ++ " and " ++ quote b.head.name ++ " are different fields")
  else if !exclusive && argumentsText a.head != argumentsText b.head then
    some "they have differing arguments"
  else
    match a.type, b.type with
    | some s, some t =>
      if typesConflict schema s t then
        some ("they return conflicting types " ++ quote s.text ++ " and " ++ quote t.text)
      else none
    | _, _ => none

/-- The disagreement of two fields that comes from what is selected below them. -/
def belowConflict (key : String) (a b : FieldUse) (conflicts : List Conflict) : List Conflict :=
  if conflicts.isEmpty then []
  else
    let reasons := conflicts.map fun c =>
      "subfields " ++ quote c.key ++ " conflict because " ++ c.reason
    [{ key := key
       reason := " and ".intercalate reasons
       first := a.head.pos :: conflicts.flatMap (·.first)
       second := b.head.pos :: conflicts.flatMap (·.second) }]

/-- The results of an action on all things in order. -/
def gather {α β : Type} (things : List α) (action : α → Comparing (List β)) :
    Comparing (List β) := do
  return (← things.mapM action).flatten

/-- What is compared: two fields under a key, a collection with a fragment, or two fragments. -/
inductive Comparison where
  | uses (key : String) (a b : FieldUse)
  | withFragment (found : Collected) (name : String)
  | fragments (first second : String)

/-- The pairs of fields that two collections have under one key. -/
def sharedUses (a b : Collected) : List Comparison :=
  a.fields.flatMap fun (key, uses) =>
    let others := (b.fields.lookup key).getD []
    uses.flatMap fun use => others.map fun other => .uses key use other

/-- The comparisons of two selections as a whole. -/
def sharedComparisons (a b : Collected) : List Comparison :=
  sharedUses a b ++ b.spreads.map (.withFragment a) ++ a.spreads.map (.withFragment b) ++
    a.spreads.flatMap fun first => b.spreads.map fun second => .fragments first second

/-- The disagreements that a comparison finds. The number bounds the depth. -/
def compare : Nat → Bool → Comparison → Comparing (List Conflict)
  | 0, _, _ => return []
  | depth + 1, exclusive, .uses key a b => do
    let exclusive := exclusive || isExclusive schema a.parent b.parent
    match ownConflict schema exclusive a b with
    | some reason => return [⟨key, reason, [a.head.pos], [b.head.pos]⟩]
    | none =>
      if a.selections.isEmpty || b.selections.isEmpty then return []
      else
        let below := fun (use : FieldUse) =>
          collect schema (use.type.map (·.baseName)) use.selections
        let conflicts ← gather (sharedComparisons (below a) (below b)) (compare depth exclusive)
        return belowConflict key a b conflicts
  | depth + 1, exclusive, .withFragment found name => do
    match parts.fragment? name with
    | none => return []
    | some d =>
      let other := collectFragment schema d
      if found.source == other.source then return []
      else
        let own ← gather (sharedUses found other) (compare depth exclusive)
        let further ← gather other.spreads fun spread => do
          if ← isCompared spread name exclusive then return []
          else
            noteCompared spread name exclusive
            compare depth exclusive (.withFragment found spread)
        return own ++ further
  | depth + 1, exclusive, .fragments first second => do
    if first = second then return []
    else if ← isCompared first second exclusive then return []
    else
      noteCompared first second exclusive
      match parts.fragment? first, parts.fragment? second with
      | some d, some e =>
        let a := collectFragment schema d
        let b := collectFragment schema e
        gather (sharedUses a b ++ b.spreads.map (.fragments first) ++
          a.spreads.map fun spread => .fragments spread second) (compare depth exclusive)
      | _, _ => return []

/-- All pairs of things in a list, the earlier one first. -/
def pairs {α : Type} : List α → List (α × α)
  | [] => []
  | a :: rest => rest.map (fun b => (a, b)) ++ pairs rest

/-- The comparisons of a fragment with a selection and with the fragments spread behind it. -/
def spreadComparisons (found : Collected) : List String → List Comparison
  | [] => []
  | name :: rest =>
    .withFragment found name :: rest.map (.fragments name) ++ spreadComparisons found rest

/-- The comparisons within one selection. -/
def innerComparisons (found : Collected) : List Comparison :=
  let own := found.fields.flatMap fun (key, uses) =>
    (pairs uses).map fun (a, b) => Comparison.uses key a b
  own ++ spreadComparisons found found.spreads

/-- A depth that no comparison exceeds. -/
def comparisonDepth : Nat :=
  let sizes := parts.operations.map (selectionsSize ·.selections) ++
    parts.fragments.map (selectionsSize ·.selections)
  4 * (sizes.foldl (· + ·) 0 + 1)

/-- Fields under one key agree. -/
def agreeingFields : Rule Scope :=
  let step := fun (visit : Visit Scope) (compared : List ComparedPair) =>
    match visit.entering, visit.part with
    | true, .selections selections =>
      let found := collect schema visit.scope.parent selections
      let (conflicts, compared) := (gather (innerComparisons found)
        (compare schema parts (comparisonDepth parts) false)).run compared
      let reports := conflicts.map fun c =>
        (⟨"Fields " ++ quote c.key ++ " conflict because " ++ c.reason ++
          ". Use different aliases on the fields to fetch both if this was intentional.",
          c.first ++ c.second⟩ : Report)
      (reports, compared)
    | _, _ => ([], compared)
  Rule.remembering step []

end

end RecordApi.Validation
