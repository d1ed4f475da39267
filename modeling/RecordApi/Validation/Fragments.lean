import RecordApi.Validation.Rule
import RecordApi.Validation.Scope

/-!
# Fragments and the variables in use

Which fragments a selection spreads, directly or through other fragments, and where the variables of
an operation are used in all that it reaches.
-/

namespace RecordApi.Validation

open RecordApi.Language

/-- A definition of a request with the place where it starts. -/
abbrev PlacedDefinition := Pos × Definition

/-- The operations and fragments of a request. -/
structure RequestParts where
  operations : List OperationDef
  fragments : List FragmentDef
deriving Inhabited

namespace RequestParts

/-- The operations and fragments among definitions. -/
def ofDefinitions (definitions : List Definition) : RequestParts :=
  { operations := definitions.filterMap fun
      | .operation d => some d
      | _ => none
    fragments := definitions.filterMap fun
      | .fragment d => some d
      | _ => none }

/-- The fragment of a name; of two the later counts. -/
def fragment? (parts : RequestParts) (name : String) : Option FragmentDef :=
  parts.fragments.reverse.find? (·.name.text == name)

end RequestParts

/-- A spread with its place. -/
structure Spread where
  pos : Pos
  name : Name
deriving Repr, Inhabited

mutual

/-- The spreads of one item of a selection that does not spread itself, and in it. -/
def nestedSpreads : Selection → List Spread
  | .field _ selections => spreadsHere selections ++ spreadsBelow selections
  | .spread _ _ _ => []
  | .inline _ _ _ selections => spreadsHere selections ++ spreadsBelow selections

/-- The spreads below the items of a selection, those of the last item first. -/
def spreadsBelow : List Selection → List Spread
  | [] => []
  | selection :: selections => spreadsBelow selections ++ nestedSpreads selection

/-- The spreads among the items of a selection. -/
def spreadsHere : List Selection → List Spread
  | [] => []
  | .spread pos name _ :: selections => ⟨pos, name⟩ :: spreadsHere selections
  | _ :: selections => spreadsHere selections

end

/-- All spreads of a selection: its own, and then those further down, the last branch first. -/
def spreadsOf (selections : List Selection) : List Spread :=
  spreadsHere selections ++ spreadsBelow selections

/-- The fragments that are reached from selections yet to be looked at, in the order in which they
are met; the selection met last is looked at first. The number bounds the steps; one more than there
are fragments is enough. -/
def reachFrom (parts : RequestParts) :
    Nat → List (List Selection) → List String → List FragmentDef
  | 0, _, _ => []
  | _, [], _ => []
  | steps + 1, selections :: pending, met =>
    let names := ((spreadsOf selections).map (·.name.text)).eraseDups.filter
      fun name => !met.contains name
    let fragments := names.filterMap parts.fragment?
    fragments ++ reachFrom parts steps
      ((fragments.map (·.selections)).reverse ++ pending) (met ++ names)

/-- The fragments that an operation spreads, directly or through others. -/
def reachedFragments (parts : RequestParts) (d : OperationDef) : List FragmentDef :=
  reachFrom parts (parts.fragments.length + 2) [d.selections] []

/-- A use of a variable, with the type that its place must have. -/
structure VariableUse where
  pos : Pos
  name : String
  type : Option TypeExpr
  hasDefault : Bool
deriving Inhabited

/-- The uses of variables among visits. -/
def usesAmong (visits : List (Visit Scope)) : List VariableUse :=
  visits.filterMap fun visit =>
    match visit.entering, visit.part with
    | true, .value (.variable pos name) =>
      some ⟨pos, name, visit.scope.input, visit.scope.hasDefault⟩
    | _, _ => none

/-- The uses of variables in an operation itself, outside of the definitions of its variables. -/
def usesInOperation (schema : Schema) (d : OperationDef) : List VariableUse :=
  usesAmong (operationVisits (Scope.narrow schema) { d with parameters := [] } {})

/-- The uses of variables in a fragment itself. -/
def usesInFragment (schema : Schema) (d : FragmentDef) : List VariableUse :=
  usesAmong (fragmentVisits (Scope.narrow schema) { d with parameters := [] } {})

/-- The uses of variables in an operation and in all fragments that it reaches. -/
def usesReached (schema : Schema) (parts : RequestParts) (d : OperationDef) : List VariableUse :=
  usesInOperation schema d ++ (reachedFragments parts d).flatMap (usesInFragment schema)

end RecordApi.Validation
