import RecordApi.Request.Collection
import RecordApi.Validation.Overlap

/-!
# Validating a request

All rules on requests in their order.
-/

namespace RecordApi.Validation

open RecordApi.Language

/-- A subscription selects one field, which is a field of its type. -/
def singleSubscription (schema : Schema) (parts : RequestParts) : Rule Scope :=
  Rule.entering fun part _ =>
    match part, schema.subscription with
    | .operation d, some root =>
      if d.operation != .subscription then []
      else
        let title :=
          (d.name.map fun name => "Subscription " ++ quote name.text).getD
            "Anonymous Subscription"
        let sources : Request.Sources := ⟨schema, parts.fragments, []⟩
        let groups := ((Request.fieldGroups sources root d.selections).toOption).getD []
        let further := (groups.drop 1).flatMap (·.places)
        let reserved := groups.filter fun group => group.first.head.name.startsWith "__"
        (if further.isEmpty then []
          else [⟨title ++ " must select only one top level field.", further⟩]) ++
          reserved.map fun group =>
            ⟨title ++ " must not select an introspection top level field.", group.places⟩
    | _, _ => []

/-- The rules on requests. -/
def requestRules (schema : Schema) (definitions : List PlacedDefinition) : List (Rule Scope) :=
  let plain := definitions.map (·.2)
  let parts := RequestParts.ofDefinitions plain
  let vocabulary := Vocabulary.extend (schema.types.map (·.name)) schema.directives plain
  [ executableDefinitions definitions,
    uniqueOperations,
    loneAnonymous parts,
    singleSubscription schema parts,
    knownTypes vocabulary,
    compositeConditions schema,
    inputVariables schema,
    leafSelections schema,
    knownFields schema,
    uniqueFragments,
    knownFragments parts,
    usedFragments parts,
    possibleSpreads schema parts,
    acyclicFragments parts,
    uniqueVariables,
    definedVariables schema parts,
    usedVariables schema parts,
    knownDirectives vocabulary,
    uniqueDirectives vocabulary,
    knownArguments vocabulary,
    uniqueArguments,
    fittingValues schema,
    requiredArguments vocabulary,
    fittingVariables schema parts,
    agreeingFields schema parts,
    uniqueInputFields ]

/-- What is wrong with a request. -/
def requestReports (schema : Schema) (document : PlacedDocument) : List Report :=
  let visits := documentVisits (Scope.narrow schema) (document.definitions.map (·.2)) {}
  Rule.limited (Rule.reports (requestRules schema document.definitions)
    (placeMentions document.mentions visits))

end RecordApi.Validation
