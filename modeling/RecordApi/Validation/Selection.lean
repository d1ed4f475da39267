import RecordApi.Schema.Literal
import RecordApi.Validation.Application
import RecordApi.Validation.Fragments

/-!
# Rules on requests

A request holds operations and fragments alone. Its selections name fields that exist, end at
values without parts, and spread fragments where they can apply; arguments and values fit their
types; variables are defined, used, and of a type that fits where they are used.
-/

namespace RecordApi.Validation

open RecordApi.Language

/-- A name in single quotes. -/
def quote (name : String) : String :=
  "'" ++ name ++ "'"

/-- The rule that looks at each operation when it is left. -/
def leavingOperations {σ : Type} (look : OperationDef → List Report) : Rule σ :=
  Rule.leaving fun part _ =>
    match part with
    | .operation d => look d
    | _ => []

section

variable (schema : Schema) (parts : RequestParts)

/-- Only operations and fragments can be executed. -/
def executableDefinitions (definitions : List PlacedDefinition) : Rule Scope :=
  let look := fun ((pos, d) : PlacedDefinition) =>
    match d with
    | .operation _ | .fragment _ => none
    | d =>
      let name := (d.name?.map quote).getD "schema"
      some (⟨"The " ++ name ++ " definition is not executable.", [pos]⟩ : Report)
  Rule.entering fun part _ =>
    match part with
    | .document => definitions.filterMap look
    | _ => []

/-- No two operations have the same name. -/
def uniqueOperations : Rule Scope :=
  let message := fun name => "There can be only one operation named " ++ quote name ++ "."
  let step := fun (visit : Visit Scope) (seen : List Name) =>
    match visit.entering, visit.part with
    | true, .operation d => Rule.repeated message d.name.toList seen
    | _, _ => ([], seen)
  Rule.remembering step []

/-- An operation without a name is the only one. -/
def loneAnonymous : Rule Scope :=
  Rule.entering fun part _ =>
    match part with
    | .operation d =>
      if d.name.isNone && 1 < parts.operations.length then
        [⟨"This anonymous operation must be the only defined operation.", [d.pos]⟩]
      else []
    | _ => []

/-- The conditions of fragments are composite types. -/
def compositeConditions : Rule Scope :=
  let check := fun (condition : Name) (title : String) =>
    if (schema.type? condition.text).isSome &&
        !schema.isOf TypeShape.isComposite (.named condition.text) then
      [(⟨title ++ " cannot condition on non composite type " ++ quote condition.text ++ ".",
        [condition.pos]⟩ : Report)]
    else []
  Rule.entering fun part _ =>
    match part with
    | .inline _ (some condition) _ => check condition "Fragment"
    | .fragment d => check d.condition ("Fragment " ++ quote d.name.text)
    | _ => []

/-- Variables have types that values can be given for. -/
def inputVariables : Rule Scope :=
  Rule.entering fun part _ =>
    match part with
    | .variableDef d =>
      if (schema.shape? d.type).isSome && !schema.isOf TypeShape.isInput d.type then
        [⟨"Variable '$" ++ d.name.text ++ "' cannot be non-input type " ++ quote d.type.text ++ ".",
          [d.typePos]⟩]
      else []
    | _ => []

/-- Something is selected below a field exactly if its values have parts. -/
def leafSelections : Rule Scope :=
  Rule.entering fun part scope =>
    match part, scope.type with
    | .field head selections, some type =>
      if schema.isOf TypeShape.isLeaf type then
        if selections.isEmpty then []
        else
          [⟨"Field " ++ quote head.name ++ " must not have a selection since type " ++
            quote type.text ++ " has no subfields.", [head.setPos]⟩]
      else if selections.isEmpty then
        [⟨"Field " ++ quote head.name ++ " of type " ++ quote type.text ++
          " must have a selection of subfields. Did you mean '" ++ head.name ++
          " \x7b ... \x7d'?", [head.pos]⟩]
      else []
    | _, _ => []

/-- The types below an abstract type that have a field, each with the number of possible types for
which it counts. -/
def suggestedTypeCounts (typeName fieldName : String) : List (String × Nat) :=
  let hasField := fun name => (schema.fieldsOf name).any (·.name == fieldName)
  ((schema.possibleTypes typeName).filter hasField).foldl (fun counts name =>
    let interfaces := ((schema.shape? (.named name)).map TypeShape.interfaces).getD []
    let counts := (name, 1) :: counts.filter (·.1 != name)
    (interfaces.filter hasField).foldl (fun counts iface =>
      (iface, (counts.lookup iface).getD 0 + 1) :: counts.filter (·.1 != iface)) counts) []

/-- The types to suggest for a field that an abstract type does not have: those that count most
come first, then interfaces before what is below them, then by name. -/
def suggestedTypes (typeName fieldName : String) : List String :=
  let before := fun ((a, m) : String × Nat) ((b, n) : String × Nat) =>
    if m != n then n < m
    else if schema.isOf TypeShape.isInterface (.named a) && schema.isBelow a b then true
    else if schema.isOf TypeShape.isInterface (.named b) && schema.isBelow b a then false
    else Text.naturalLe a b
  if schema.isAbstract typeName then
    ((suggestedTypeCounts schema typeName fieldName).mergeSort before).map (·.1)
  else []

/-- The end of a message on a field that a type does not have. -/
def fieldSuggestion (typeName fieldName : String) : String :=
  match suggestedTypes schema typeName fieldName with
  | [] =>
    Text.didYouMean (Text.similarNames fieldName ((schema.fieldsOf typeName).map (·.name)))
  | types => Text.didYouMeanThe "to use an inline fragment on " types

/-- Selected fields exist on the type that is selected from. -/
def knownFields : Rule Scope :=
  Rule.entering fun part scope =>
    match part, scope.parent, scope.field with
    | .field head _, some parent, none =>
      [⟨"Cannot query field " ++ quote head.name ++ " on type " ++ quote parent ++ "." ++
        fieldSuggestion schema parent head.name, [head.pos]⟩]
    | _, _, _ => []

/-- No two fragments have the same name. -/
def uniqueFragments : Rule Scope :=
  let message := fun name => "There can be only one fragment named " ++ quote name ++ "."
  let step := fun (visit : Visit Scope) (seen : List Name) =>
    match visit.entering, visit.part with
    | true, .fragment d => Rule.repeated message [d.name] seen
    | _, _ => ([], seen)
  Rule.remembering step []

/-- Fragments that are spread exist. -/
def knownFragments : Rule Scope :=
  Rule.entering fun part _ =>
    match part with
    | .spread _ name _ =>
      if (parts.fragment? name.text).isSome then []
      else [⟨"Unknown fragment " ++ quote name.text ++ ".", [name.pos]⟩]
    | _ => []

/-- Every fragment is reached from an operation. -/
def usedFragments : Rule Scope :=
  Rule.leaving fun part _ =>
    match part with
    | .document =>
      let reached := (parts.operations.flatMap (reachedFragments parts)).map (·.name.text)
      (parts.fragments.filter fun d => !reached.contains d.name.text).map fun d =>
        ⟨"Fragment " ++ quote d.name.text ++ " is never used.", [d.pos]⟩
    | _ => []

/-- Fragments are spread where an object can be of both types. -/
def possibleSpreads : Rule Scope :=
  let clash := fun (title : String) (fragmentType parent : String) (pos : Pos) =>
    if schema.overlap fragmentType parent then []
    else
      [(⟨title ++ " cannot be spread here as objects of type " ++ quote parent ++
        " can never be of type " ++ quote fragmentType ++ ".", [pos]⟩ : Report)]
  Rule.entering fun part scope =>
    match part, scope.parent with
    | .inline pos _ _, some parent =>
      match Scope.composite schema scope.type with
      | some type => clash "Fragment" type parent pos
      | none => []
    | .spread pos name _, some parent =>
      let condition := (parts.fragment? name.text).map fun d => TypeExpr.named d.condition.text
      match Scope.composite schema condition with
      | some type => clash ("Fragment " ++ quote name.text) type parent pos
      | none => []
    | _, _ => []

/-- What a search for fragments that spread themselves has visited and found. -/
structure CycleSearch where
  visited : List String := []
  reports : List Report := []

/-- Searches for fragments that spread themselves, from one fragment on. `path` holds the fragments
on the way with the spread by which each is left, the last first. The number bounds the depth; one
more than there are fragments is enough, since no fragment is visited twice. -/
def searchCycles (parts : RequestParts) :
    Nat → List (String × Spread) → FragmentDef → CycleSearch → CycleSearch
  | 0, _, _, found => found
  | depth + 1, path, d, found =>
    if found.visited.contains d.name.text then found
    else
      (spreadsOf d.selections).foldl (fun found spread =>
        let path := (d.name.text, spread) :: path
        if path.any (·.1 == spread.name.text) then
          let cycle := (path.reverse.dropWhile (·.1 != spread.name.text)).map (·.2)
          let via := cycle.dropLast.map fun s => quote s.name.text
          let end_ := if via.isEmpty then "." else " via " ++ ", ".intercalate via ++ "."
          { found with reports := found.reports ++
              [⟨"Cannot spread fragment " ++ quote spread.name.text ++ " within itself" ++ end_,
                cycle.map (·.pos)⟩] }
        else
          match parts.fragment? spread.name.text with
          | some next => searchCycles parts depth path next found
          | none => found)
        { found with visited := d.name.text :: found.visited }

/-- No fragment spreads itself, directly or through others. -/
def acyclicFragments : Rule Scope :=
  let step := fun (visit : Visit Scope) (visited : List String) =>
    match visit.entering, visit.part with
    | true, .fragment d =>
      let found := searchCycles parts (parts.fragments.length + 1) [] d ⟨visited, []⟩
      (found.reports, found.visited)
    | _, _ => ([], visited)
  Rule.remembering step []

/-- The reports on arguments that a field does not have; those of directives are told with the
directive. -/
def knownArguments (vocabulary : Vocabulary) : Rule Scope :=
  let heads := fun (visit : Visit Scope) (memory : List String) =>
    match visit.entering, visit.part with
    | true, .field head _ => ([], head.name :: memory)
    | false, .field _ _ => ([], memory.drop 1)
    | true, .directive _ d => (unknownDirectiveArguments vocabulary d, memory)
    | true, .argument a =>
      match visit.scope.inDirective, visit.scope.argument, visit.scope.field,
        visit.scope.parent with
      | false, none, some field, some parent =>
        ([⟨"Unknown argument " ++ quote a.name.text ++ " on field '" ++ parent ++ "." ++
          memory.headD "" ++ "'." ++
          Text.didYouMean (Text.similarNames a.name.text (field.arguments.map (·.name))),
          [a.name.pos]⟩], memory)
      | _, _, _, _ => ([], memory)
    | _, _ => ([], memory)
  Rule.remembering heads []

/-- The report on a literal that does not fit the type that it must have. -/
def leafReports (scope : Scope) (value : Value) : List Report :=
  match scope.input with
  | none => []
  | some type =>
    let reading : Except String Datum := match schema.shape? type with
      | some (.scalar _) => Literal.readScalar [] type.baseName value
      | some (.enum options) => Literal.readEnum type.baseName (options.map (·.name)) value
      | _ =>
        .error ("Expected value of type " ++ quote type.text ++ ", found " ++ value.print ++ ".")
    match reading with
    | .ok _ => []
    | .error message => [⟨message, [value.pos]⟩]

/-- The reports on required fields that an object is not given. -/
def missingSlots (typeName : String) (pos : Pos) (fields : List (Name × Value)) : List Report :=
  let missing := (schema.slotsOf typeName).filter fun slot =>
    slot.isRequired && !fields.any (·.1.text == slot.name)
  missing.map fun slot =>
    ⟨"Field '" ++ typeName ++ "." ++ slot.name ++ "' of required type " ++ quote slot.type.text ++
      " was not provided.", [pos]⟩

/-- The reports on a value itself, without its parts. -/
def valueReports (scope : Scope) (value : Value) : List Report :=
  match value with
  | .variable _ _ => []
  | .null pos =>
    match scope.input with
    | some (.nonNull type) =>
      [⟨"Expected value of type " ++ quote (TypeExpr.nonNull type).text ++ ", found null.", [pos]⟩]
    | _ => []
  | .list _ _ =>
    match scope.outerInput.map TypeExpr.nullable with
    | some (.list _) => []
    | _ => leafReports schema scope value
  | .object pos fields =>
    match scope.input with
    | some type =>
      if schema.isOf TypeShape.isInputObject type then missingSlots schema type.baseName pos fields
      else leafReports schema scope value
    | none => []
  | value => leafReports schema scope value

/-- Whether the parts of a value are not looked at: those of a list where no list belongs, and those
of an object where none belongs. -/
def hidesParts (scope : Scope) (value : Value) : Bool :=
  match value with
  | .list _ _ =>
    match scope.outerInput.map TypeExpr.nullable with
    | some (.list _) => false
    | _ => true
  | .object _ _ => !scope.input.any (schema.isOf TypeShape.isInputObject)
  | _ => false

/-- The report on a field of an object that its type does not have. -/
def slotReports (scope : Scope) (name : Name) : List Report :=
  match scope.input, scope.outerInput with
  | none, some outer =>
    if schema.isOf TypeShape.isInputObject outer then
      let known := (schema.slotsOf outer.baseName).map (·.name)
      [⟨"Field " ++ quote name.text ++ " is not defined by type " ++ quote outer.baseName ++ "." ++
        Text.didYouMean (Text.similarNames name.text known), [name.pos]⟩]
    else []
  | _, _ => []

/-- Values fit the types that their places ask for. The memory counts the values on the way whose
parts are not looked at. -/
def fittingValues : Rule Scope :=
  let step := fun (visit : Visit Scope) (hidden : Nat) =>
    match visit.part with
    | .value value =>
      let hides := if hidesParts schema visit.scope value then 1 else 0
      if visit.entering then
        (if hidden = 0 then valueReports schema visit.scope value else [], hidden + hides)
      else
        ([], hidden - hides)
    | .valueField name _ =>
      (if visit.entering && hidden = 0 then slotReports schema visit.scope name else [], hidden)
    | _ => ([], hidden)
  Rule.remembering step 0

/-- Fields and directives are given all arguments that they require. -/
def requiredArguments (vocabulary : Vocabulary) : Rule Scope :=
  Rule.leaving fun part scope =>
    match part with
    | .directive _ d => missingDirectiveArguments vocabulary d
    | .field head _ =>
      let slots := (scope.field.map (·.arguments)).getD []
      let missing := slots.filter fun slot =>
        slot.isRequired && !head.arguments.any (·.name.text == slot.name)
      missing.map fun slot =>
        ⟨"Field " ++ quote head.name ++ " argument " ++ quote slot.name ++ " of type " ++
          quote slot.type.text ++ " is required, but it was not provided.", [head.pos]⟩
    | _ => []

/-- No variable of an operation is defined twice. -/
def uniqueVariables : Rule Scope :=
  Rule.entering fun part _ =>
    match part with
    | .operation d =>
      (Rule.duplicates (d.parameters.map (·.name.text))).map fun name =>
        ⟨"There can be only one variable named '$" ++ name ++ "'.",
          (d.parameters.filter (·.name.text == name)).map (·.name.pos)⟩
    | _ => []

/-- Every variable that an operation reaches is defined by it. -/
def definedVariables : Rule Scope :=
  leavingOperations fun d =>
    let owner := (d.name.map fun name => " by operation " ++ quote name.text).getD ""
    let undefined := (usesReached schema parts d).filter fun use =>
      !d.parameters.any (·.name.text == use.name)
    undefined.map fun use =>
      ⟨"Variable '$" ++ use.name ++ "' is not defined" ++ owner ++ ".", [use.pos, d.pos]⟩

/-- Every variable of an operation is used in what it reaches. -/
def usedVariables : Rule Scope :=
  leavingOperations fun d =>
    let owner := (d.name.map fun name => " in operation " ++ quote name.text).getD ""
    let used := (usesReached schema parts d).map (·.name)
    (d.parameters.filter fun v => !used.contains v.name.text).map fun v =>
      ⟨"Variable '$" ++ v.name.text ++ "' is never used" ++ owner ++ ".", [v.pos]⟩

/-- Whether a variable may be used where a value of a type must stand. A default on either side
makes up for a missing mark against null. -/
def isAllowedUse (v : VariableDef) (type : TypeExpr) (hasDefault : Bool) : Bool :=
  match type, v.type with
  | .nonNull _, .nonNull _ => schema.isSubtype v.type type
  | .nonNull inner, _ =>
    let hasValue := match v.default with
      | none | some (.null _) => false
      | some _ => true
    (hasValue || hasDefault) && schema.isSubtype v.type inner
  | _, _ => schema.isSubtype v.type type

/-- Variables are of types that fit where they are used. -/
def fittingVariables : Rule Scope :=
  leavingOperations fun d =>
    (usesReached schema parts d).filterMap fun use =>
      match d.parameters.reverse.find? (·.name.text == use.name), use.type with
      | some v, some type =>
        if (schema.shape? v.type).isNone || isAllowedUse schema v type use.hasDefault then none
        else
          some ⟨"Variable '$" ++ use.name ++ "' of type " ++ quote v.type.text ++
            " used in position expecting type " ++ quote type.text ++ ".", [v.pos, use.pos]⟩
      | _, _ => none

end

end RecordApi.Validation
