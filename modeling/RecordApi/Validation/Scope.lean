import RecordApi.Schema.Basic
import RecordApi.Validation.Visit

/-!
# Scopes of a request

Where a part of a request stands decides what it means: the type that is selected from, the field
whose arguments are given, the type that a value must have.
-/

namespace RecordApi.Validation

open RecordApi.Language

/-- What is known at a part of a request. -/
structure Scope where
  /-- The type of what is selected. -/
  type : Option TypeExpr := none
  /-- The composite type that is selected from. -/
  parent : Option String := none
  /-- The field that is selected. -/
  field : Option OutputField := none
  /-- Whether the part lies inside a directive. -/
  inDirective : Bool := false
  /-- The directive that is applied. -/
  directive : Option DirectiveSpec := none
  /-- The argument that is given. -/
  argument : Option InputSlot := none
  /-- The types that the values on the way have, the innermost first. -/
  inputs : List (Option TypeExpr) := []
  /-- Whether a default stands in where no value is given. -/
  hasDefault : Bool := false
deriving Inhabited

namespace Scope

/-- The type that the value at hand must have. -/
def input (scope : Scope) : Option TypeExpr :=
  scope.inputs.head?.join

/-- The type that the value around the one at hand must have. -/
def outerInput (scope : Scope) : Option TypeExpr :=
  (scope.inputs.drop 1).head?.join

/-- A type whose innermost name is known. -/
def known (schema : Schema) (type : TypeExpr) : Option TypeExpr :=
  if (schema.shape? type).isSome then some type else none

/-- The composite type of what is selected. -/
def composite (schema : Schema) (type : Option TypeExpr) : Option String :=
  match type with
  | some type => if schema.isOf TypeShape.isComposite type then some type.baseName else none
  | none => none

/-- The type with a condition, if it can be that of something selected. -/
def conditioned (schema : Schema) (name : String) : Option TypeExpr :=
  if schema.isOf TypeShape.isOutput (.named name) then some (.named name) else none

/-- The scope with one more value on the way. -/
def intoValue (schema : Schema) (type : Option TypeExpr) (hasDefault : Bool) (scope : Scope) :
    Scope :=
  { scope with
    inputs := type.filter (schema.isOf TypeShape.isInput) :: scope.inputs
    hasDefault := hasDefault }

/-- The type of the items of a list; a type that is no list has itself as the items. -/
def itemType (type : TypeExpr) : TypeExpr :=
  match type.nullable with
  | .list item => item
  | other => other

/-- How the parts of a request narrow the scope. -/
def narrow (schema : Schema) : Narrowing Scope
  | .selections _, scope => { scope with parent := composite schema scope.type }
  | .field head _, scope =>
    let field := scope.parent.bind fun parent => schema.field? parent head.name
    { scope with field := field, type := field.map (·.type) }
  | .directive _ d, scope =>
    { scope with directive := schema.directive? d.name, inDirective := true }
  | .operation d, scope =>
    let root := (schema.root? d.operation).map TypeExpr.named
    { scope with type := root.filter (schema.isOf TypeShape.isObject) }
  | .inline _ (some condition) _, scope =>
    { scope with type := conditioned schema condition.text }
  | .inline _ none _, scope =>
    { scope with type := scope.type.map fun type => .named type.baseName }
  | .fragment d, scope => { scope with type := conditioned schema d.condition.text }
  | .variableDef d, scope => intoValue schema (some d.type) scope.hasDefault scope
  | .argument a, scope =>
    let slots := match scope.directive, scope.field with
      | some d, _ => d.arguments
      | none, some field => field.arguments
      | none, none => []
    let slot := slots.find? (·.name == a.name.text)
    intoValue schema (slot.map (·.type)) (slot.any (·.default.isSome))
      { scope with argument := slot }
  | .value (.list _ _), scope => intoValue schema (scope.input.map itemType) false scope
  | .valueField name _, scope =>
    let slot := scope.input.bind fun type =>
      (schema.slotsOf type.baseName).find? (·.name == name.text)
    intoValue schema (slot.map (·.type)) (slot.any (·.default.isSome)) scope
  | _, scope => scope

end Scope

end RecordApi.Validation
