import RecordApi.Schema.Literal

/-!
# Arguments of a request

The arguments that a field or a directive is given: literals and variables, with defaults for what
is left out.
-/

namespace RecordApi.Request

open RecordApi.Language

/-- What is wrong with the arguments of a field or a directive, and where. -/
structure ArgumentFault where
  message : String
  /-- The value that shows the fault; without one, the field or directive does. -/
  pos : Option Pos
deriving DecidableEq, Repr, Inhabited

/-- The shapes of the types of a schema. -/
def shapes (schema : Schema) : ShapeLookup :=
  fun name => schema.shape? (.named name)

/-- The text of an argument with its type in messages. -/
def argumentText (slot : InputSlot) (words : String) : String :=
  "Argument '" ++ slot.name ++ "' of " ++ words ++ " type '" ++ slot.type.text ++ "'"

/-- The value of one argument, absent if it is left out and has no default. -/
def argumentValue (schema : Schema) (bindings : VariableValues) (given : List Argument)
    (slot : InputSlot) : Except ArgumentFault (Option Datum) :=
  let otherwise := fun (words : String) (pos : Option Pos) =>
    match slot.default with
    | some d => .ok (some d)
    | none =>
      if slot.type.isNonNull then .error ⟨argumentText slot "required" ++ words, pos⟩
      else .ok none
  match given.reverse.find? (·.name.text == slot.name) with
  | none => otherwise " was not provided." none
  | some a =>
    let mustNotBeNull := ArgumentFault.mk
      (argumentText slot "non-null" ++ " must not be null.") (some a.value.pos)
    let reading :=
      match Literal.read (shapes schema) bindings slot.type a.value with
      | some d => .ok (some d)
      | none =>
        .error ⟨"Argument '" ++ slot.name ++ "' has invalid value " ++ a.value.print ++ ".",
          some a.value.pos⟩
    match a.value with
    | .variable pos name =>
      match bindings.lookup name with
      | none =>
        otherwise (" was provided the variable '$" ++ name ++
          "' which was not provided a runtime value.") (some pos)
      | some .null => if slot.type.isNonNull then .error mustNotBeNull else reading
      | some _ => reading
    | .null _ => if slot.type.isNonNull then .error mustNotBeNull else reading
    | _ => reading

/-- The values of all arguments that a field or a directive has. -/
def argumentValues (schema : Schema) (bindings : VariableValues) (slots : List InputSlot)
    (given : List Argument) : Except ArgumentFault Datum.Entries := do
  let values ← slots.mapM fun slot => do
    return (slot.name, ← argumentValue schema bindings given slot)
  return values.filterMap fun (name, value) => value.map fun d => (name, d)

/-- The value of the condition of a directive, if the directive is applied. -/
def conditionOf (schema : Schema) (bindings : VariableValues) (name : String)
    (directives : List Directive) : Except ArgumentFault (Option Bool) :=
  match standardDirectives.find? (·.name == name), directives.find? (·.name == name) with
  | some spec, some d => do
    let values ← argumentValues schema bindings spec.arguments d.arguments
    return some (Entries.get values "if" == .bool true)
  | _, _ => .ok none

/-- Whether a part of a selection takes part, as its directives tell. -/
def isIncluded (schema : Schema) (bindings : VariableValues) (directives : List Directive) :
    Except ArgumentFault Bool := do
  if (← conditionOf schema bindings "skip" directives) == some true then return false
  else return (← conditionOf schema bindings "include" directives) != some false

end RecordApi.Request
