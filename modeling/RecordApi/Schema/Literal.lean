import RecordApi.Language.Printer
import RecordApi.Number.Reading
import RecordApi.Schema.Basic
import RecordApi.Text.Similar

/-!
# Literals

What a value that is written in a document stands for at a given type. A literal that does not fit
stands for nothing.
-/

namespace RecordApi

open RecordApi.Language

/-- The types by name, as far as literals need them. -/
abbrev ShapeLookup := String → Option TypeShape

/-- The values of the variables of a request. -/
abbrev VariableValues := Datum.Entries

namespace Literal

/-- The largest integer of the integer type. -/
def mostInt : Int :=
  2147483647

/-- The least integer of the integer type. -/
def leastInt : Int :=
  -2147483648

/-- The integer that is written by digits and perhaps a sign. -/
def intOf (text : String) : Int :=
  (Number.readInt? text.toList).getD 0

/-- The number that is written in decimal. -/
def realOf (text : String) : Number.Double :=
  (Number.readDouble? text.toList).getD .nan

mutual

/-- A literal without regard to any type. -/
def plain (bindings : VariableValues) : Value → Option Datum
  | .variable _ name => bindings.lookup name
  | .int _ text => some (.int (intOf text))
  | .float _ text => some (.real (realOf text))
  | .string _ text _ => some (.text text)
  | .boolean _ b => some (.bool b)
  | .null _ => some .null
  | .enum _ name => some (.text name)
  | .list _ items => some (.list (plainItems bindings items))
  | .object _ fields => some (.record (Entries.merge [] (plainFields bindings fields)))

/-- The items of a list without regard to any type. -/
def plainItems (bindings : VariableValues) : List Value → List Datum
  | [] => []
  | item :: items => Datum.ofOption (plain bindings item) :: plainItems bindings items

/-- The fields of an object without regard to any type. -/
def plainFields (bindings : VariableValues) : List (Name × Value) → List (String × Datum)
  | [] => []
  | (name, value) :: fields =>
    (name.text, Datum.ofOption (plain bindings value)) :: plainFields bindings fields

end

/-- The end of a message that suggests values of an enumeration. -/
def didYouMeanValue (options : List String) (given : String) : String :=
  Text.didYouMeanThe "the enum value " (Text.similarNames given options)

/-- What a literal stands for as a value of a scalar, or what is wrong with it. -/
def readScalar (bindings : VariableValues) (name : String) (value : Value) :
    Except String Datum :=
  let wrong := fun words =>
    .error (name ++ " cannot represent " ++ words ++ " value: " ++ value.print)
  match name, value with
  | "Int", .int _ text =>
    if leastInt ≤ intOf text && intOf text ≤ mostInt then .ok (.int (intOf text))
    else wrong "non 32-bit signed integer"
  | "Int", _ => wrong "non-integer"
  | "Float", .int _ text | "Float", .float _ text => .ok (.real (realOf text))
  | "Float", _ => wrong "non numeric"
  | "String", .string _ text _ => .ok (.text text)
  | "String", _ => wrong "a non string"
  | "Boolean", .boolean _ b => .ok (.bool b)
  | "Boolean", _ => wrong "a non boolean"
  | "ID", .string _ text _ | "ID", .int _ text => .ok (.text text)
  | "ID", _ => wrong "a non-string and non-integer"
  | _, value => .ok (Datum.ofOption (plain bindings value))

/-- What a literal stands for as a value of an enumeration, or what is wrong with it. -/
def readEnum (typeName : String) (options : List String) (value : Value) : Except String Datum :=
  let shown := value.print
  match value with
  | .enum _ name =>
    if options.contains name then .ok (.text name)
    else
      .error ("Value '" ++ shown ++ "' does not exist in '" ++ typeName ++ "' enum." ++
        didYouMeanValue options shown)
  | _ =>
    .error ("Enum '" ++ typeName ++ "' cannot represent non-enum value: " ++ shown ++ "." ++
      didYouMeanValue options shown)

/-- What a literal stands for as a value of a leaf type. -/
def readLeaf? (shapes : ShapeLookup) (bindings : VariableValues) (typeName : String)
    (value : Value) : Option Datum :=
  match shapes typeName with
  | some (.scalar _) => (readScalar bindings typeName value).toOption
  | some (.enum options) => (readEnum typeName (options.map (·.name)) value).toOption
  | _ => none

/-- The value in as many lists as the type has around its innermost name. -/
def wrap : TypeExpr → Datum → Datum
  | .named _, d => d
  | .nonNull inner, d => wrap inner d
  | .list item, d => .list [wrap item d]

/-- Whether a literal is a variable without a value. -/
def isMissing (bindings : VariableValues) : Value → Bool
  | .variable _ name => (bindings.lookup name).isNone
  | _ => false

/-- The value under a name among those of the fields of an input type: the one given, or else the
default; a required field must be given. The value that is given is missing if it is a variable
without a value, and absent if it does not fit. -/
def fillSlot (given : List (String × Option (Option Datum))) (slot : InputSlot) :
    Option (Option Datum) :=
  match given.lookup slot.name with
  | some (some value) => value.map some
  | _ =>
    match slot.default with
    | some d => some (some d)
    | none => if slot.type.isNonNull then none else some none

/-- The record of the fields of an input type, unless one does not fit. -/
def fillSlots (given : List (String × Option (Option Datum))) (slots : List InputSlot) :
    Option Datum := do
  let filled ← slots.mapM fun slot => (fillSlot given slot).map fun value => (slot.name, value)
  return .record (filled.filterMap fun (name, value) => value.map fun d => (name, d))

mutual

/-- What a literal stands for at a type. A value that is no list stands for a list of one. -/
def read (shapes : ShapeLookup) (bindings : VariableValues) (type : TypeExpr) :
    Value → Option Datum
  | .variable _ name =>
    match bindings.lookup name with
    | some .null => if type.isNonNull then none else some .null
    | found => found
  | .null _ => if type.isNonNull then none else some .null
  | .list pos items =>
    match type.nullable with
    | .list item => (readItems shapes bindings item items).map .list
    | _ => readLeaf? shapes bindings type.baseName (.list pos items)
  | .object pos fields =>
    match shapes type.baseName with
    | some (.input slots) =>
      (fillSlots (readFields shapes bindings slots fields).reverse slots).map (wrap type)
    | _ => (readLeaf? shapes bindings type.baseName (.object pos fields)).map (wrap type)
  | value => (readLeaf? shapes bindings type.baseName value).map (wrap type)

/-- What the items of a list stand for at the type of items. -/
def readItems (shapes : ShapeLookup) (bindings : VariableValues) (type : TypeExpr) :
    List Value → Option (List Datum)
  | [] => some []
  | item :: items =>
    let first :=
      if isMissing bindings item then (if type.isNonNull then none else some .null)
      else read shapes bindings type item
    match first, readItems shapes bindings type items with
    | some d, some rest => some (d :: rest)
    | _, _ => none

/-- What the fields of an object stand for at the types of their namesakes. -/
def readFields (shapes : ShapeLookup) (bindings : VariableValues) (slots : List InputSlot) :
    List (Name × Value) → List (String × Option (Option Datum))
  | [] => []
  | (name, value) :: fields =>
    let given :=
      if isMissing bindings value then none
      else (slots.find? (·.name == name.text)).map fun slot =>
        read shapes bindings slot.type value
    (name.text, given) :: readFields shapes bindings slots fields

end

end Literal

end RecordApi
