import RecordApi.Request.Arguments
import RecordApi.Text.Similar

/-!
# The variables of a request

The values that a request brings along are brought to the types of its variables. All faults are
told, up to a limit, each with the place of the variable's definition.
-/

namespace RecordApi.Request

open RecordApi.Language Number

/-- A step to a part of a value: into an item of a list or a field of an object. -/
inductive PathStep where
  | index (n : Nat)
  | key (name : String)
deriving DecidableEq, Repr, Inhabited

/-- The written form of a path. -/
def pathText (path : List PathStep) : String :=
  String.join (path.map fun
    | .index n => "[" ++ toString n ++ "]"
    | .key name => "." ++ name)

/-- What is wrong with a part of a value. -/
structure InputFault where
  path : List PathStep
  value : Datum
  message : String
deriving Inhabited

/-- The integer that a number is equal to. -/
def wholeOf? : Datum → Option Int
  | .int n => some n
  | .real x => x.toInt?
  | _ => none

/-- The double of a number, unless it is not finite. -/
def finiteOf? : Datum → Option Double
  | .int n => some (.ofInt n)
  | .real (.finite negative units) => some (.finite negative units)
  | _ => none

/-- The value of a scalar that a given value stands for, or what is wrong with it. -/
def scalarInput (typeName : String) (d : Datum) : Except String Datum :=
  let wrong := fun words =>
    .error (typeName ++ " cannot represent " ++ words ++ "value: " ++ d.shown)
  match typeName with
  | "Int" =>
    match wholeOf? d with
    | none => wrong "non-integer "
    | some n =>
      if Literal.leastInt ≤ n && n ≤ Literal.mostInt then .ok (.int n)
      else wrong "non 32-bit signed integer "
  | "Float" =>
    match finiteOf? d with
    | some (.infinite _) => .error "Expected type 'Float'. int too large to convert to float"
    | some x => .ok (.real x)
    | none => wrong "non numeric "
  | "String" =>
    match d with
    | .text s => .ok (.text s)
    | _ => wrong "a non string "
  | "Boolean" =>
    match d with
    | .bool b => .ok (.bool b)
    | _ => wrong "a non boolean "
  | "ID" =>
    match d with
    | .text s => .ok (.text s)
    | d =>
      match wholeOf? d with
      | some n => .ok (.text (toString n))
      | none => wrong ""
  | _ => .ok d

/-- The value of an enumeration that a given value stands for, or what is wrong with it. -/
def enumInput (typeName : String) (options : List String) (d : Datum) : Except String Datum :=
  match d with
  | .text s =>
    if options.contains s then .ok (.text s)
    else
      .error ("Value '" ++ s ++ "' does not exist in '" ++ typeName ++ "' enum." ++
        Literal.didYouMeanValue options s)
  | d =>
    .error ("Enum '" ++ typeName ++ "' cannot represent non-string value: " ++ d.shown ++ "." ++
      Literal.didYouMeanValue options d.shown)

/-- Bringing a value to a type writes down what is wrong. -/
abbrev Coercing := StateM (List InputFault)

/-- Writes down what is wrong with a part of a value. -/
def noteFault (path : List PathStep) (value : Datum) (message : String) : Coercing Unit :=
  modify fun faults => faults ++ [⟨path.reverse, value, message⟩]

/-- The value of a leaf type that was read, or else nothing but a note on what is wrong. -/
def noteReading (path : List PathStep) (value : Datum) : Except String Datum → Coercing Datum
  | .ok d => return d
  | .error message => do
    noteFault path value message
    return .null

/-- Brings a value to a type. `path` leads to the value, its last step first. The number bounds the
depth; each layer of the type and each record take one. -/
def coerceInput (schema : Schema) :
    Nat → TypeExpr → List PathStep → Datum → Coercing Datum
  | 0, _, _, _ => return .null
  | depth + 1, type, path, d =>
    match type, d with
    | .nonNull inner, .null => do
      noteFault path d
        ("Expected non-nullable type '" ++ (TypeExpr.nonNull inner).text ++ "' not to be None.")
      return .null
    | .nonNull inner, d => coerceInput schema depth inner path d
    | _, .null => return .null
    | .list item, .list items => do
      let coerced ← items.zipIdx.mapM fun (item_, index) =>
        coerceInput schema depth item (.index index :: path) item_
      return .list coerced
    | .list item, d => do
      return .list [← coerceInput schema depth item path d]
    | .named name, d => do
      match schema.shape? (.named name), d with
      | some (.input slots), .record entries => do
        let filled ← slots.filterMapM fun slot => do
          match entries.lookup slot.name with
          | some value =>
            let coerced ← coerceInput schema depth slot.type (.key slot.name :: path) value
            return some (slot.name, coerced)
          | none =>
            match slot.default with
            | some value => return some (slot.name, value)
            | none =>
              if slot.type.isNonNull then
                noteFault path d ("Field '" ++ slot.name ++ "' of required type '" ++
                  slot.type.text ++ "' was not provided.")
              return none
        let known := slots.map (·.name)
        for (key, _) in entries do
          if !known.contains key then
            noteFault path d ("Field '" ++ key ++ "' is not defined by type '" ++ name ++ "'." ++
              Text.didYouMean (Text.similarNames key known))
        return .record filled
      | some (.input _), d => do
        noteFault path d ("Expected type '" ++ name ++ "' to be a mapping.")
        return .null
      | some (.enum options), d => noteReading path d (enumInput name (options.map (·.name)) d)
      | _, d => noteReading path d (scalarInput name d)

mutual

/-- How deep records lie in a value. -/
def dataDepth : Datum → Nat
  | .list items => itemsDepth items
  | .record entries => 1 + entriesDepth entries
  | _ => 0

/-- How deep records lie in the items of a list. -/
def itemsDepth : List Datum → Nat
  | [] => 0
  | item :: items => max (dataDepth item) (itemsDepth items)

/-- How deep records lie in the entries of a record. -/
def entriesDepth : List (String × Datum) → Nat
  | [] => 0
  | (_, value) :: entries => max (dataDepth value) (entriesDepth entries)

end

/-- How many layers a type has. -/
def typeDepth : TypeExpr → Nat
  | .named _ => 1
  | .list item => 1 + typeDepth item
  | .nonNull inner => 1 + typeDepth inner

/-- The most layers of the types of input fields in a schema. -/
def slotDepth (schema : Schema) : Nat :=
  (schema.types.flatMap fun type =>
    type.shape.slots.map fun slot => typeDepth slot.type).foldl max 1

/-- What is wrong with a variable, and where the variable is defined. -/
structure VariableFault where
  message : String
  pos : Option Pos
deriving DecidableEq, Repr, Inhabited

/-- The value of a variable, absent if none is given and it has no default. -/
def variableValue (schema : Schema) (given : Datum.Entries) (v : VariableDef) :
    Option Datum × List VariableFault :=
  let title := "Variable '$" ++ v.name.text ++ "'"
  let fault := fun message => VariableFault.mk message (some v.pos)
  match given.lookup v.name.text with
  | none =>
    match v.default with
    | some value => (Literal.read (shapes schema) [] v.type value, [])
    | none =>
      if v.type.isNonNull then
        (none, [fault (title ++ " of required type '" ++ v.type.text ++ "' was not provided.")])
      else (none, [])
  | some d =>
    if d.isNull && v.type.isNonNull then
      (none, [fault (title ++ " of non-null type '" ++ v.type.text ++ "' must not be null.")])
    else
      let depth := typeDepth v.type + (dataDepth d + 1) * (slotDepth schema + 1)
      let (value, faults) := (coerceInput schema depth v.type [] d).run []
      let message := fun (f : InputFault) =>
        let place :=
          if f.path.isEmpty then "" else " at '" ++ v.name.text ++ pathText f.path ++ "'"
        title ++ " got invalid value " ++ f.value.shown ++ place ++ "; " ++ f.message
      (some value, faults.map fun f => fault (message f))

/-- The most faults of variables that are told. -/
def mostVariableFaults : Nat :=
  50

/-- The values of the variables of an operation, or what is wrong with them. -/
def variableValues (schema : Schema) (parameters : List VariableDef) (given : Datum.Entries) :
    Except (List VariableFault) VariableValues :=
  let outcomes := parameters.map fun v => (v.name.text, variableValue schema given v)
  let faults := outcomes.flatMap fun (_, _, faults) => faults
  if faults.isEmpty then
    .ok (outcomes.filterMap fun (name, value, _) => value.map fun d => (name, d))
  else if mostVariableFaults < faults.length then
    .error (faults.take mostVariableFaults ++
      [⟨"Too many errors processing variables, error limit reached. Execution aborted.", none⟩])
  else
    .error faults

end RecordApi.Request
