import RecordApi.Number.Reading
import RecordApi.Request.Variables

/-!
# Leaf values of an answer

Values of scalars and enumerations are brought into the form in which they are answered. A value
that has no such form is a fault.
-/

namespace RecordApi.Request

open Number

/-- The fault of a value that a scalar cannot represent. -/
def unrepresentable (typeName words : String) (d : Datum) : Except String Datum :=
  .error (typeName ++ " cannot represent " ++ words ++ "value: " ++ d.shown)

/-- The whole part of a decimal number. -/
def wholePart (digits : String) : Int :=
  (readInt? (digits.toList.takeWhile (· != '.'))).getD 0

/-- The integer that a value is, or that its text is read as. -/
def integerOf? : Datum → Option Int
  | .bool b => some (if b then 1 else 0)
  | .text s => readInt? s.toList
  | .decimal digits => some (wholePart digits)
  | d => wholeOf? d

/-- The finite double that a value is, or that its text is read as. -/
def doubleOf? (d : Datum) : Option Double :=
  let read := fun (s : String) =>
    match readDouble? s.toList with
    | some (.finite negative units) => some (.finite negative units)
    | _ => none
  match d with
  | .text s => read s
  | .decimal digits => read digits
  | d =>
    match finiteOf? d with
    | some (.finite negative units) => some (.finite negative units)
    | _ => none

/-- A value in the form in which a scalar is answered. -/
def scalarOutput (typeName : String) (d : Datum) : Except String Datum :=
  match typeName with
  | "Int" =>
    match integerOf? d with
    | none => unrepresentable typeName "non-integer " d
    | some n =>
      if Literal.leastInt ≤ n && n ≤ Literal.mostInt then .ok (.int n)
      else unrepresentable typeName "non 32-bit signed integer " d
  | "Float" =>
    match d with
    | .bool b => .ok (.int (if b then 1 else 0))
    | d =>
      match doubleOf? d with
      | some x => .ok (.real x)
      | none => unrepresentable typeName "non numeric " d
  | "String" =>
    match d with
    | .text s => .ok (.text s)
    | .bool b => .ok (.text (if b then "true" else "false"))
    | .int _ | .real (.finite _ _) | .dateTime _ | .decimal _ => .ok (.text d.plainText)
    | d => unrepresentable typeName "" d
  | "Boolean" =>
    match d with
    | .bool b => .ok (.bool b)
    | .int n => .ok (.bool (n != 0))
    | .real (.finite _ units) => .ok (.bool (units != 0))
    | d => unrepresentable typeName "a non boolean " d
  | "ID" =>
    match d with
    | .text s => .ok (.text s)
    | d =>
      match wholeOf? d with
      | some n => .ok (.text (toString n))
      | none => unrepresentable typeName "" d
  | _ => .ok d

/-- A value in the form in which an enumeration is answered. -/
def enumOutput (typeName : String) (options : List String) (d : Datum) : Except String Datum :=
  match d with
  | .text s =>
    if options.contains s then .ok (.text s)
    else .error ("Enum '" ++ typeName ++ "' cannot represent value: " ++ d.shown)
  | d => .error ("Enum '" ++ typeName ++ "' cannot represent value: " ++ d.shown)

end RecordApi.Request
