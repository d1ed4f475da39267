import RecordApi.TypeRef

/-!
# Descriptors

A descriptor names the identifier of a type and lists its data fields. The identifier is the first
field of the required identifier type, unless it is chosen by a selector.
-/

namespace RecordApi

open RecordApi.Language

/-- A data field. -/
structure DataField where
  name : String
  type : TypeRef
deriving DecidableEq, Repr, Inhabited

/-- The identifier and the data fields of a type. -/
structure Descriptor where
  typeName : String
  idName : String
  idType : TypeRef
  fields : List DataField
deriving DecidableEq, Repr, Inhabited

/-- Chooses the identifier of a type by the type's name, if it has a choice for it. -/
abbrev IdSelector := String → Option String

/-- Why a type has no identifier. -/
inductive IdFault where
  | noneDeclared (typeName : String)
  | notAField (typeName fieldName : String)
deriving DecidableEq, Repr

/-- The message for a type without an identifier. -/
def IdFault.message : IdFault → String
  | noneDeclared typeName =>
    "Type \"" ++ typeName ++ "\" has no non-null ID field to use as identifier"
  | notAField typeName fieldName =>
    "Identifier field \"" ++ fieldName ++ "\" does not exist on type \"" ++ typeName ++ "\""

namespace Descriptor

/-- The first field of the required identifier type. -/
def firstRequiredId (fields : List FieldDef) : Option String :=
  (fields.find? fun f => (TypeRef.ofExpr [] f.type).isRequiredId).map (·.name)

/-- The name of the identifier that a selector, or else the first fitting field, provides. -/
def idNameOf (fields : List FieldDef) (typeName : String) (selector : Option IdSelector) :
    Option String :=
  match selector with
  | some choose => choose typeName
  | none => firstRequiredId fields

/-- A field as a data field. -/
def dataField (kinds : KindTable) (f : FieldDef) : DataField :=
  ⟨f.name, TypeRef.ofExpr kinds f.type⟩

/-- The descriptor of a type with the given fields. -/
def describe (typeName : String) (fields : List FieldDef) (kinds : KindTable)
    (selector : Option IdSelector) : Except IdFault Descriptor :=
  match idNameOf fields typeName selector with
  | none => .error (.noneDeclared typeName)
  | some idName =>
    match fields.find? (·.name == idName) with
    | none => .error (.notAField typeName idName)
    | some idField =>
      .ok
        { typeName := typeName
          idName := idName
          idType := TypeRef.ofExpr kinds idField.type
          fields := (fields.filter (·.name != idName)).map (dataField kinds) }

end Descriptor

end RecordApi
