import RecordApi.Language.Document

/-!
# Type references

A type as it is written does not tell what its name stands for. A type reference does: the innermost
name is resolved once against the kinds of the declared types.
-/

namespace RecordApi

open RecordApi.Language

/-- The kinds of types. -/
inductive Kind where
  | scalar
  | object
  | interface
  | union
  | enum
  | input
deriving DecidableEq, Repr, Inhabited

/-- The kind of a type with a given body. -/
def Kind.ofBody : TypeBody → Kind
  | .scalar => scalar
  | .object _ _ => object
  | .interface _ _ => interface
  | .union _ => union
  | .enum _ => enum
  | .input _ => input

/-- A resolved name: the name of a scalar, of a composite type, or of an enumeration. -/
inductive NamedRef where
  | scalar (name : String)
  | object (name : String)
  | enum (name : String)
deriving DecidableEq, Repr, Inhabited

/-- The name that was resolved. -/
def NamedRef.name : NamedRef → String
  | scalar name | object name | enum name => name

/-- A type whose innermost name is resolved. -/
inductive TypeRef where
  | named (ref : NamedRef)
  | list (item : TypeRef)
  | nonNull (inner : TypeRef)
deriving DecidableEq, Repr, Inhabited

/-- The scalars that need no declaration. -/
def builtinScalars : List String :=
  ["Int", "Float", "String", "Boolean", "ID"]

/-- The kinds of declared types; of two entries for a name the first counts. -/
abbrev KindTable := List (String × Kind)

namespace KindTable

/-- The kinds of the types that a document defines; of two definitions of a name the later
counts. -/
def ofDocument (document : Document) : KindTable :=
  (document.types.map fun d => (d.name, Kind.ofBody d.body)).reverse

/-- The kind of a name. A name that is not declared counts as a scalar. -/
def kindOf (kinds : KindTable) (name : String) : Kind :=
  (kinds.lookup name).getD .scalar

/-- Resolves a name. An input type counts as a scalar. -/
def resolve (kinds : KindTable) (name : String) : NamedRef :=
  match kinds.kindOf name with
  | .object | .interface | .union => .object name
  | .enum => .enum name
  | .scalar | .input => .scalar name

@[simp] theorem name_resolve (kinds : KindTable) (name : String) :
    (kinds.resolve name).name = name := by
  unfold resolve
  cases kinds.kindOf name <;> rfl

end KindTable

namespace TypeRef

/-- Resolves the innermost name of a type. -/
def ofExpr (kinds : KindTable) : TypeExpr → TypeRef
  | .named name => named (kinds.resolve name)
  | .list item => list (ofExpr kinds item)
  | .nonNull inner => nonNull (ofExpr kinds inner)

/-- The type as it is written. -/
def toExpr : TypeRef → TypeExpr
  | named ref => .named ref.name
  | list item => .list item.toExpr
  | nonNull inner => .nonNull inner.toExpr

/-- The written form of a type. -/
def render (ref : TypeRef) : String :=
  ref.toExpr.text

/-- The innermost name. -/
def base : TypeRef → NamedRef
  | named ref => ref
  | list item => item.base
  | nonNull inner => inner.base

/-- The type without its outermost mark against null. -/
def nullable : TypeRef → TypeRef
  | nonNull inner => inner
  | ref => ref

/-- The type with a mark against null outermost. -/
def required : TypeRef → TypeRef
  | nonNull inner => nonNull inner
  | ref => nonNull ref

/-- The type with its innermost name replaced. -/
def rename (f : NamedRef → NamedRef) : TypeRef → TypeRef
  | named ref => named (f ref)
  | list item => list (rename f item)
  | nonNull inner => nonNull (rename f inner)

/-- Whether the type is the identifier type marked against null. -/
def isRequiredId (ref : TypeRef) : Bool :=
  ref == nonNull (named (.scalar "ID"))

@[simp] theorem toExpr_ofExpr (kinds : KindTable) (e : TypeExpr) :
    (ofExpr kinds e).toExpr = e := by
  induction e with
  | named name => simp [ofExpr, toExpr]
  | list item ih => simp [ofExpr, toExpr, ih]
  | nonNull inner ih => simp [ofExpr, toExpr, ih]

@[simp] theorem base_rename (f : NamedRef → NamedRef) (ref : TypeRef) :
    (ref.rename f).base = f ref.base := by
  induction ref with
  | named ref => rfl
  | list item ih => simpa [rename, base] using ih
  | nonNull inner ih => simpa [rename, base] using ih

@[simp] theorem base_nullable (ref : TypeRef) : ref.nullable.base = ref.base := by
  cases ref <;> rfl

end TypeRef

end RecordApi
