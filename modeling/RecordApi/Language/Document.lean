import RecordApi.Language.Token

/-!
# Documents

The definitions that a document may hold: type definitions and their extensions, directives, schema
definitions, and the operations and fragments of queries. Values, directives and the parts of
queries keep the place where they start; type definitions do not.
-/

namespace RecordApi.Language

/-- A type as it is written after a colon. -/
inductive TypeExpr where
  | named (name : String)
  | list (item : TypeExpr)
  | nonNull (inner : TypeExpr)
deriving DecidableEq, Repr, Inhabited

/-- The written form of a type. -/
def TypeExpr.text : TypeExpr → String
  | named name => name
  | list item => "[" ++ item.text ++ "]"
  | nonNull inner => inner.text ++ "!"

/-- The innermost name of a type. -/
def TypeExpr.baseName : TypeExpr → String
  | named name => name
  | list item => item.baseName
  | nonNull inner => inner.baseName

/-- Whether a type is marked against null. -/
def TypeExpr.isNonNull : TypeExpr → Bool
  | nonNull _ => true
  | _ => false

/-- The type without its outermost mark against null. -/
def TypeExpr.nullable : TypeExpr → TypeExpr
  | nonNull inner => inner
  | type => type

/-- A name with its place. -/
structure Name where
  text : String
  pos : Pos
deriving DecidableEq, Repr, Inhabited

/-- A value as it is written. Numbers keep their spelling. -/
inductive Value where
  | variable (pos : Pos) (name : String)
  | int (pos : Pos) (text : String)
  | float (pos : Pos) (text : String)
  | string (pos : Pos) (text : String) (block : Bool)
  | boolean (pos : Pos) (b : Bool)
  | null (pos : Pos)
  | enum (pos : Pos) (name : String)
  | list (pos : Pos) (items : List Value)
  | object (pos : Pos) (fields : List (Name × Value))
deriving Inhabited

mutual

/-- Whether two values are the same. -/
def Value.same : Value → Value → Bool
  | .variable p a, .variable q b => p == q && a == b
  | .int p a, .int q b => p == q && a == b
  | .float p a, .float q b => p == q && a == b
  | .string p a k, .string q b l => p == q && a == b && k == l
  | .boolean p a, .boolean q b => p == q && a == b
  | .null p, .null q => p == q
  | .enum p a, .enum q b => p == q && a == b
  | .list p xs, .list q ys => p == q && Value.sameItems xs ys
  | .object p xs, .object q ys => p == q && Value.sameFields xs ys
  | _, _ => false

/-- Whether two lists of values are the same. -/
def Value.sameItems : List Value → List Value → Bool
  | [], [] => true
  | x :: xs, y :: ys => x.same y && Value.sameItems xs ys
  | _, _ => false

/-- Whether two lists of named values are the same. -/
def Value.sameFields : List (Name × Value) → List (Name × Value) → Bool
  | [], [] => true
  | (a, x) :: xs, (b, y) :: ys => a == b && x.same y && Value.sameFields xs ys
  | _, _ => false

end

mutual

theorem Value.same_iff (v w : Value) : v.same w = true ↔ v = w := by
  cases v with
  | list p xs => cases w <;> simp [Value.same, Value.sameItems_iff xs]
  | object p xs => cases w <;> simp [Value.same, Value.sameFields_iff xs]
  | _ => cases w <;> simp [Value.same, and_assoc]

theorem Value.sameItems_iff (xs ys : List Value) : Value.sameItems xs ys = true ↔ xs = ys := by
  cases xs with
  | nil => cases ys <;> simp [Value.sameItems]
  | cons x xs => cases ys <;> simp [Value.sameItems, x.same_iff, Value.sameItems_iff xs]

theorem Value.sameFields_iff (xs ys : List (Name × Value)) :
    Value.sameFields xs ys = true ↔ xs = ys := by
  cases xs with
  | nil => cases ys <;> simp [Value.sameFields]
  | cons x xs =>
    cases x with
    | mk a x =>
      cases ys with
      | nil => simp [Value.sameFields]
      | cons y ys =>
        cases y with
        | mk b y => simp [Value.sameFields, x.same_iff, Value.sameFields_iff xs]

end

instance : DecidableEq Value := fun v w =>
  decidable_of_iff (v.same w = true) (v.same_iff w)

/-- The place where a value starts. -/
def Value.pos : Value → Pos
  | .variable pos _ | .int pos _ | .float pos _ | .string pos _ _ | .boolean pos _ | .null pos
  | .enum pos _ | .list pos _ | .object pos _ => pos

/-- A named value in a field or a directive. -/
structure Argument where
  name : Name
  value : Value
deriving DecidableEq, Inhabited

/-- A directive as it is applied. -/
structure Directive where
  pos : Pos
  name : String
  arguments : List Argument
deriving DecidableEq, Inhabited

/-- The text of a description, and whether it is written as a block. -/
structure Description where
  text : String
  block : Bool
deriving DecidableEq, Repr, Inhabited

/-- An argument or a field of an input type. -/
structure InputDef where
  description : Option Description
  name : String
  type : TypeExpr
  default : Option Value
  directives : List Directive
deriving DecidableEq, Inhabited

/-- A field. One that has been taken over from an input type has no place for arguments, and only
such a field may have a default. -/
structure FieldDef where
  description : Option Description
  name : String
  arguments : List InputDef
  type : TypeExpr
  default : Option Value
  directives : List Directive
  takenOver : Bool
deriving DecidableEq, Inhabited

/-- A field of an input type, taken over as a field. -/
def InputDef.toField (d : InputDef) : FieldDef :=
  ⟨d.description, d.name, [], d.type, d.default, d.directives, true⟩

/-- A value of an enumeration. -/
structure EnumValueDef where
  description : Option Description
  name : String
  directives : List Directive
deriving DecidableEq, Inhabited

/-- The kinds of operations. -/
inductive OperationKind where
  | query
  | mutation
  | subscription
deriving DecidableEq, Repr, Inhabited

/-- The written form of a kind of operation. -/
def OperationKind.text : OperationKind → String
  | query => "query"
  | mutation => "mutation"
  | subscription => "subscription"

/-- The type that serves a kind of operation. -/
structure RootDef where
  operation : OperationKind
  type : String
deriving DecidableEq, Repr, Inhabited

/-- What a type definition says beyond its name and directives. -/
inductive TypeBody where
  | scalar
  | object (interfaces : List String) (fields : List FieldDef)
  | interface (interfaces : List String) (fields : List FieldDef)
  | union (members : List String)
  | enum (values : List EnumValueDef)
  | input (fields : List InputDef)
deriving DecidableEq, Inhabited

/-- A type definition, or the extension of a type. -/
structure TypeDef where
  description : Option Description
  name : String
  directives : List Directive
  body : TypeBody
deriving DecidableEq, Inhabited

/-- A schema definition, or the extension of a schema. -/
structure SchemaDef where
  description : Option Description
  directives : List Directive
  roots : List RootDef
deriving DecidableEq, Inhabited

/-- A directive definition. -/
structure DirectiveDef where
  description : Option Description
  name : String
  arguments : List InputDef
  repeatable : Bool
  locations : List String
deriving DecidableEq, Inhabited

/-- The places where a directive may be applied. -/
def directiveLocations : List String :=
  ["QUERY", "MUTATION", "SUBSCRIPTION", "FIELD", "FRAGMENT_DEFINITION", "FRAGMENT_SPREAD",
    "INLINE_FRAGMENT", "VARIABLE_DEFINITION", "SCHEMA", "SCALAR", "OBJECT", "FIELD_DEFINITION",
    "ARGUMENT_DEFINITION", "INTERFACE", "UNION", "ENUM", "ENUM_VALUE", "INPUT_OBJECT",
    "INPUT_FIELD_DEFINITION"]

/-- A variable of an operation. -/
structure VariableDef where
  pos : Pos
  name : Name
  type : TypeExpr
  typePos : Pos
  basePos : Pos
  default : Option Value
  directives : List Directive
deriving DecidableEq, Inhabited

/-- A selected field without what is selected below it. -/
structure FieldHead where
  pos : Pos
  label : Option String
  name : String
  arguments : List Argument
  directives : List Directive
  setPos : Pos
deriving DecidableEq, Inhabited

/-- The key under which a selected field is answered. -/
def FieldHead.key (head : FieldHead) : String :=
  head.label.getD head.name

/-- One item of a selection. A field without anything selected below it has an empty list. -/
inductive Selection where
  | field (head : FieldHead) (selections : List Selection)
  | spread (pos : Pos) (name : Name) (directives : List Directive)
  | inline (pos : Pos) (condition : Option Name) (directives : List Directive)
      (selections : List Selection)
deriving Inhabited

mutual

/-- Whether two items of selections are the same. -/
def Selection.same : Selection → Selection → Bool
  | .field a xs, .field b ys => a == b && Selection.sameAll xs ys
  | .spread p a ds, .spread q b es => p == q && a == b && ds == es
  | .inline p a ds xs, .inline q b es ys => p == q && a == b && ds == es && Selection.sameAll xs ys
  | _, _ => false

/-- Whether two selections are the same. -/
def Selection.sameAll : List Selection → List Selection → Bool
  | [], [] => true
  | x :: xs, y :: ys => x.same y && Selection.sameAll xs ys
  | _, _ => false

end

mutual

theorem Selection.same_iff (a b : Selection) : a.same b = true ↔ a = b := by
  cases a with
  | field head xs => cases b <;> simp [Selection.same, Selection.sameAll_iff xs]
  | spread p name ds => cases b <;> simp [Selection.same, and_assoc]
  | inline p condition ds xs =>
    cases b <;> simp [Selection.same, Selection.sameAll_iff xs, and_assoc]

theorem Selection.sameAll_iff (xs ys : List Selection) :
    Selection.sameAll xs ys = true ↔ xs = ys := by
  cases xs with
  | nil => cases ys <;> simp [Selection.sameAll]
  | cons x xs => cases ys <;> simp [Selection.sameAll, x.same_iff, Selection.sameAll_iff xs]

end

instance : DecidableEq Selection := fun a b =>
  decidable_of_iff (a.same b = true) (a.same_iff b)

mutual

/-- How many items a selection holds, with all below it. -/
def Selection.size : Selection → Nat
  | .field _ selections => 1 + selectionsSize selections
  | .spread _ _ _ => 1
  | .inline _ _ _ selections => 1 + selectionsSize selections

/-- How many items selections hold, with all below them. -/
def selectionsSize : List Selection → Nat
  | [] => 0
  | selection :: selections => selection.size + selectionsSize selections

end

/-- An operation. -/
structure OperationDef where
  pos : Pos
  operation : OperationKind
  name : Option Name
  parameters : List VariableDef
  directives : List Directive
  selections : List Selection
deriving DecidableEq, Inhabited

/-- A fragment. -/
structure FragmentDef where
  pos : Pos
  name : Name
  parameters : List VariableDef
  condition : Name
  directives : List Directive
  selections : List Selection
deriving DecidableEq, Inhabited

/-- A definition of a document. -/
inductive Definition where
  | operation (d : OperationDef)
  | fragment (d : FragmentDef)
  | schema (d : SchemaDef)
  | schemaExtension (d : SchemaDef)
  | type (d : TypeDef)
  | typeExtension (d : TypeDef)
  | directive (d : DirectiveDef)
deriving DecidableEq, Inhabited

/-- The word for the kind of a type. -/
def TypeBody.word : TypeBody → String
  | scalar => "scalar"
  | object _ _ => "object"
  | interface _ _ => "interface"
  | union _ => "union"
  | enum _ => "enum"
  | input _ => "input"

/-- The word for the kind of a type in longer names of kinds. -/
def TypeBody.typeWord : TypeBody → String
  | input _ => "input_object_type"
  | body => body.word ++ "_type"

namespace Definition

/-- The name of the kind of a definition. -/
def kindName : Definition → String
  | operation _ => "operation_definition"
  | fragment _ => "fragment_definition"
  | schema _ => "schema_definition"
  | schemaExtension _ => "schema_extension"
  | type d => d.body.typeWord ++ "_definition"
  | typeExtension d => d.body.typeWord ++ "_extension"
  | directive _ => "directive_definition"

/-- The name of a definition. -/
def name? : Definition → Option String
  | operation d => d.name.map (·.text)
  | fragment d => some d.name.text
  | schema _ | schemaExtension _ => none
  | type d | typeExtension d => some d.name
  | directive d => some d.name

end Definition

/-- The definitions of a document, and whether it knows the text that it was read from. -/
structure Document where
  definitions : List Definition
  placed : Bool
deriving DecidableEq, Inhabited

namespace Document

/-- The document of definitions that were not read from a text. -/
def ofDefinitions (definitions : List Definition) : Document :=
  ⟨definitions, false⟩

/-- The type definitions of a document. -/
def types (document : Document) : List TypeDef :=
  document.definitions.filterMap fun
    | .type d => some d
    | _ => none

end Document

/-- The definitions of a query document with the places where they start. Definitions of the schema
among them do not keep the places where they name types; these stand beside them in their order. -/
structure PlacedDocument where
  definitions : List (Pos × Definition)
  mentions : List Pos
deriving Inhabited

end RecordApi.Language
