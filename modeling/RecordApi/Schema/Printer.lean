import RecordApi.Language.Printer
import RecordApi.Schema.Build

/-!
# Writing a schema as a document

A schema is written as the document of its declared types and directives. The root types are named
only where their names are not the usual ones, and defaults are written anew from their values.
-/

namespace RecordApi

open RecordApi.Language

namespace SchemaText

/-- Whether text can stand in a block without change: no line feed at either end, no common indent
of the lines behind the first, and no control characters. -/
def fitsBlock (text : String) : Bool :=
  let lines := (text.toList.splitOnP (· == '\n'))
  let blank := fun line : List Char => line.all fun c => c == ' ' || c == '\t'
  let indented := fun line : List Char =>
    match line with
    | c :: _ => c == ' ' || c == '\t'
    | [] => false
  let shown := lines.filter fun line => !blank line
  text.isEmpty ||
    (!text.toList.any (fun c => c.toNat ≤ 15 && c != '\n' && c != '\t') &&
      !(lines.head?.any blank) && !(lines.getLast?.any blank) &&
      !(1 < lines.length && shown.all indented))

/-- A description in a block if it fits there. -/
def descriptionOf (text : Option String) : Option Description :=
  text.map fun text => ⟨text, fitsBlock text⟩

/-- A text as a literal. -/
def textLiteral (text : String) : Value :=
  .string Pos.nowhere text false

/-- A directive with one text argument. -/
def textDirective (name argument text : String) : Directive :=
  ⟨Pos.nowhere, name, [⟨⟨argument, Pos.nowhere⟩, textLiteral text⟩]⟩

/-- The directive of a deprecation. -/
def deprecation (reason : Option String) : List Directive :=
  match reason with
  | none => []
  | some text =>
    if text = standardReason then [⟨Pos.nowhere, "deprecated", []⟩]
    else [textDirective "deprecated" "reason" text]

/-- Whether text is an integer without needless zeros. -/
def isIntegerText (text : String) : Bool :=
  let digits := match text.toList with
    | '-' :: cs => cs
    | cs => cs
  digits == ['0'] || (digits.all isDigit && !digits.isEmpty && digits.head? != some '0')

/-- A number as a literal; a whole one loses its fraction. -/
def realLiteral (x : Number.Double) : Option Value :=
  match x with
  | .finite _ _ =>
    let text := x.text
    if text.endsWith ".0" then some (.float Pos.nowhere ((text.dropEnd 2).toString))
    else some (.float Pos.nowhere text)
  | _ => none

/-- A leaf value as a literal. -/
def leafLiteral (shapes : ShapeLookup) (typeName : String) (d : Datum) : Option Value :=
  match d with
  | .bool b => some (.boolean Pos.nowhere b)
  | .int n => some (.int Pos.nowhere (toString n))
  | .real x => realLiteral x
  | .text s =>
    if (shapes typeName).any (fun | .enum _ => true | _ => false) then some (.enum Pos.nowhere s)
    else if typeName = "ID" && isIntegerText s then some (.int Pos.nowhere s)
    else some (textLiteral s)
  | _ => none

/-- A value of a type as a literal, if it has one. The number bounds how deep the value is; the
lists of a type and the records of an input type each take one. -/
def literal (shapes : ShapeLookup) : Nat → TypeExpr → Datum → Option Value
  | 0, _, _ => none
  | depth + 1, type, d =>
    match type, d with
    | .nonNull _, .null => none
    | .nonNull inner, d => literal shapes depth inner d
    | _, .null => some (.null Pos.nowhere)
    | .list item, .list items =>
      some (.list Pos.nowhere (items.filterMap (literal shapes depth item)))
    | .list item, d => literal shapes depth item d
    | .named name, d =>
      match shapes name, d with
      | some (.input slots), .record entries =>
        some (.object Pos.nowhere (slots.filterMap fun slot => do
          let value ← entries.lookup slot.name
          let written ← literal shapes depth slot.type value
          return (⟨slot.name, Pos.nowhere⟩, written)))
      | some (.input _), _ => none
      | _, d => leafLiteral shapes name d

/-- How deep a value is. -/
def depthOf (d : Datum) : Nat :=
  2 * d.spelled.length + 8

/-- A slot as the definition of an argument or an input field. -/
def slotDef (shapes : ShapeLookup) (slot : InputSlot) : InputDef :=
  { description := descriptionOf slot.description
    name := slot.name
    type := slot.type
    default := slot.default.bind fun d => literal shapes (depthOf d) slot.type d
    directives := deprecation slot.deprecation }

/-- A field as its definition. -/
def fieldDef (shapes : ShapeLookup) (f : OutputField) : FieldDef :=
  { description := descriptionOf f.description
    name := f.name
    arguments := f.arguments.map (slotDef shapes)
    type := f.type
    default := none
    directives := deprecation f.deprecation
    takenOver := false }

/-- A type as its definition. -/
def typeDef (shapes : ShapeLookup) (type : SchemaType) : TypeDef :=
  let plain := fun body => TypeDef.mk (descriptionOf type.description) type.name [] body
  match type.shape with
  | .scalar url =>
    { plain .scalar with directives := url.toList.map (textDirective "specifiedBy" "url") }
  | .object interfaces fields => plain (.object interfaces (fields.map (fieldDef shapes)))
  | .interface interfaces fields => plain (.interface interfaces (fields.map (fieldDef shapes)))
  | .union members => plain (.union members)
  | .enum options =>
    plain (.enum (options.map fun option =>
      ⟨descriptionOf option.description, option.name, deprecation option.deprecation⟩))
  | .input slots => plain (.input (slots.map (slotDef shapes)))

/-- The root types of a schema by the kinds of operations. -/
def roots (schema : Schema) : List RootDef :=
  [OperationKind.query, .mutation, .subscription].filterMap fun operation =>
    (schema.root? operation).map fun name => ⟨operation, name⟩

/-- Whether all root types have the usual names. -/
def hasUsualRoots (schema : Schema) : Bool :=
  schema.query.all (· == "Query") && schema.mutation.all (· == "Mutation") &&
    schema.subscription.all (· == "Subscription")

/-- The definition that names the root types, where it is needed. -/
def schemaDef (schema : Schema) : List Definition :=
  if schema.description.isNone && hasUsualRoots schema then []
  else [.schema ⟨descriptionOf schema.description, [], roots schema⟩]

end SchemaText

open SchemaText

/-- The document that a schema is written as. -/
def Schema.toDocument (schema : Schema) : Document :=
  let shapes : ShapeLookup := fun name => schema.shape? (.named name)
  let standard := standardDirectives.map (·.name)
  let directives := schema.directives.filter fun d => !standard.contains d.name
  let directiveDef := fun (d : DirectiveSpec) => Definition.directive
    ⟨descriptionOf d.description, d.name, d.arguments.map (slotDef shapes), d.repeatable,
      d.locations⟩
  Document.ofDefinitions
    (schemaDef schema ++ directives.map directiveDef ++
      schema.declared.map fun type => .type (typeDef shapes type))

end RecordApi
