import RecordApi.Language.Document
import RecordApi.Language.Strings

/-!
# Printing documents

The text of a document in one fixed layout: definitions are set apart by blank lines, blocks are
indented by two blanks, and empty blocks are left out.
-/

namespace RecordApi.Language

namespace Layout

/-- The text between two others, or nothing if it is empty. -/
def wrap (before text after : String) : String :=
  if text.isEmpty then "" else before ++ text ++ after

/-- The texts that are not empty, with a separator between them. -/
def join (separator : String) (texts : List String) : String :=
  separator.intercalate (texts.filter fun text => !text.isEmpty)

/-- A character with the blanks that set in the line it begins, if it begins one. -/
def setIn (c : Char) : List Char :=
  if c = '\n' then ['\n', ' ', ' '] else [c]

/-- The text with every line moved in by two blanks. -/
def indent (text : String) : String :=
  wrap "  " (String.ofList (text.toList.flatMap setIn)) ""

/-- Texts one a line in braces, or nothing if there are none. -/
def block (texts : List String) : String :=
  wrap "\x7b\n" (indent (join "\n" texts)) "\n\x7d"

/-- Texts in parentheses on one line. -/
def inParens (texts : List String) : String :=
  wrap "(" (join ", " texts) ")"

/-- Texts in parentheses, one a line. -/
def inTallParens (texts : List String) : String :=
  wrap "(\n" (indent (join "\n" texts)) "\n)"

/-- Texts in parentheses, one a line if one of them takes several. -/
def inFittedParens (texts : List String) : String :=
  if texts.any fun text => text.toList.contains '\n' then inTallParens texts else inParens texts

/-- The longest line on which a field keeps its arguments. -/
def mostFieldLine : Nat :=
  80

end Layout

open Layout

mutual

/-- The text of a value. -/
def Value.print : Value → String
  | .variable _ name => "$" ++ name
  | .int _ text | .float _ text => text
  | .string _ text block => if block then blockString text else lineString text
  | .boolean _ b => if b then "true" else "false"
  | .null _ => "null"
  | .enum _ name => name
  | .list _ items => "[" ++ join ", " (printItems items) ++ "]"
  | .object _ fields => "\x7b" ++ join ", " (printFields fields) ++ "\x7d"

/-- The texts of the items of a list. -/
def printItems : List Value → List String
  | [] => []
  | item :: items => item.print :: printItems items

/-- The texts of the fields of an object. -/
def printFields : List (Name × Value) → List String
  | [] => []
  | (name, value) :: fields => (name.text ++ ": " ++ value.print) :: printFields fields

end

/-- The text of an argument. -/
def Argument.print (a : Argument) : String :=
  a.name.text ++ ": " ++ a.value.print

/-- The text of an applied directive. -/
def Directive.print (d : Directive) : String :=
  "@" ++ d.name ++ inParens (d.arguments.map Argument.print)

/-- The text of applied directives. -/
def printDirectives (ds : List Directive) : String :=
  join " " (ds.map Directive.print)

/-- The text of a description. -/
def Description.print (d : Description) : String :=
  if d.block then blockString d.text else lineString d.text

/-- A description on lines of its own before a text. -/
def described (description : Option Description) (text : String) : String :=
  wrap "" ((description.map Description.print).getD "") "\n" ++ text

/-- The text of a default. -/
def printDefault (default : Option Value) : String :=
  wrap "= " ((default.map Value.print).getD "") ""

/-- The text of an argument or a field of an input type. -/
def InputDef.print (d : InputDef) : String :=
  described d.description
    (join " " [d.name ++ ": " ++ d.type.text, printDefault d.default, printDirectives d.directives])

/-- The text of a field. -/
def FieldDef.print (d : FieldDef) : String :=
  described d.description
    (join " " [d.name ++ inFittedParens (d.arguments.map InputDef.print) ++ ": " ++ d.type.text,
      printDefault d.default, printDirectives d.directives])

/-- The text of a value of an enumeration. -/
def EnumValueDef.print (d : EnumValueDef) : String :=
  described d.description (join " " [d.name, printDirectives d.directives])

/-- The text of the type that serves a kind of operation. -/
def RootDef.print (d : RootDef) : String :=
  d.operation.text ++ ": " ++ d.type

/-- The text of the interfaces of a type. -/
def printInterfaces (interfaces : List String) : String :=
  wrap "implements " (join " & " interfaces) ""

/-- The text of a type definition without its description. -/
def TypeDef.printBare (d : TypeDef) : String :=
  let directives := printDirectives d.directives
  match d.body with
  | .scalar => join " " ["scalar", d.name, directives]
  | .object interfaces fields =>
    join " " ["type", d.name, printInterfaces interfaces, directives,
      block (fields.map FieldDef.print)]
  | .interface interfaces fields =>
    join " " ["interface", d.name, printInterfaces interfaces, directives,
      block (fields.map FieldDef.print)]
  | .union members =>
    join " " ["union", d.name, directives, wrap "= " (join " | " members) ""]
  | .enum values => join " " ["enum", d.name, directives, block (values.map EnumValueDef.print)]
  | .input fields => join " " ["input", d.name, directives, block (fields.map InputDef.print)]

/-- The text of a schema definition without its description. -/
def SchemaDef.printBare (d : SchemaDef) : String :=
  join " " ["schema", printDirectives d.directives, block (d.roots.map RootDef.print)]

/-- The text of a directive definition. -/
def DirectiveDef.print (d : DirectiveDef) : String :=
  described d.description
    ("directive @" ++ d.name ++ inFittedParens (d.arguments.map InputDef.print) ++
      (if d.repeatable then " repeatable" else "") ++ " on " ++ join " | " d.locations)

/-- The text of a variable of an operation. -/
def VariableDef.print (d : VariableDef) : String :=
  "$" ++ d.name.text ++ ": " ++ d.type.text ++
    wrap " = " ((d.default.map Value.print).getD "") "" ++
    wrap " " (printDirectives d.directives) ""

/-- The text of a field up to what is selected below it. -/
def FieldHead.print (head : FieldHead) : String :=
  let start := wrap "" (head.label.getD "") ": " ++ head.name
  let arguments := head.arguments.map Argument.print
  let line := start ++ inParens arguments
  let line := if mostFieldLine < line.length then start ++ inTallParens arguments else line
  join " " [line, printDirectives head.directives]

mutual

/-- The text of one item of a selection. -/
def Selection.print : Selection → String
  | .field head selections => join " " [head.print, block (printSelections selections)]
  | .spread _ name directives =>
    "..." ++ name.text ++ wrap " " (printDirectives directives) ""
  | .inline _ condition directives selections =>
    join " " ["...", wrap "on " ((condition.map (·.text)).getD "") "", printDirectives directives,
      block (printSelections selections)]

/-- The texts of the items of a selection. -/
def printSelections : List Selection → List String
  | [] => []
  | item :: items => item.print :: printSelections items

end

/-- The text of an operation; a plain query is written without its word. -/
def OperationDef.print (d : OperationDef) : String :=
  let name := (d.name.map (·.text)).getD "" ++ inParens (d.parameters.map VariableDef.print)
  let start := join " " [d.operation.text, name, printDirectives d.directives]
  (if start == "query" then "" else start ++ " ") ++ block (printSelections d.selections)

/-- The text of a fragment. -/
def FragmentDef.print (d : FragmentDef) : String :=
  "fragment " ++ d.name.text ++ inParens (d.parameters.map VariableDef.print) ++ " on " ++
    d.condition.text ++ " " ++ wrap "" (printDirectives d.directives) " " ++
    block (printSelections d.selections)

/-- The text of a definition. -/
def Definition.print : Definition → String
  | .operation d => d.print
  | .fragment d => d.print
  | .schema d => described d.description d.printBare
  | .schemaExtension d => "extend " ++ d.printBare
  | .type d => described d.description d.printBare
  | .typeExtension d => "extend " ++ d.printBare
  | .directive d => d.print

/-- The text of a document. -/
def Document.print (document : Document) : String :=
  join "\n\n" (document.definitions.map Definition.print)

end RecordApi.Language
