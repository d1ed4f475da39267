import RecordApi.Failure
import RecordApi.Language.Lexer

/-!
# Shared primitives

Every schema holds four types for filters, orders and pages. A namespace behind their names keeps
those of several schemas apart.
-/

namespace RecordApi

open RecordApi.Language

/-- The comparisons that a filter may ask for. -/
def filterOperations : List String :=
  ["LT", "LTE", "EQ", "GTE", "GT", "CONTAINS"]

namespace Primitives

/-- The name of the enumeration of comparisons. -/
def filterOperation (ns : String) : String :=
  "DataSourceFilterOperation" ++ ns

/-- The name of the input type of an order. -/
def orderInput (ns : String) : String :=
  "DataSourceOrderInput" ++ ns

/-- The name of the input type of a filter. -/
def filterInput (ns : String) : String :=
  "DataSourceFilterInput" ++ ns

/-- The name of the type that describes a page. -/
def pageInfo (ns : String) : String :=
  "DataSourcePageInfo" ++ ns

/-- The names of all primitives. -/
def names (ns : String) : List String :=
  [filterOperation ns, orderInput ns, filterInput ns, pageInfo ns]

/-- An input field with a description. -/
def inputField (description : Option String) (name : String) (type : TypeExpr) : InputDef :=
  ⟨description.map fun text => ⟨text, true⟩, name, type, none, []⟩

/-- An optional truth value. -/
def flagField (name : String) : FieldDef :=
  ⟨none, name, [], .named "Boolean", none, [], false⟩

/-- The primitives, in the order of their names. -/
def definitions (ns : String) : List Definition :=
  let required := fun name => TypeExpr.nonNull (.named name)
  [ .type
      { description := none
        name := filterInput ns
        directives := []
        body := .input
          [ inputField (some "Name of the field to compare.") "field" (required "String"),
            inputField none "op" (required (filterOperation ns)),
            inputField (some "Value compared against, serialized as a string.") "value"
              (required "String") ] },
    .type
      { description := some ⟨"Comparison applied by a list filter.", true⟩
        name := filterOperation ns
        directives := []
        body := .enum (filterOperations.map fun op => ⟨none, op, []⟩) },
    .type
      { description := none
        name := orderInput ns
        directives := []
        body := .input
          [ inputField (some "Name of the field to order by.") "field" (required "String"),
            inputField (some "Sort descending when true.") "desc" (.named "Boolean") ] },
    .type
      { description := none
        name := pageInfo ns
        directives := []
        body := .object [] [flagField "hasNextPage", flagField "hasPreviousPage"] } ]

/-- The document of the primitives. A namespace must be made of name characters. -/
def document (ns : String) : Except Failure Document :=
  if ns.toList.all isNameContinue then
    .ok (Document.ofDefinitions (definitions ns))
  else
    .error (.invalidName (filterOperation ns))

end Primitives

end RecordApi
