/-!
# Contexts

A request may carry its database session in a context, under one of several customary names. A
context is a mapping, an object with attributes, or something that holds nothing.
-/

namespace RecordApi

/-- The names and values that a context holds; a value may be missing. -/
inductive Context (α : Type) where
  | mapping (entries : List (String × Option α))
  | attributes (entries : List (String × Option α))
  | bare
deriving Repr

namespace Context

/-- The names under which a session may stand, in the order in which they are tried. -/
def sessionNames : List String :=
  ["db_session", "db", "session", "async_session"]

/-- What stands under the first of the customary names that has a value. -/
def session? {α : Type} : Context α → Option α
  | mapping entries | attributes entries =>
    sessionNames.findSome? fun name => (entries.lookup name).join
  | bare => none

end Context

end RecordApi
