import RecordApi.Data.Datum
import RecordApi.Failure
import RecordApi.Paging.Window

/-!
# Collections

A collection holds the records of one root type. Its operations may change a world of the caller's
choice, and may fail.
-/

namespace RecordApi

/-- What is asked of a list: filters and orders as they were given, cursors, and page sizes within
their bound. A cursor with a limit is the older way to ask for a page. -/
structure ListOptions where
  filter : Datum := .null
  order : Datum := .null
  before : Datum := .null
  after : Datum := .null
  first : Option Int := none
  last : Option Int := none
  cursor : Datum := .null
  limit : Option Int := none
deriving Inhabited

namespace ListOptions

/-- A page size as a value. -/
def sizeDatum : Option Int → Datum
  | some n => .int n
  | none => .null

/-- The page size under a name, as it was given. -/
def sizeOf (arguments : Datum.Entries) (name : String) : Option Int :=
  match Entries.get arguments name with
  | .int n => some n
  | .bool b => some (if b then 1 else 0)
  | _ => none

/-- The options in arguments, with page sizes kept as they are. -/
def ofArguments (arguments : Datum.Entries) : ListOptions :=
  { filter := Entries.get arguments "filter"
    order := Entries.get arguments "order"
    before := Entries.get arguments "before"
    after := Entries.get arguments "after"
    first := sizeOf arguments "first"
    last := sizeOf arguments "last"
    cursor := Entries.get arguments "cursor"
    limit := sizeOf arguments "limit" }

/-- The options with each page size within the bound. -/
def clamp (options : ListOptions) (most : Int) : ListOptions :=
  { options with
    first := Paging.clampSize options.first most
    last := Paging.clampSize options.last most
    limit := Paging.clampSize options.limit most }

/-- The options as a record with all eight entries. -/
def toDatum (options : ListOptions) : Datum :=
  .record
    [ ("filter", options.filter), ("order", options.order), ("before", options.before),
      ("after", options.after), ("first", sizeDatum options.first),
      ("last", sizeDatum options.last), ("cursor", options.cursor),
      ("limit", sizeDatum options.limit) ]

end ListOptions

/-- An action on a world `σ` that answers a value or fails. What it has changed when it fails stays
changed. -/
abbrev Action (σ : Type) := ExceptT Failure (StateM σ)

/-- The operations on the records of one root type. Identifiers are any values. -/
structure Collection (σ : Type) where
  find : Datum → Action σ Datum
  list : ListOptions → Action σ Datum
  create : Datum → Datum.Entries → Action σ Datum
  update : Datum → Datum.Entries → Action σ Datum
  upsert : Datum → Datum.Entries → Action σ Datum
  delete : Datum → Action σ Datum

end RecordApi
