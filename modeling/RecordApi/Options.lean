import RecordApi.Failure
import RecordApi.Language.Reader

/-!
# Options

What shapes a schema and its resolvers, and how options are replaced by others.
-/

namespace RecordApi

open RecordApi.Language

/-- Where the times of writing come from: the clock of the system, or a counter that goes on by a
step at each look. -/
inductive Clock where
  | system
  | counter (start step : Int)
deriving DecidableEq, Repr, Inhabited

/-- The instants that a counter answers first. -/
def Clock.instants (start step : Int) (count : Nat) : List Int :=
  (List.range count).map fun k : Nat => start + (k : Int) * step

/-- The options of a schema. -/
structure Options where
  /-- Stands behind the names of the primitives. -/
  ns : String := ""
  /-- Whether records carry the times of their creation and last change. -/
  timestamps : Bool := false
  /-- Chooses identifiers. -/
  selector : Option IdSelector := none
  /-- How fragments are read. -/
  reading : ReadOptions := {}
  /-- Whether the collection is acquired anew for each call. -/
  requestScoped : Bool := false
  /-- The most items of a page. -/
  mostPerPage : Int := 100
  clock : Clock := .system

instance : Inhabited Options := ⟨{}⟩

/-- Options that replace others where they are given. -/
structure Overrides where
  ns : Option String := none
  timestamps : Option Bool := none
  selector : Option IdSelector := none
  reading : Option ReadOptions := none
  requestScoped : Option Bool := none
  mostPerPage : Option Int := none
  clock : Option Clock := none

namespace Options

/-- The names under which options are given. -/
def knownNames : List String :=
  ["namespace", "timestamps", "id_field_selector", "parse_options", "request_scoped",
    "max_page_size", "clock"]

/-- The options with those given replaced. -/
def apply (options : Options) (overrides : Overrides) : Options :=
  { ns := overrides.ns.getD options.ns
    timestamps := overrides.timestamps.getD options.timestamps
    selector := overrides.selector.or options.selector
    reading := overrides.reading.getD options.reading
    requestScoped := overrides.requestScoped.getD options.requestScoped
    mostPerPage := overrides.mostPerPage.getD options.mostPerPage
    clock := overrides.clock.getD options.clock }

@[simp] theorem apply_none (options : Options) : options.apply {} = options := by
  simp [apply]

/-- The options with those given replaced, unless one is given under a name that is not known. -/
def override (options : Options) (names : List String) (overrides : Overrides) :
    Except Failure Options :=
  match (names.filter fun name => !knownNames.contains name).eraseDups with
  | [] => .ok (options.apply overrides)
  | unknown => .error (.unknownOptions (unknown.mergeSort fun a b => decide (a ≤ b)))

end Options

end RecordApi
