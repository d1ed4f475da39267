import RecordApi.Validation.Visit

/-!
# Rules

A rule goes over the visits of a document and answers its reports at each of them. Several rules
report together visit by visit, and at one visit in the order of the rules.
-/

namespace RecordApi.Validation

open RecordApi.Language

/-- What a rule finds wrong, with the places that show it. -/
structure Report where
  message : String
  places : List Pos
deriving DecidableEq, Repr, Inhabited

/-- A rule: the reports at each visit. -/
abbrev Rule (σ : Type) := List (Visit σ) → List (List Report)

namespace Rule

variable {σ : Type}

/-- The rule that looks at each visit alone. -/
def looking (look : Visit σ → List Report) : Rule σ :=
  List.map look

/-- The rule that looks at each part alone when it is entered. -/
def entering (look : Part → σ → List Report) : Rule σ :=
  looking fun visit => if visit.entering then look visit.part visit.scope else []

/-- The rule that looks at each part alone when it is left. -/
def leaving (look : Part → σ → List Report) : Rule σ :=
  looking fun visit => if visit.entering then [] else look visit.part visit.scope

/-- The rule that keeps a memory from visit to visit. -/
def remembering {μ : Type} (step : Visit σ → μ → List Report × μ) : μ → Rule σ
  | _, [] => []
  | memory, visit :: visits =>
    let (reports, memory) := step visit memory
    reports :: remembering step memory visits

/-- The reports of several rules at each visit. -/
def together (rules : List (Rule σ)) : Rule σ := fun visits =>
  rules.foldr (fun rule reports => List.zipWith (· ++ ·) (rule visits) reports)
    (visits.map fun _ => [])

/-- All reports of several rules. -/
def reports (rules : List (Rule σ)) (visits : List (Visit σ)) : List Report :=
  (together rules visits).flatten

/-- The most reports on a request. -/
def mostReports : Nat :=
  100

/-- The first reports, with a last one to tell that there are more than are shown. -/
def limited (reports : List Report) : List Report :=
  if mostReports < reports.length then
    reports.take mostReports ++
      [⟨"Too many validation errors, error limit reached. Validation aborted.", []⟩]
  else
    reports

/-- Reports each of some names that has been met before, and answers the names met by then. -/
def repeated (message : String → String) (names seen : List Name) : List Report × List Name :=
  names.foldl (fun (reports, seen) name =>
    match seen.find? (·.text == name.text) with
    | some first => (reports ++ [⟨message name.text, [first.pos, name.pos]⟩], seen)
    | none => (reports, seen ++ [name])) ([], seen)

/-- The names that occur more than once, in the order of their first occurrence. -/
def duplicates (names : List String) : List String :=
  names.eraseDups.filter fun name => 1 < names.count name

end Rule

end RecordApi.Validation
