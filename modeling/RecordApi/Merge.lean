import RecordApi.Failure
import RecordApi.Language.Parts

/-!
# Merging documents

Documents are merged from left to right. A definition whose key is already declared is combined
with the earlier one by the policy for its key; any other definition, and every extension, is added
at the end.
-/

namespace RecordApi

open RecordApi.Language

/-- What becomes of an earlier definition when a later one has the same key. -/
inductive MergePolicy where
  /-- The later definition takes its place. -/
  | override
  /-- Both become an object type that unites their directives, interfaces and fields. -/
  | fieldUnion
deriving DecidableEq, Repr, Inhabited

/-- Policies by key; of two entries for a key the first counts. -/
abbrev PolicyTable := List (String × MergePolicy)

namespace PolicyTable

/-- The root types that unite their fields unless told otherwise. -/
def standard : PolicyTable :=
  [("Query", .fieldUnion), ("Mutation", .fieldUnion), ("Subscription", .fieldUnion)]

/-- The table with a policy for a key. -/
def register (table : PolicyTable) (key : String) (policy : MergePolicy) : PolicyTable :=
  (key, policy) :: table

/-- The policy for a key. -/
def policyFor (table : PolicyTable) (key : String) : MergePolicy :=
  (table.lookup key).getD .override

end PolicyTable

namespace Merge

/-- The key of every schema definition. -/
def schemaKey : String :=
  "__schema"

/-- The key under which a definition collides with others; extensions have none. -/
def key? (d : Definition) : Option String :=
  match d with
  | .schemaExtension _ | .typeExtension _ => none
  | .schema _ => some schemaKey
  | d => d.name?

/-- Whether a definition has to be merged by name and has none. -/
def isUnnamed (d : Definition) : Bool :=
  match d with
  | .operation o => o.name.isNone
  | _ => false

/-- Puts an item in the place of the last one of its name, or at the end if there is none. -/
def putByName {α : Type} (name : α → String) (item : α) : List α → List α
  | [] => [item]
  | other :: rest =>
    if name other = name item ∧ rest.all (fun x => name x ≠ name item) then
      item :: rest
    else
      other :: putByName name item rest

/-- Unites two lists by name: an item of the second takes the place of its namesake in the first. -/
def nameMerge {α : Type} (name : α → String) (first second : List α) : List α :=
  second.foldl (fun merged item => putByName name item merged) first

@[simp] theorem nameMerge_nil {α : Type} (name : α → String) (first : List α) :
    nameMerge name first [] = first := rfl

theorem mem_putByName {α : Type} (name : α → String) (item : α) (items : List α) :
    item ∈ putByName name item items := by
  induction items with
  | nil => simp [putByName]
  | cons other rest ih =>
    unfold putByName
    split
    · simp
    · exact List.mem_cons_of_mem other ih

/-- The object type that unites two definitions under the name of the earlier one. -/
def fieldUnion (key : String) (earlier later : Definition) : Definition :=
  .type
    { description := later.description.or earlier.description
      name := key
      directives := nameMerge Directive.name earlier.directives later.directives
      body := .object (nameMerge id earlier.interfaces later.interfaces)
        (nameMerge FieldDef.name earlier.fields later.fields) }

/-- Combines two definitions of one key. -/
def combine (policy : MergePolicy) (key : String) (earlier later : Definition) : Definition :=
  match policy with
  | .override => later
  | .fieldUnion => fieldUnion key earlier later

/-- Adds a definition with a key: combined with the first one of the key, or else at the end. -/
def absorb (policy : MergePolicy) (key : String) (d : Definition) :
    List Definition → List Definition
  | [] => [d]
  | earlier :: rest =>
    if key? earlier = some key then combine policy key earlier d :: rest
    else earlier :: absorb policy key d rest

/-- The policy for a key; schema definitions always override. -/
def policyOf (table : PolicyTable) (key : String) : MergePolicy :=
  if key = schemaKey then .override else table.policyFor key

/-- Adds a definition to a merged list. -/
def add (table : PolicyTable) (merged : List Definition) (d : Definition) : List Definition :=
  match key? d with
  | none => merged ++ [d]
  | some key => absorb (policyOf table key) key d merged

/-- Merges lists of definitions. The first list that is not empty is kept as it is. -/
def mergeDefinitions (table : PolicyTable) : List (List Definition) → List Definition
  | [] => []
  | [] :: rest => mergeDefinitions table rest
  | first :: rest => rest.flatten.foldl (add table) first

@[simp] theorem mergeDefinitions_nil_cons (table : PolicyTable) (lists : List (List Definition)) :
    mergeDefinitions table ([] :: lists) = mergeDefinitions table lists := rfl

@[simp] theorem mergeDefinitions_singleton (table : PolicyTable) (first : List Definition) :
    mergeDefinitions table [first] = first := by
  cases first <;> rfl

/-- Merges documents. Every definition that is no extension must have a key. -/
def mergeDocuments (table : PolicyTable) (documents : List Document) :
    Except Failure Document :=
  let lists := documents.map (·.definitions)
  match lists.flatten.find? isUnnamed with
  | some d => .error (.unnamed d.kindName)
  | none => .ok (Document.ofDefinitions (mergeDefinitions table lists))

end Merge

end RecordApi
