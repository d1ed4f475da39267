import RecordApi.Data.Association
import RecordApi.Number.Decimal
import RecordApi.Time.DateTime
import RecordApi.Text.Quoted

/-!
# Data

The values that arguments, variables and records hold. A record keeps its entries in the order in
which they were first written.
-/

namespace RecordApi

/-- A value of a record, an argument or an answer. -/
inductive Datum where
  | null
  | bool (b : Bool)
  | int (n : Int)
  | real (x : Number.Double)
  | text (s : String)
  | list (items : List Datum)
  | record (entries : List (String × Datum))
  | dateTime (t : Time.DateTime)
  | decimal (digits : String)
deriving Inhabited

mutual

/-- Whether two values are the same. -/
def Datum.same : Datum → Datum → Bool
  | .null, .null => true
  | .bool a, .bool b => a == b
  | .int a, .int b => a == b
  | .real a, .real b => a == b
  | .text a, .text b => a == b
  | .list xs, .list ys => Datum.sameItems xs ys
  | .record xs, .record ys => Datum.sameEntries xs ys
  | .dateTime a, .dateTime b => a == b
  | .decimal a, .decimal b => a == b
  | _, _ => false

/-- Whether two lists of values are the same. -/
def Datum.sameItems : List Datum → List Datum → Bool
  | [], [] => true
  | x :: xs, y :: ys => x.same y && Datum.sameItems xs ys
  | _, _ => false

/-- Whether two records have the same entries in the same order. -/
def Datum.sameEntries : List (String × Datum) → List (String × Datum) → Bool
  | [], [] => true
  | (a, x) :: xs, (b, y) :: ys => a == b && x.same y && Datum.sameEntries xs ys
  | _, _ => false

end

mutual

theorem Datum.same_iff (a b : Datum) : a.same b = true ↔ a = b := by
  cases a with
  | list xs => cases b <;> simp [Datum.same, Datum.sameItems_iff xs]
  | record xs => cases b <;> simp [Datum.same, Datum.sameEntries_iff xs]
  | _ => cases b <;> simp [Datum.same]

theorem Datum.sameItems_iff (xs ys : List Datum) : Datum.sameItems xs ys = true ↔ xs = ys := by
  cases xs with
  | nil => cases ys <;> simp [Datum.sameItems]
  | cons x xs => cases ys <;> simp [Datum.sameItems, x.same_iff, Datum.sameItems_iff xs]

theorem Datum.sameEntries_iff (xs ys : List (String × Datum)) :
    Datum.sameEntries xs ys = true ↔ xs = ys := by
  cases xs with
  | nil => cases ys <;> simp [Datum.sameEntries]
  | cons x xs =>
    cases x with
    | mk a x =>
      cases ys with
      | nil => simp [Datum.sameEntries]
      | cons y ys =>
        cases y with
        | mk b y => simp [Datum.sameEntries, x.same_iff, Datum.sameEntries_iff xs]

end

instance : DecidableEq Datum := fun a b =>
  decidable_of_iff (a.same b = true) (a.same_iff b)

namespace Datum

/-- A record of entries under names. -/
abbrev Entries := Association Datum

/-- Whether a value is the missing one. -/
def isNull : Datum → Bool
  | null => true
  | _ => false

/-- The text itself, of a text. -/
def text? : Datum → Option String
  | text s => some s
  | _ => none

/-- The entries of a record. -/
def entries? : Datum → Option Entries
  | record entries => some entries
  | _ => none

/-- A value or the missing one. -/
def ofOption : Option Datum → Datum
  | some d => d
  | none => null

end Datum

namespace Entries

/-- The value under a name. -/
def get? (entries : Datum.Entries) (name : String) : Option Datum :=
  entries.lookup name

/-- The value under a name, missing if there is none. -/
def get (entries : Datum.Entries) (name : String) : Datum :=
  (entries.lookup name).getD .null

/-- Writes a value under a name: in its place if the name is there, at the end otherwise. -/
def set (name : String) (value : Datum) (entries : Datum.Entries) : Datum.Entries :=
  Association.put name value entries

/-- Writes all entries of the second record into the first. -/
def merge (entries more : Datum.Entries) : Datum.Entries :=
  Association.putAll entries more

theorem get_set (entries : Datum.Entries) (key name : String) (value : Datum) :
    get (set key value entries) name = if name = key then value else get entries name := by
  by_cases h : name = key <;> simp [get, set, Association.lookup_put, h]

@[simp] theorem get_set_self (entries : Datum.Entries) (name : String) (value : Datum) :
    get (set name value entries) name = value := by
  simp [get_set]

end Entries

namespace Datum

/-- The most characters of a text that messages show. -/
def mostShown : Nat :=
  240

/-- A long text with its middle left out. -/
def clipText (s : String) : String :=
  let cs := s.toList
  if mostShown < cs.length then
    String.ofList (cs.take 118) ++ "..." ++ String.ofList (cs.drop (cs.length - 119))
  else
    s

/-- Items joined by commas, the middle of more than ten left out. -/
def clipItems (items : List String) : String :=
  let shown :=
    if 10 < items.length then items.take 5 ++ ["..."] ++ items.drop (items.length - 4) else items
  ", ".intercalate shown

mutual

/-- The form in which messages show a value that lies inside so many others. -/
def shownAt (depth : Nat) : Datum → String
  | null => "None"
  | bool b => if b then "True" else "False"
  | int n => clipText (toString n)
  | real x => x.text
  | text s => clipText (Text.quoted s)
  | list [] => "[]"
  | list (item :: items) =>
    if 2 ≤ depth then "[...]"
    else "[" ++ clipItems (shownAt (depth + 1) item :: shownItems (depth + 1) items) ++ "]"
  | record [] => "\x7b\x7d"
  | record (entry :: entries) =>
    if 2 ≤ depth then "\x7b...\x7d"
    else "\x7b" ++ clipItems (shownEntries (depth + 1) (entry :: entries)) ++ "\x7d"
  | dateTime _ => "<datetime instance>"
  | decimal _ => "<Decimal instance>"

/-- The shown forms of the items of a list. -/
def shownItems (depth : Nat) : List Datum → List String
  | [] => []
  | item :: items => shownAt depth item :: shownItems depth items

/-- The shown forms of the entries of a record. -/
def shownEntries (depth : Nat) : List (String × Datum) → List String
  | [] => []
  | (name, value) :: entries =>
    (clipText (Text.quoted name) ++ ": " ++ shownAt depth value) :: shownEntries depth entries

end

/-- The form in which messages show a value. -/
def shown (d : Datum) : String :=
  d.shownAt 0

mutual

/-- The full form of a value, with nothing left out. -/
def spelled : Datum → String
  | null => "None"
  | bool b => if b then "True" else "False"
  | int n => toString n
  | real x => x.text
  | text s => Text.quoted s
  | list items => "[" ++ ", ".intercalate (spelledItems items) ++ "]"
  | record entries => "\x7b" ++ ", ".intercalate (spelledEntries entries) ++ "\x7d"
  | dateTime t => t.isoText
  | decimal digits => "Decimal('" ++ digits ++ "')"

/-- The full forms of the items of a list. -/
def spelledItems : List Datum → List String
  | [] => []
  | item :: items => item.spelled :: spelledItems items

/-- The full forms of the entries of a record. -/
def spelledEntries : List (String × Datum) → List String
  | [] => []
  | (name, value) :: entries =>
    (Text.quoted name ++ ": " ++ value.spelled) :: spelledEntries entries

end

/-- The text of a value: a text stands for itself. -/
def plainText : Datum → String
  | text s => s
  | dateTime t => t.textWith " "
  | decimal digits => digits
  | d => d.spelled

end Datum

end RecordApi
