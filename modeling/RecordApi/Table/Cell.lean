import RecordApi.Number.Decimal
import RecordApi.Number.Numeral

/-!
# Cells

What a table stores: nothing, an integer of one word, a number, or a text. Cells of all kinds are
ordered, nothing before numbers and numbers before texts. The affinity of a column says which kind
of cell it prefers.
-/

namespace RecordApi.Table

open Number

/-- A stored value. -/
inductive Cell where
  | null
  | integer (n : Int)
  | real (x : Double)
  | text (s : String)
deriving DecidableEq, Repr, Inhabited

/-- The least integer of one word. -/
def leastWord : Int :=
  -9223372036854775808

/-- The greatest integer of one word. -/
def mostWord : Int :=
  9223372036854775807

/-- Whether an integer takes no more than one word. -/
def fitsWord (n : Int) : Bool :=
  leastWord ≤ n && n ≤ mostWord

namespace Cell

/-- Whether nothing is stored. -/
def isNull : Cell → Bool
  | null => true
  | _ => false

/-- The place of a number on the line. -/
def place? : Cell → Option Double.Place
  | integer n => some (Double.placeOfInt n)
  | real x => x.place?
  | _ => none

/-- The order of cells. Numbers are ordered by size, whatever their kind, and texts by their code
points, which is the order of their UTF-8 bytes. -/
def compare (a b : Cell) : Ordering :=
  match a, b with
  | null, null => .eq
  | null, _ => .lt
  | _, null => .gt
  | text s, text t => Ord.compare s t
  | text _, _ => .gt
  | _, text _ => .lt
  | a, b =>
    match a.place?, b.place? with
    | some p, some q => p.compare q
    | none, some _ => .lt
    | some _, none => .gt
    | none, none => .eq

/-- The text of a cell, if anything is stored. -/
def text? : Cell → Option String
  | null => none
  | integer n => some (toString n)
  | real x => some x.storedText
  | text s => some s

/-- The number that a text writes: an integer if it is whole and takes one word, and otherwise the
nearest double. -/
def ofNumeral (n : Numeral) : Cell :=
  if n.whole && fitsWord n.toInt then integer n.toInt else real n.toDouble

/-- A text that writes a number as that number; any other cell as it is. -/
def numbered : Cell → Cell
  | text s =>
    match Numeral.read? s.toList with
    | some n => ofNumeral n
    | none => text s
  | cell => cell

/-- A number as its text; any other cell as it is. -/
def lettered (cell : Cell) : Cell :=
  match cell with
  | integer _ | real _ => (cell.text?.map text).getD null
  | cell => cell

/-- A number that is an integer strictly inside the range of words as that integer. -/
def compact : Cell → Cell
  | real x =>
    match x.toInt? with
    | some n => if leastWord < n && n < mostWord then integer n else real x
    | none => real x
  | cell => cell

/-- An integer as a double. -/
def widened : Cell → Cell
  | integer n => real (Double.ofInt n)
  | cell => cell

end Cell

/-- The kind of cell that a column prefers. -/
inductive Affinity where
  | text
  | numeric
  | real
deriving DecidableEq, Repr, Inhabited

namespace Affinity

/-- The cell that is stored for a cell. -/
def stored : Affinity → Cell → Cell
  | text, cell => cell.lettered
  | numeric, cell => cell.numbered.compact
  | real, cell => cell.numbered.compact.widened

/-- The cell that stands for an operand when it is compared with a column. -/
def compared : Affinity → Cell → Cell
  | text, cell => cell.lettered
  | numeric, cell | real, cell => cell.numbered

end Affinity

end RecordApi.Table
