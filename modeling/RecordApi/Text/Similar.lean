/-!
# Similar names

Messages about an unknown name suggest known ones that are close to it. The distance counts
insertions, deletions, substitutions and swaps of neighbours, without regard to case.
-/

namespace RecordApi.Text

/-- The distances from a longer beginning of one text to all beginnings of another, given those of
the two beginnings before it. `c` is the character added and `before` the one in front of it. -/
def nextRow (before : Option Char) (c : Char) (row : Nat) (other : List Char)
    (above twoAbove : List Nat) : List Nat :=
  let rec go (left : Nat) (last : Option Char) :
      List Char → List Nat → List Nat → List Nat
    | d :: ds, corner :: up :: above, far =>
      let plain := min (min (up + 1) (left + 1)) (corner + if c = d then 0 else 1)
      let cell := match before, last, far with
        | some b, some l, swapped :: _ => if c = l ∧ b = d then min plain (swapped + 1) else plain
        | _, _, _ => plain
      cell :: go cell (some d) ds (up :: above) (match last with
        | none => far
        | some _ => far.drop 1)
    | _, _, _ => []
  row :: go row none other above twoAbove

/-- The last row of distances. -/
def lastRow (other : List Char) :
    Option Char → Nat → List Char → List Nat → List Nat → List Nat
  | _, _, [], above, _ => above
  | before, row, c :: cs, above, twoAbove =>
    lastRow other (some c) (row + 1) cs (nextRow before c (row + 1) other above twoAbove) above

/-- The distance between two texts. -/
def editDistance (a b : List Char) : Nat :=
  (lastRow b none 0 a (List.range (b.length + 1)) []).getLastD 0

/-- How far a known name is from a given one; a mere difference in case counts as one. -/
def nameDistance (given known : String) : Nat :=
  if given = known then 0
  else
    let a := given.toList.map Char.toLower
    let b := known.toList.map Char.toLower
    if a = b then 1 else editDistance b a

/-- The largest distance at which a name is still suggested. -/
def mostDistance (given : String) : Nat :=
  given.length * 2 / 5 + 1

/-- A stretch of digits or of other characters. -/
inductive NamePart where
  | word (cs : List Char)
  | number (digits : List Char)

/-- Cuts a name into stretches that alternate between words, the first of which may be empty, and
numbers. -/
def nameParts : List Char → List NamePart
  | [] => [.word []]
  | c :: cs =>
    match c.isDigit, nameParts cs with
    | true, .word [] :: .number digits :: rest => .word [] :: .number (c :: digits) :: rest
    | true, rest => .word [] :: .number [c] :: rest
    | false, .word w :: rest => .word (c :: w) :: rest
    | false, rest => .word [c] :: rest

/-- The number written by digits. -/
def digitsValue (digits : List Char) : Nat :=
  digits.foldl (fun n c => 10 * n + (c.toNat - 48)) 0

/-- Compares stretches: words letter by letter, numbers by value and then by their digits. -/
def compareParts : List NamePart → List NamePart → Ordering
  | [], [] => .eq
  | [], _ => .lt
  | _, [] => .gt
  | .word a :: as, .word b :: bs => (compare a b).then (compareParts as bs)
  | .number a :: as, .number b :: bs =>
    ((compare (digitsValue a) (digitsValue b)).then (compare a b)).then (compareParts as bs)
  | .word _ :: _, .number _ :: _ => .gt
  | .number _ :: _, .word _ :: _ => .lt

/-- Whether one name comes before another when numbers in them count by value. -/
def naturalLe (a b : String) : Bool :=
  compareParts (nameParts a.toList) (nameParts b.toList) != .gt

/-- The known names that are close to a given one, the closest first. -/
def similarNames (given : String) (known : List String) : List String :=
  let near := (known.eraseDups.map fun name => (nameDistance given name, name)).filter
    fun (distance, _) => distance ≤ mostDistance given
  (near.mergeSort fun (d, a) (e, b) => d < e || (d == e && naturalLe a b)).map (·.2)

/-- The most names of a suggestion. -/
def mostSuggested : Nat :=
  5

/-- Names in single quotes, joined as alternatives. -/
def alternatives (names : List String) : String :=
  let quote := fun name : String => "'" ++ name ++ "'"
  match names with
  | [] => ""
  | [a] => quote a
  | [a, b] => quote a ++ " or " ++ quote b
  | names => ", ".intercalate (names.dropLast.map quote) ++ ", or " ++ quote (names.getLastD "")

/-- The end of a message that suggests names, which may be introduced by some words. -/
def didYouMeanThe (words : String) (names : List String) : String :=
  if names.isEmpty then ""
  else " Did you mean " ++ words ++ alternatives (names.take mostSuggested) ++ "?"

/-- The end of a message that suggests names. -/
def didYouMean (names : List String) : String :=
  didYouMeanThe "" names

end RecordApi.Text
