import RecordApi.Text.Case

/-!
# Names of generated declarations

An entry point is named by the lower camel case form of its root type. Record keys are matched
across the camel case and snake case spellings of one name.
-/

namespace RecordApi.Naming

/-- An ASCII capital. -/
def isCapital (c : Char) : Bool :=
  'A' ≤ c && c ≤ 'Z'

/-- An ASCII small letter. -/
def isSmall (c : Char) : Bool :=
  'a' ≤ c && c ≤ 'z'

/-- An ASCII digit. -/
def isDigit (c : Char) : Bool :=
  '0' ≤ c && c ≤ '9'

/-- An ASCII letter or digit. -/
def isWordChar (c : Char) : Bool :=
  isCapital c || isSmall c || isDigit c

/-- The piece that touches the start of a text, which may be empty, and the later nonempty pieces,
where the separators are the characters that satisfy `sep`. -/
def cut (sep : Char → Bool) : List Char → List Char × List (List Char)
  | [] => ([], [])
  | c :: cs =>
    let (piece, later) := cut sep cs
    if sep c then
      ([], if piece.isEmpty then later else piece :: later)
    else
      (c :: piece, later)

/-- The nonempty pieces of a text between separators. -/
def pieces (sep : Char → Bool) (cs : List Char) : List (List Char) :=
  let (piece, later) := cut sep cs
  if piece.isEmpty then later else piece :: later

theorem cut_plain (sep : Char → Bool) (cs : List Char) :
    (∀ c ∈ (cut sep cs).1, sep c = false) ∧
      ∀ piece ∈ (cut sep cs).2, piece ≠ [] ∧ ∀ c ∈ piece, sep c = false := by
  induction cs with
  | nil => simp [cut]
  | cons c cs ih =>
    obtain ⟨first, later⟩ := ih
    by_cases hs : sep c = true
    · by_cases he : (cut sep cs).1 = []
      · simpa [cut, hs, he] using later
      · simpa [cut, hs, he] using ⟨first, later⟩
    · simpa [cut, hs] using ⟨first, later⟩

/-- Pieces are not empty and hold no separator. -/
theorem pieces_plain (sep : Char → Bool) (cs : List Char) :
    ∀ piece ∈ pieces sep cs, piece ≠ [] ∧ ∀ c ∈ piece, sep c = false := by
  obtain ⟨first, later⟩ := cut_plain sep cs
  by_cases he : (cut sep cs).1 = []
  · simpa [pieces, he] using later
  · simpa [pieces, he] using ⟨first, later⟩

/-- Lowers the leading capitals of a word: all of them before a digit or at the end of the word,
all but the last before a small letter. A single leading capital is always lowered. -/
def lowerLead (word : List Char) : List Char :=
  let capitals := word.takeWhile isCapital
  let rest := word.dropWhile isCapital
  let kept := match rest with
    | c :: _ => if isSmall c && 1 < capitals.length then capitals.length - 1 else capitals.length
    | [] => capitals.length
  (word.take kept).map Char.toLower ++ word.drop kept

/-- The word with its first letter raised. -/
def raiseFirst : List Char → List Char
  | [] => []
  | c :: cs => c.toUpper :: cs

/-- The lower camel case form of a type name. -/
def lowerCamelChars (name : List Char) : List Char :=
  match pieces (fun c => !isWordChar c) name with
  | [] => []
  | head :: tail => lowerLead head ++ (tail.map raiseFirst).flatten

/-- The lower camel case form of a type name: leading acronyms are lowered as a whole, and
separators are dropped with the letter after them raised. -/
def lowerCamel (name : String) : String :=
  String.ofList (lowerCamelChars name.toList)

/-- Sets an underscore before each capitalized word, read from the left. The character before such
a word may be any but a line feed, and a word is consumed with the character before it. The number
counts how many characters are still covered by the word found last. -/
def markWords : Nat → List Char → List Char
  | _, [] => []
  | covered + 1, c :: cs => c :: markWords covered cs
  | 0, c :: cs =>
    match cs with
    | capital :: small :: rest =>
      if c != '\n' && isCapital capital && isSmall small then
        c :: '_' :: markWords ((small :: rest).takeWhile isSmall).length.succ cs
      else
        c :: markWords 0 cs
    | _ => c :: markWords 0 cs

/-- Sets an underscore between a small letter or digit and a capital. -/
def markHumps : List Char → List Char
  | c :: capital :: rest =>
    if (isSmall c || isDigit c) && isCapital capital then
      c :: '_' :: markHumps (capital :: rest)
    else
      c :: markHumps (capital :: rest)
  | cs => cs

/-- The snake case form of a camel case name. -/
def camelToSnakeChars (name : List Char) : List Char :=
  Text.lower (markHumps (markWords 0 name))

/-- The snake case form of a camel case name; runs of capitals stay together. -/
def camelToSnake (name : String) : String :=
  String.ofList (camelToSnakeChars name.toList)

/-- The camel case form of a snake case name, with the first word capitalized if asked for. A name
without underscores keeps its capitals. -/
def snakeToCamelChars (upperFirst : Bool) (name : List Char) : List Char :=
  if name.contains '_' then
    match pieces (· == '_') name with
    | [] => []
    | first :: rest =>
      (if upperFirst then Text.capitalize first else Text.lower first) ++
        (rest.map Text.capitalize).flatten
  else if upperFirst then
    Text.upperFirst name
  else
    name

/-- The camel case form of a snake case name. -/
def snakeToCamel (name : String) (upperFirst : Bool) : String :=
  String.ofList (snakeToCamelChars upperFirst name.toList)

end RecordApi.Naming
