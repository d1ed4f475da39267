import RecordApi.Source

/-!
# Schema fragments in files

A tree of files is a list of paths with what they lead to. Fragments are read from one file, or from
all files of a directory whose path below it matches a pattern.
-/

namespace RecordApi

open RecordApi.Language

namespace Files

/-- The names on the way from the root of the tree to a file. -/
abbrev Path := List String

/-- What a path leads to. -/
inductive Entry where
  | file (bytes : ByteArray)
  | directory

/-- A tree of files. Directories above a listed path are there without being listed. -/
abbrev Tree := List (Path × Entry)

/-- What a path leads to, if anything. -/
def entryAt? (tree : Tree) (path : Path) : Option Entry :=
  match tree.lookup path with
  | some entry => some entry
  | none =>
    if path.isEmpty || tree.any fun (p, _) => path.isPrefixOf p then some .directory else none

/-- Whether a path leads to a directory. -/
def isDirectory (tree : Tree) (path : Path) : Bool :=
  match entryAt? tree path with
  | some .directory => true
  | _ => false

/-- The names directly below a directory. -/
def children (tree : Tree) (path : Path) : List String :=
  (tree.filterMap fun (p, _) =>
    if path.isPrefixOf p then (p.drop path.length).head? else none).eraseDups

/-- The text with every kind of line end as a line feed. -/
def unifyLineEnds : List Char → List Char
  | '\r' :: '\n' :: cs => '\n' :: unifyLineEnds cs
  | '\r' :: cs => '\n' :: unifyLineEnds cs
  | c :: cs => c :: unifyLineEnds cs
  | [] => []

/-- The text of a file. -/
def readText (tree : Tree) (path : Path) : Except Failure String :=
  match entryAt? tree path with
  | none => .error .noFile
  | some .directory => .error .directory
  | some (.file bytes) =>
    match String.fromUTF8? bytes with
    | none => .error .notText
    | some text => .ok (String.ofList (unifyLineEnds text.toList))

/-- The form in which messages show a path. -/
def shownPath (path : Path) : String :=
  "/".intercalate ("<root>" :: path)

/-- The document in a file. -/
def loadFile (options : ReadOptions) (tree : Tree) (path : Path) : Except Failure Document := do
  let text ← readText tree path
  match readDocument options text with
  | .ok d => return d
  | .error fault => throw (.unreadableFile (shownPath path) fault)

/-- A set of characters in a pattern. -/
structure CharSet where
  negated : Bool
  ranges : List (Char × Char)

/-- Whether a character belongs to a set. -/
def CharSet.holds (set : CharSet) (c : Char) : Bool :=
  (set.ranges.any fun (a, b) => a ≤ c && c ≤ b) != set.negated

/-- A step of a pattern for one name. -/
inductive Step where
  | char (c : Char)
  | one
  | many
  | set (s : CharSet)

/-- Single characters and ranges. -/
def charRanges : List Char → List (Char × Char)
  | a :: '-' :: b :: rest => (a, b) :: charRanges rest
  | a :: rest => (a, a) :: charRanges rest
  | [] => []

/-- Splits off the body of a set, whose first character never closes it. -/
def splitSet (cs : List Char) : Option (CharSet × List Char) :=
  let negated := cs.head? == some '!'
  let body := if negated then cs.drop 1 else cs
  match body with
  | [] => none
  | first :: more =>
    match more.dropWhile (· != ']') with
    | [] => none
    | _ :: rest => some (⟨negated, charRanges (first :: more.takeWhile (· != ']'))⟩, rest)

/-- The steps of a pattern. The number bounds them; the length of the pattern is enough. -/
def steps : Nat → List Char → List Step
  | 0, _ | _, [] => []
  | bound + 1, c :: cs =>
    if c == '*' then .many :: steps bound cs
    else if c == '?' then .one :: steps bound cs
    else if c == '[' then
      match splitSet cs with
      | some (set, rest) => .set set :: steps bound rest
      | none => .char c :: steps bound cs
    else .char c :: steps bound cs

/-- Whether steps match a whole name. -/
def matchSteps : List Step → List Char → Bool
  | [], cs => cs.isEmpty
  | .many :: rest, [] => matchSteps rest []
  | .many :: rest, c :: cs => matchSteps rest (c :: cs) || matchSteps (.many :: rest) cs
  | .one :: rest, _ :: cs => matchSteps rest cs
  | .char d :: rest, c :: cs => c == d && matchSteps rest cs
  | .set s :: rest, c :: cs => s.holds c && matchSteps rest cs
  | _ :: _, [] => false
termination_by steps cs => (steps.length, cs.length)

/-- A part of a pattern between slashes. -/
inductive PatternPart where
  | anyDepth
  | parent
  | exact (name : String)
  | wild (steps : List Step)

/-- The part that a text stands for. -/
def PatternPart.ofText (text : String) : PatternPart :=
  if text == "**" then .anyDepth
  else if text == ".." then .parent
  else if text.any fun c => c == '*' || c == '?' || c == '[' then
    .wild (steps text.length text.toList)
  else .exact text

/-- The parts of a pattern. -/
def patternParts (pattern : String) : List PatternPart :=
  ((pattern.splitOn "/").filter fun part => part != "" && part != ".").map PatternPart.ofText

/-- The directories at and below a path, to a depth. -/
def directoriesBelow (tree : Tree) : Nat → Path → List Path
  | 0, path => [path]
  | depth + 1, path =>
    path :: (children tree path).flatMap fun name =>
      let below := path ++ [name]
      if isDirectory tree below then directoriesBelow tree depth below else []

/-- The depth of a tree. -/
def depthOf (tree : Tree) : Nat :=
  tree.foldl (fun depth (path, _) => max depth path.length) 0

/-- The paths below a path that match the parts of a pattern. -/
def select (tree : Tree) : List PatternPart → Path → List Path
  | [], path => [path]
  | .anyDepth :: rest, path =>
    (directoriesBelow tree (depthOf tree) path).flatMap (select tree rest)
  | .parent :: rest, path => select tree rest (path ++ [".."])
  | .exact name :: rest, path =>
    let below := path ++ [name]
    let there := if rest.isEmpty then (entryAt? tree below).isSome else isDirectory tree below
    if there then select tree rest below else []
  | .wild pattern :: rest, path =>
    (children tree path).flatMap fun name =>
      let below := path ++ [name]
      if matchSteps pattern name.toList && (rest.isEmpty || isDirectory tree below) then
        select tree rest below
      else []

/-- Whether a path comes before another or is the same. -/
def precedes : Path → Path → Bool
  | [], _ => true
  | _ :: _, [] => false
  | part :: path, other :: others => if part = other then precedes path others else part ≤ other

/-- The paths below a directory that match a pattern, in order. -/
def glob (tree : Tree) (directory : Path) (pattern : String) : List Path :=
  if isDirectory tree directory then
    ((select tree (patternParts pattern) directory).eraseDups).mergeSort precedes
  else []

/-- The documents in the files below a directory that match a pattern. -/
def loadDirectory (options : ReadOptions) (tree : Tree) (directory : Path) (pattern : String) :
    Except Failure (List Document) :=
  (glob tree directory pattern).mapM (loadFile options tree)

end Files

end RecordApi
