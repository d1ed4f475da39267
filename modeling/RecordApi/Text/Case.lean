import RecordApi.Text.CaseTable
import RecordApi.Text.CharClass

/-!
# Upper, lower and title case

The three case forms of a text, by the full mappings of Unicode. One character may become several,
and a capital sigma becomes a final sigma at the end of a word.
-/

namespace RecordApi.Text

/-- The form of a character in a table: the listed characters, else the moved one, else itself. -/
def caseForm (specials : List (Nat × List Nat)) (runs : List CaseRun) (c : Char) : List Char :=
  match specials.find? (·.1 == c.toNat) with
  | some (_, codes) => codes.map Char.ofNat
  | none =>
    match runs.findSome? (·.image? c.toNat) with
    | some code => [Char.ofNat code]
    | none => [c]

/-- The upper case form of a character. -/
def upperForm (c : Char) : List Char :=
  caseForm upperSpecials upperRuns c

/-- The lower case form of a character that stands alone. -/
def lowerForm (c : Char) : List Char :=
  caseForm lowerSpecials lowerRuns c

/-- The title case form of a character. -/
def titleForm (c : Char) : List Char :=
  if titleSpecials.any (·.1 == c.toNat) || titleRuns.any fun run => (run.image? c.toNat).isSome then
    caseForm titleSpecials titleRuns c
  else
    upperForm c

/-- Whether the first character that counts for a word end is a cased one. -/
def meetsCased (cs : List Char) : Bool :=
  match cs.dropWhile fun c => inRanges caseIgnorableRanges c.toNat with
  | [] => false
  | c :: _ => inRanges casedRanges c.toNat

/-- The lower case form of a text that follows `before`, which is given last character first. -/
def lowerAfter (before : List Char) : List Char → List Char
  | [] => []
  | c :: cs =>
    let form :=
      if c = 'Σ' then
        if meetsCased before && !meetsCased cs then ['ς'] else ['σ']
      else
        lowerForm c
    form ++ lowerAfter (c :: before) cs

/-- The lower case form of a text. -/
def lower (cs : List Char) : List Char :=
  lowerAfter [] cs

/-- The upper case form of a text. -/
def upper (cs : List Char) : List Char :=
  cs.flatMap upperForm

/-- The text with its first character in title case and the others in lower case. -/
def capitalize : List Char → List Char
  | [] => []
  | c :: cs => titleForm c ++ lowerAfter [c] cs

/-- The text with its first character in upper case and the others unchanged. -/
def upperFirst : List Char → List Char
  | [] => []
  | c :: cs => upperForm c ++ cs

end RecordApi.Text
