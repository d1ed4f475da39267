import RecordApi.Language.Token

/-!
# Reading tokens

A text is cut into tokens from the left. White space, commas, byte order marks and comments are
skipped. When a part of the text is no token, the tokens before it are kept with the fault, since a
reader may find another fault among them first.
-/

namespace RecordApi.Language

/-- A fault inside a lexeme, with the number of characters left where it shows. -/
structure LexFault where
  fault : ReadFault
  left : Nat

/-- What reading a part of a lexeme answers. -/
abbrev Lexed (α : Type) := Except LexFault α

/-- A fault that shows in front of the given characters. -/
def faultBefore {α : Type} (fault : ReadFault) (cs : List Char) : Lexed α :=
  .error ⟨fault, cs.length⟩

/-- The tokens of a text up to its end, or up to a fault. Without a fault the last token marks the
end of the text. -/
structure Scan where
  tokens : List Token
  fault : Option Misreading

/-- The scan with one more token in front. -/
def Scan.cons (token : Token) (scan : Scan) : Scan :=
  { scan with tokens := token :: scan.tokens }

/-- The place after so many characters. A line ends with a line feed, a carriage return, or both in
this order. -/
def Pos.after (pos : Pos) : Nat → List Char → Pos
  | 0, _ => pos
  | _, [] => pos
  | n + 1, '\r' :: '\n' :: cs => Pos.after pos n ('\n' :: cs)
  | n + 1, '\n' :: cs => Pos.after ⟨pos.line + 1, 1⟩ n cs
  | n + 1, '\r' :: cs => Pos.after ⟨pos.line + 1, 1⟩ n cs
  | n + 1, _ :: cs => Pos.after ⟨pos.line, pos.column + 1⟩ n cs

/-- A letter or an underscore. -/
def isNameStart (c : Char) : Bool :=
  ('a' ≤ c && c ≤ 'z') || ('A' ≤ c && c ≤ 'Z') || c == '_'

/-- An ASCII digit. -/
def isDigit (c : Char) : Bool :=
  '0' ≤ c && c ≤ '9'

/-- A character that a name may go on with. -/
def isNameContinue (c : Char) : Bool :=
  isNameStart c || isDigit c

/-- Whether a text is a name. -/
def isName (cs : List Char) : Bool :=
  match cs with
  | [] => false
  | c :: rest => isNameStart c && rest.all isNameContinue

/-- The mark that is written by one character. -/
def markOf? (c : Char) : Option Mark :=
  match c with
  | '!' => some .bang
  | '$' => some .dollar
  | '&' => some .ampersand
  | '(' => some .parenOpen
  | ')' => some .parenClose
  | ':' => some .colon
  | '=' => some .equals
  | '@' => some .atSign
  | '[' => some .bracketOpen
  | ']' => some .bracketClose
  | '\x7b' => some .braceOpen
  | '|' => some .pipe
  | '\x7d' => some .braceClose
  | _ => none

/-- One digit or more. -/
def takeDigits (cs : List Char) : Lexed (List Char × List Char) :=
  match cs.takeWhile isDigit with
  | [] => faultBefore (.digitExpected cs.head?) cs
  | digits => .ok (digits, cs.dropWhile isDigit)

/-- The whole part of a number, which has no zero in front unless it is zero. -/
def takeWhole : List Char → Lexed (List Char × List Char)
  | '0' :: cs =>
    match cs with
    | c :: _ => if isDigit c then faultBefore (.digitAfterZero (some c)) cs else .ok (['0'], cs)
    | [] => .ok (['0'], [])
  | cs => takeDigits cs

/-- The fraction of a number with its point, empty if there is none. -/
def takeFraction : List Char → Lexed (List Char × List Char)
  | '.' :: cs => (takeDigits cs).map fun (digits, rest) => ('.' :: digits, rest)
  | cs => .ok ([], cs)

/-- The exponent of a number with its letter and sign, empty if there is none. -/
def takeExponent : List Char → Lexed (List Char × List Char)
  | letter :: cs =>
    if letter == 'e' || letter == 'E' then
      let sign := cs.takeWhile (fun c => c == '+' || c == '-') |>.take 1
      (takeDigits (cs.drop sign.length)).map fun (digits, rest) =>
        (letter :: (sign ++ digits), rest)
    else
      .ok ([], letter :: cs)
  | [] => .ok ([], [])

/-- A number. Neither a point nor a name may follow it directly. -/
def takeNumber (cs : List Char) : Lexed (Lexeme × List Char) := do
  let sign := if cs.head? == some '-' then ['-'] else []
  let (whole, rest) ← takeWhole (cs.drop sign.length)
  let (fraction, rest) ← takeFraction rest
  let (exponent, rest) ← takeExponent rest
  match rest with
  | c :: _ => if c == '.' || isNameStart c then faultBefore (.digitExpected (some c)) rest
  | [] => pure ()
  let text := String.ofList (sign ++ whole ++ fraction ++ exponent)
  return (if fraction.isEmpty && exponent.isEmpty then .int text else .float text, rest)

/-- The value of a hexadecimal digit. -/
def hexValue? (c : Char) : Option Nat :=
  if isDigit c then some (c.toNat - 48)
  else if 'a' ≤ c && c ≤ 'f' then some (c.toNat - 87)
  else if 'A' ≤ c && c ≤ 'F' then some (c.toNat - 55)
  else none

/-- The code written by exactly four hexadecimal digits. -/
def hexCode? (cs : List Char) : Option Nat :=
  if cs.length < 4 then none
  else (cs.take 4).foldl (fun code c => do return 16 * (← code) + (← hexValue? c)) (some 0)

/-- Whether a code is that of a character, and not of half a surrogate pair. -/
def isScalar (code : Nat) : Bool :=
  code ≤ 0xD7FF || (0xE000 ≤ code && code ≤ 0x10FFFF)

/-- Reads the digits of a braced code up to the closing brace. The count is of all characters of
the escape so far; at most twelve are allowed. -/
def bracedCode : List Char → Nat → Nat → Option Nat × Nat
  | [], size, _ => (none, size)
  | c :: cs, size, code =>
    if 12 ≤ size then (none, size)
    else if c == '\x7d' then
      (if size + 1 < 5 || !isScalar code then none else some code, size + 1)
    else
      match hexValue? c with
      | some v => bracedCode cs (size + 1) (16 * code + v)
      | none => (none, size + 1)

/-- The character of an escape that starts with a backslash and the letter u, given with all the
text from the backslash on, and the length of the escape. -/
def unicodeEscape (cs : List Char) : Lexed (Char × Nat) :=
  let fail := fun size => faultBefore (.unicodeEscape (String.ofList (cs.take size))) cs
  match cs.drop 2 with
  | '\x7b' :: rest =>
    match bracedCode rest 3 0 with
    | (some code, size) => .ok (Char.ofNat code, size)
    | (none, size) => fail size
  | rest =>
    match hexCode? rest with
    | none => fail 6
    | some code =>
      if isScalar code then .ok (Char.ofNat code, 6)
      else
        match hexCode? (cs.drop 8) with
        | some low =>
          if code ≤ 0xDBFF && (cs.drop 6).take 2 == ['\\', 'u'] && 0xDC00 ≤ low && low ≤ 0xDFFF then
            .ok (Char.ofNat (0x10000 + (code - 0xD800) * 0x400 + (low - 0xDC00)), 12)
          else fail 6
        | none => fail 6

/-- The character written by a backslash and one letter. -/
def letterEscape? (c : Char) : Option Char :=
  match c with
  | '"' => some '"'
  | '/' => some '/'
  | '\\' => some '\\'
  | 'b' => some '\x08'
  | 'f' => some '\x0c'
  | 'n' => some '\n'
  | 'r' => some '\r'
  | 't' => some '\t'
  | _ => none

/-- The character of an escape and its length. -/
def takeEscape (cs : List Char) : Lexed (Char × Nat) :=
  match cs.drop 1 with
  | 'u' :: _ => unicodeEscape cs
  | c :: _ =>
    match letterEscape? c with
    | some value => .ok (value, 2)
    | none => faultBefore (.escape (String.ofList (cs.take 2))) cs
  | [] => faultBefore (.escape (String.ofList (cs.take 2))) cs

/-- Reads a string from behind its opening quote. The number bounds the steps; the length of the
text is enough. -/
def takeString : Nat → List Char → Lexed (List Char × List Char)
  | 0, cs => faultBefore .unterminatedString cs
  | _, [] => faultBefore .unterminatedString []
  | steps + 1, c :: cs =>
    if c == '"' then .ok ([], cs)
    else if c == '\n' || c == '\r' then faultBefore .unterminatedString (c :: cs)
    else if c == '\\' then do
      let (value, size) ← takeEscape (c :: cs)
      let (more, rest) ← takeString steps ((c :: cs).drop size)
      return (value :: more, rest)
    else do
      let (more, rest) ← takeString steps cs
      return (c :: more, rest)

/-- The first line with a character in front. -/
def consFirst (c : Char) : List (List Char) → List (List Char)
  | [] => [[c]]
  | line :: lines => (c :: line) :: lines

/-- Reads the lines of a block string from behind its opening quotes. -/
def takeBlockLines : Nat → List Char → Lexed (List (List Char) × List Char)
  | 0, cs => faultBefore .unterminatedString cs
  | steps + 1, cs =>
    match cs with
    | [] => faultBefore .unterminatedString []
    | '"' :: '"' :: '"' :: rest => .ok ([[]], rest)
    | '\\' :: '"' :: '"' :: '"' :: rest =>
      (takeBlockLines steps rest).map fun (lines, rest) =>
        (consFirst '"' (consFirst '"' (consFirst '"' lines)), rest)
    | '\r' :: '\n' :: rest =>
      (takeBlockLines steps rest).map fun (lines, rest) => ([] :: lines, rest)
    | '\r' :: rest => (takeBlockLines steps rest).map fun (lines, rest) => ([] :: lines, rest)
    | '\n' :: rest => (takeBlockLines steps rest).map fun (lines, rest) => ([] :: lines, rest)
    | c :: rest => (takeBlockLines steps rest).map fun (lines, rest) => (consFirst c lines, rest)

/-- White space inside a line. -/
def isBlank (c : Char) : Bool :=
  c == ' ' || c == '\t'

/-- How many blanks a line starts with. -/
def indentOf (line : List Char) : Nat :=
  (line.takeWhile isBlank).length

/-- The least indent of the lines that hold more than blanks. -/
def commonIndent (lines : List (List Char)) : Option Nat :=
  ((lines.filter fun line => !line.all isBlank).map indentOf).min?

/-- The value of a block string: the common indent of all lines but the first is taken off, and
blank lines at both ends are dropped. -/
def blockValue (lines : List (List Char)) : List (List Char) :=
  let indent := (commonIndent (lines.drop 1)).getD 0
  let dedented := lines.take 1 ++ (lines.drop 1).map (·.drop indent)
  let blankLine := fun line : List Char => line.all isBlank
  ((dedented.dropWhile blankLine).reverse.dropWhile blankLine).reverse

/-- Lines joined by line feeds. -/
def joinLines (lines : List (List Char)) : String :=
  String.ofList (['\n'].intercalate lines)

/-- The lexeme at the head of a text that does not start with skipped characters. -/
def takeLexeme (cs : List Char) : Lexed (Lexeme × List Char) :=
  match cs with
  | [] => .ok (.endOfText, [])
  | '"' :: '"' :: '"' :: rest => do
    let (lines, rest) ← takeBlockLines cs.length rest
    return (.blockString (joinLines (blockValue lines)), rest)
  | '"' :: rest => do
    let (value, rest) ← takeString cs.length rest
    return (.string (String.ofList value), rest)
  | '.' :: '.' :: '.' :: rest => .ok (.mark .spread, rest)
  | c :: rest =>
    match markOf? c with
    | some m => .ok (.mark m, rest)
    | none =>
      if isDigit c || c == '-' then takeNumber cs
      else if isNameStart c then
        .ok (.name (String.ofList (cs.takeWhile isNameContinue)), cs.dropWhile isNameContinue)
      else if c == '\'' then faultBefore .singleQuote cs
      else faultBefore (.strayChar c) cs

/-- A character that stands between tokens without meaning. -/
def isSkipped (c : Char) : Bool :=
  c == ' ' || c == '\t' || c == ',' || c == '\n' || c == '\r' || c.toNat == 0xFEFF

/-- A character that ends a comment. -/
def isLineEnd (c : Char) : Bool :=
  c == '\n' || c == '\r'

/-- Cuts a text into tokens. The number bounds the steps; the length of the text and one more is
enough. -/
def scanFrom : Nat → Pos → List Char → Scan
  | 0, pos, _ => ⟨[], some ⟨.unterminatedString, pos⟩⟩
  | steps + 1, pos, cs =>
    match cs with
    | '#' :: rest =>
      let comment := rest.takeWhile fun c => !isLineEnd c
      scanFrom steps (pos.after (comment.length + 1) cs) (rest.dropWhile fun c => !isLineEnd c)
    | [] => ⟨[⟨.endOfText, pos⟩], none⟩
    | c :: rest =>
      if isSkipped c then
        scanFrom steps (pos.after 1 cs) rest
      else
        match takeLexeme cs with
        | .error lexFault =>
          ⟨[], some ⟨lexFault.fault, pos.after (cs.length - lexFault.left) cs⟩⟩
        | .ok (lexeme, rest) =>
          Scan.cons ⟨lexeme, pos⟩ (scanFrom steps (pos.after (cs.length - rest.length) cs) rest)

/-- The tokens of a text. -/
def scan (text : String) : Scan :=
  let cs := text.toList
  scanFrom (2 * cs.length + 1) ⟨1, 1⟩ cs

end RecordApi.Language
