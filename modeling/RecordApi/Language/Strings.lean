import RecordApi.Language.Lexer

/-!
# Writing strings

A string is written on one line with escapes, or as a block between triple quotes. A block is spread
over several lines when its text has several, is long, or ends in a way that would run into the
closing quotes.
-/

namespace RecordApi.Language

/-- A character inside a string on one line. -/
def escapedChar (c : Char) : List Char :=
  if c = '"' then ['\\', '"']
  else if c = '\\' then ['\\', '\\']
  else if c = '\x08' then ['\\', 'b']
  else if c = '\x0c' then ['\\', 'f']
  else if c = '\n' then ['\\', 'n']
  else if c = '\r' then ['\\', 'r']
  else if c = '\t' then ['\\', 't']
  else if c.toNat < 0x20 || (0x7F ≤ c.toNat && c.toNat ≤ 0x9F) then
    '\\' :: 'u' :: (Text.hexDigits 4 c.toNat).map Char.toUpper
  else [c]

/-- A string on one line. -/
def lineString (text : String) : String :=
  "\"" ++ String.ofList (text.toList.flatMap escapedChar) ++ "\""

/-- Sets a backslash before triple quotes. -/
def escapeTripleQuotes : List Char → List Char
  | '"' :: '"' :: '"' :: cs => '\\' :: '"' :: '"' :: '"' :: escapeTripleQuotes cs
  | c :: cs => c :: escapeTripleQuotes cs
  | [] => []

/-- The characters that end a line of running text. -/
def isLineBreak (c : Char) : Bool :=
  [0x0A, 0x0B, 0x0C, 0x0D, 0x1C, 0x1D, 0x1E, 0x85, 0x2028, 0x2029].contains c.toNat

/-- The lines of running text. A break at the very end begins no further line. -/
def textLines : List Char → List (List Char)
  | [] => []
  | '\r' :: '\n' :: cs => [] :: textLines cs
  | c :: cs => if isLineBreak c then [] :: textLines cs else consFirst c (textLines cs)

/-- The most characters of a block on one line. -/
def mostBlockLine : Nat :=
  70

/-- A string as a block. -/
def blockString (text : String) : String :=
  let cs := text.toList
  let escaped := escapeTripleQuotes cs
  let lines := match textLines escaped with
    | [] => [[]]
    | lines => lines
  let single := lines.length == 1
  let leadingBlank := fun line : List Char => line.head?.all isBlank
  let forceLeading := 1 < lines.length && (lines.drop 1).all leadingBlank
  let endsTriple := ['\\', '"', '"', '"'].isSuffixOf escaped
  let endsQuote := cs.getLast? == some '"' && !endsTriple
  let forceTrailing := endsQuote || cs.getLast? == some '\\'
  let spread := !single || mostBlockLine < cs.length || forceTrailing || forceLeading || endsTriple
  let skipLeading := single && (cs.head?.map isBlank).getD false
  let before := if (spread && !skipLeading) || forceLeading then "\n" else ""
  let after := if spread || forceTrailing then "\n" else ""
  "\"\"\"" ++ before ++ String.ofList escaped ++ after ++ "\"\"\""

end RecordApi.Language
