import RecordApi.Text.Quoted

/-!
# Tokens

The lexical units of type definitions and queries, the forms in which messages name them, and the
ways in which a text can fail to be read.
-/

namespace RecordApi.Language

/-- A line and a column, both counted from one. -/
structure Pos where
  line : Nat
  column : Nat
deriving DecidableEq, Repr, Inhabited

/-- The place given to everything that is read without keeping places. -/
def Pos.nowhere : Pos :=
  ⟨0, 0⟩

/-- The marks that are tokens by themselves. -/
inductive Mark where
  | bang | dollar | ampersand | parenOpen | parenClose | spread | colon | equals | atSign
  | bracketOpen | bracketClose | braceOpen | pipe | braceClose
deriving DecidableEq, Repr

/-- The written form of a mark. -/
def Mark.text : Mark → String
  | bang => "!"
  | dollar => "$"
  | ampersand => "&"
  | parenOpen => "("
  | parenClose => ")"
  | spread => "..."
  | colon => ":"
  | equals => "="
  | atSign => "@"
  | bracketOpen => "["
  | bracketClose => "]"
  | braceOpen => "\x7b"
  | pipe => "|"
  | braceClose => "\x7d"

/-- What a token is, without its place. -/
inductive Lexeme where
  | mark (m : Mark)
  | name (text : String)
  | int (text : String)
  | float (text : String)
  | string (text : String)
  | blockString (text : String)
  | endOfText
deriving DecidableEq, Repr, Inhabited

/-- The form in which messages name a lexeme. -/
def Lexeme.shown : Lexeme → String
  | mark m => "'" ++ m.text ++ "'"
  | name text => "Name '" ++ text ++ "'"
  | int text => "Int '" ++ text ++ "'"
  | float text => "Float '" ++ text ++ "'"
  | string text => "String '" ++ text ++ "'"
  | blockString text => "BlockString '" ++ text ++ "'"
  | endOfText => "<EOF>"

/-- A lexeme with the place where it starts. -/
structure Token where
  lexeme : Lexeme
  pos : Pos
deriving DecidableEq, Repr, Inhabited

/-- A character, or the end of the text, as messages show it. -/
def shownChar : Option Char → String
  | none => "<EOF>"
  | some c =>
    if c = '"' then "'\"'"
    else if ' ' ≤ c && c ≤ '~' then "'" ++ String.ofList [c] ++ "'"
    else "U+" ++ String.ofList ((Text.hexDigits 4 c.toNat).map Char.toUpper)

/-- Why a text cannot be read. -/
inductive ReadFault where
  | expected (what : String) (found : Lexeme)
  | unexpected (found : Lexeme)
  | unterminatedString
  | digitExpected (found : Option Char)
  | digitAfterZero (found : Option Char)
  | unicodeEscape (text : String)
  | escape (text : String)
  | singleQuote
  | strayChar (c : Char)
  | descriptionOnOther
  | variableInConstant (name : Option String)
  | reservedEnumValue (name : String)
  | tooManyTokens (most : Int)
deriving DecidableEq, Repr, Inhabited

/-- The message for a text that cannot be read. -/
def ReadFault.message (fault : ReadFault) : String :=
  "Syntax Error: " ++ match fault with
  | expected what found => "Expected " ++ what ++ ", found " ++ found.shown ++ "."
  | unexpected found => "Unexpected " ++ found.shown ++ "."
  | unterminatedString => "Unterminated string."
  | digitExpected found => "Invalid number, expected digit but got: " ++ shownChar found ++ "."
  | digitAfterZero found => "Invalid number, unexpected digit after 0: " ++ shownChar found ++ "."
  | unicodeEscape text => "Invalid Unicode escape sequence: '" ++ text ++ "'."
  | escape text => "Invalid character escape sequence: '" ++ text ++ "'."
  | singleQuote =>
    "Unexpected single quote character ('), did you mean to use a double quote (\")?"
  | strayChar c => "Unexpected character: " ++ shownChar (some c) ++ "."
  | descriptionOnOther =>
    "Unexpected description, descriptions are supported only on type definitions."
  | variableInConstant (some name) => "Unexpected variable '$" ++ name ++ "' in constant value."
  | variableInConstant none => "Unexpected '$'."
  | reservedEnumValue name =>
    "Name '" ++ name ++ "' is reserved and cannot be used for an enum value."
  | tooManyTokens most =>
    "Document contains more than " ++ toString most ++ " tokens. Parsing aborted."

/-- A fault with the place where it shows. -/
structure Misreading where
  fault : ReadFault
  pos : Pos
deriving DecidableEq, Repr, Inhabited

end RecordApi.Language
