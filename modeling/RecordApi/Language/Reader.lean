import RecordApi.Language.Document
import RecordApi.Language.Lexer

/-!
# Reading documents

A document is read from its tokens by recursive descent with one token of foresight. Every rule of
the grammar is a function on the remaining tokens; the number that recursive rules carry bounds
their depth, and the number of tokens is enough.
-/

namespace RecordApi.Language

/-- What a reading is asked to do beside the grammar: whether places are left out, how many tokens
there may be at most, and whether fragments may have variables. -/
structure ReadOptions where
  withoutPlaces : Option Bool := none
  mostTokens : Option Int := none
  fragmentVariables : Option Bool := none
deriving DecidableEq, Repr, Inhabited

/-- The tokens that remain, the fault behind them, how many more tokens may be reached, and where
definitions of the schema have named types so far, the last first. -/
structure Feed where
  tokens : List Token
  fault : Option Misreading
  allowance : Option Nat
  options : ReadOptions
  mentions : List Pos

/-- A rule of the grammar. -/
abbrev Reader := StateT Feed (Except Misreading)

namespace Reader

/-- The token at hand. -/
def current : Reader Token := do
  return (← get).tokens.headD ⟨.endOfText, Pos.nowhere⟩

/-- The place of the token at hand. -/
def here : Reader Pos := do
  return (← current).pos

/-- Stops the reading at a place. -/
def failAt {α : Type} (pos : Pos) (fault : ReadFault) : Reader α :=
  throw ⟨fault, pos⟩

/-- Stops the reading at the token at hand. -/
def fail {α : Type} (fault : ReadFault) : Reader α := do
  failAt (← here) fault

/-- Checks that one more token may be reached and counts it. -/
def reach (token : Token) : Reader Unit := do
  let feed ← get
  match feed.allowance, token.lexeme with
  | none, _ | _, .endOfText => pure ()
  | some 0, _ => failAt token.pos (.tooManyTokens (feed.options.mostTokens.getD 0))
  | some (n + 1), _ => set { feed with allowance := some n }

/-- Goes on to the next token. -/
def advance : Reader Unit := do
  match (← get).tokens with
  | _ :: next :: more =>
    reach next
    modify fun feed => { feed with tokens := next :: more }
  | _ =>
    match (← get).fault with
    | some misreading => throw misreading
    | none => pure ()

/-- The token after the one at hand. -/
def lookahead : Reader Token := do
  let feed ← get
  match feed.tokens with
  | _ :: next :: _ => return next
  | [token] =>
    match feed.fault with
    | some misreading => throw misreading
    | none => return token
  | [] => return ⟨.endOfText, Pos.nowhere⟩

/-- Whether the token at hand is the mark. -/
def peek (m : Mark) : Reader Bool := do
  return (← current).lexeme == .mark m

/-- Whether the token at hand is a name. -/
def peekName : Reader Bool := do
  match (← current).lexeme with
  | .name _ => return true
  | _ => return false

/-- Goes past the mark, which must be at hand. -/
def expect (m : Mark) : Reader Unit := do
  let token ← current
  if token.lexeme == .mark m then advance
  else fail (.expected ("'" ++ m.text ++ "'") token.lexeme)

/-- Goes past the mark if it is at hand. -/
def accept (m : Mark) : Reader Bool := do
  if ← peek m then
    advance
    return true
  else
    return false

/-- Goes past the word, which must be at hand. -/
def expectWord (word : String) : Reader Unit := do
  let token ← current
  if token.lexeme == .name word then advance
  else fail (.expected ("'" ++ word ++ "'") token.lexeme)

/-- Goes past the word if it is at hand. -/
def acceptWord (word : String) : Reader Bool := do
  if (← current).lexeme == .name word then
    advance
    return true
  else
    return false

/-- The text must end here. -/
def expectEnd : Reader Unit := do
  let token ← current
  if token.lexeme == .endOfText then return ()
  else fail (.expected "<EOF>" token.lexeme)

/-- Refuses the token at hand. -/
def refuse {α : Type} : Reader α := do
  fail (.unexpected (← current).lexeme)

/-- A name. -/
def name : Reader Name := do
  let token ← current
  match token.lexeme with
  | .name text =>
    advance
    return ⟨text, token.pos⟩
  | lexeme => fail (.expected "Name" lexeme)

/-- The text of a name. -/
def nameText : Reader String := do
  return (← name).text

/-- Items up to the closing mark, which is passed. -/
def itemsUntil {α : Type} (close : Mark) (item : Reader α) : Nat → Reader (List α)
  | 0 => refuse
  | bound + 1 => do
    if ← accept close then
      return []
    else
      let first ← item
      return first :: (← itemsUntil close item bound)

/-- One item or more between marks. -/
def many {α : Type} (bound : Nat) (opening close : Mark) (item : Reader α) : Reader (List α) := do
  expect opening
  let first ← item
  return first :: (← itemsUntil close item bound)

/-- One item or more between marks, or nothing at all. -/
def optionalMany {α : Type} (bound : Nat) (opening close : Mark) (item : Reader α) :
    Reader (List α) := do
  if ← peek opening then many bound opening close item else return []

/-- Any number of items between marks. -/
def any {α : Type} (bound : Nat) (opening close : Mark) (item : Reader α) : Reader (List α) := do
  expect opening
  itemsUntil close item bound

/-- The further items of a list separated by marks. -/
def moreSeparated {α : Type} (separator : Mark) (item : Reader α) : Nat → Reader (List α)
  | 0 => refuse
  | bound + 1 => do
    if ← accept separator then
      let next ← item
      return next :: (← moreSeparated separator item bound)
    else
      return []

/-- One item or more separated by marks; a mark may also stand in front of the first. -/
def separated {α : Type} (bound : Nat) (separator : Mark) (item : Reader α) :
    Reader (List α) := do
  let _ ← accept separator
  let first ← item
  return first :: (← moreSeparated separator item bound)

/-- A type. Answers the type, and the place of its innermost name. -/
def placedType : Nat → Reader (TypeExpr × Pos)
  | 0 => refuse
  | bound + 1 => do
    let (type, pos) ← if ← accept .bracketOpen then do
        let (item, pos) ← placedType bound
        expect .bracketClose
        pure (TypeExpr.list item, pos)
      else do
        let base ← name
        pure (TypeExpr.named base.text, base.pos)
    if ← accept .bang then
      return (.nonNull type, pos)
    else
      return (type, pos)

/-- Notes that a definition of the schema names a type at a place. -/
def note (pos : Pos) : Reader Unit :=
  modify fun feed => { feed with mentions := pos :: feed.mentions }

/-- A type in a definition of the schema. -/
def type (bound : Nat) : Reader TypeExpr := do
  let (type, pos) ← placedType bound
  note pos
  return type

/-- The name of a type in a definition of the schema. -/
def mention : Reader String := do
  let name ← name
  note name.pos
  return name.text

/-- A named value, read by a rule for values. -/
def fieldOf (value : Reader Value) : Reader (Name × Value) := do
  let name ← name
  expect .colon
  return (name, ← value)

/-- The value that a name stands for. -/
def namedValue (pos : Pos) (text : String) : Value :=
  if text == "true" then .boolean pos true
  else if text == "false" then .boolean pos false
  else if text == "null" then .null pos
  else .enum pos text

/-- A value, which may hold variables unless it is constant. -/
def value (constant : Bool) : Nat → Reader Value
  | 0 => refuse
  | bound + 1 => do
    let token ← current
    let pos := token.pos
    match token.lexeme with
    | .mark .bracketOpen =>
      return .list pos (← any bound .bracketOpen .bracketClose (value constant bound))
    | .mark .braceOpen =>
      return .object pos (← any bound .braceOpen .braceClose (fieldOf (value constant bound)))
    | .int text =>
      advance
      return .int pos text
    | .float text =>
      advance
      return .float pos text
    | .string text =>
      advance
      return .string pos text false
    | .blockString text =>
      advance
      return .string pos text true
    | .name text =>
      advance
      return namedValue pos text
    | .mark .dollar =>
      advance
      if constant then
        match (← current).lexeme with
        | .name text => failAt pos (.variableInConstant (some text))
        | _ => failAt pos (.variableInConstant none)
      else
        return .variable pos (← nameText)
    | lexeme => fail (.unexpected lexeme)

/-- A named argument. -/
def argument (constant : Bool) (bound : Nat) : Reader Argument := do
  let (name, value) ← fieldOf (value constant bound)
  return ⟨name, value⟩

/-- Arguments in parentheses, if there are any. -/
def arguments (constant : Bool) (bound : Nat) : Reader (List Argument) :=
  optionalMany bound .parenOpen .parenClose (argument constant bound)

/-- The directives that are applied at a place. -/
def directives (constant : Bool) : Nat → Reader (List Directive)
  | 0 => refuse
  | bound + 1 => do
    if ← peek .atSign then
      let pos ← here
      expect .atSign
      let name ← nameText
      let arguments ← arguments constant bound
      return ⟨pos, name, arguments⟩ :: (← directives constant bound)
    else
      return []

/-- The kind of an operation. -/
def operationKind : Reader OperationKind := do
  let ⟨word, pos⟩ ← name
  if word == "query" then return .query
  else if word == "mutation" then return .mutation
  else if word == "subscription" then return .subscription
  else failAt pos (.unexpected (.name word))

/-- A variable of an operation. -/
def variableDef (bound : Nat) : Reader VariableDef := do
  let pos ← here
  expect .dollar
  let name ← name
  expect .colon
  let typePos ← here
  let (type, basePos) ← placedType bound
  let default ← if ← accept .equals then some <$> value true bound else pure none
  let directives ← directives true bound
  return ⟨pos, name, type, typePos, basePos, default, directives⟩

/-- The variables of an operation, if there are any. -/
def variableDefs (bound : Nat) : Reader (List VariableDef) :=
  optionalMany bound .parenOpen .parenClose (variableDef bound)

/-- The name of a fragment, which is not the word `on`. -/
def fragmentName : Reader Name := do
  match (← current).lexeme with
  | .name "on" | .string "on" | .blockString "on" => refuse
  | _ => name

/-- One item of a selection. -/
def selection : Nat → Reader Selection
  | 0 => refuse
  | bound + 1 => do
    let pos ← here
    if ← peek .spread then
      expect .spread
      let conditional ← acceptWord "on"
      if !conditional && (← peekName) then
        let name ← fragmentName
        return .spread pos name (← directives false bound)
      else
        let condition ← if conditional then some <$> name else pure none
        let directives ← directives false bound
        return .inline pos condition directives
          (← many bound .braceOpen .braceClose (selection bound))
    else
      let first ← nameText
      let (label, name) ← if ← accept .colon then do pure (some first, ← nameText)
        else pure (none, first)
      let arguments ← arguments false bound
      let directives ← directives false bound
      let setPos ← here
      let selections ← optionalMany bound .braceOpen .braceClose (selection bound)
      return .field ⟨pos, label, name, arguments, directives, setPos⟩ selections

/-- A selection in braces. -/
def selectionSet (bound : Nat) : Reader (List Selection) :=
  many bound .braceOpen .braceClose (selection bound)

/-- An operation. A selection alone is a query. -/
def operationDef (bound : Nat) : Reader Definition := do
  let pos ← here
  if ← peek .braceOpen then
    return .operation ⟨pos, .query, none, [], [], ← selectionSet bound⟩
  else
    let kind ← operationKind
    let name ← if ← peekName then some <$> name else pure none
    let parameters ← variableDefs bound
    let directives ← directives false bound
    return .operation ⟨pos, kind, name, parameters, directives, ← selectionSet bound⟩

/-- A fragment. -/
def fragmentDef (bound : Nat) : Reader Definition := do
  let pos ← here
  expectWord "fragment"
  let fragment ← fragmentName
  let parameters ←
    if (← get).options.fragmentVariables.getD false then variableDefs bound else pure []
  expectWord "on"
  let condition ← name
  let directives ← directives false bound
  return .fragment ⟨pos, fragment, parameters, condition, directives, ← selectionSet bound⟩

/-- Whether a description is at hand. -/
def peekDescription : Reader Bool := do
  match (← current).lexeme with
  | .string _ | .blockString _ => return true
  | _ => return false

/-- A description, if there is one. -/
def description : Reader (Option Description) := do
  match (← current).lexeme with
  | .string text =>
    advance
    return some ⟨text, false⟩
  | .blockString text =>
    advance
    return some ⟨text, true⟩
  | _ => return none

/-- An argument or a field of an input type. -/
def inputDef (bound : Nat) : Reader InputDef := do
  let description ← description
  let name ← nameText
  expect .colon
  let type ← type bound
  let default ← if ← accept .equals then some <$> value true bound else pure none
  return ⟨description, name, type, default, ← directives true bound⟩

/-- A field. -/
def fieldDef (bound : Nat) : Reader FieldDef := do
  let description ← description
  let name ← nameText
  let arguments ← optionalMany bound .parenOpen .parenClose (inputDef bound)
  expect .colon
  let type ← type bound
  return ⟨description, name, arguments, type, none, ← directives true bound, false⟩

/-- A value of an enumeration. -/
def enumValueDef (bound : Nat) : Reader EnumValueDef := do
  let description ← description
  match (← current).lexeme with
  | .name "true" => fail (.reservedEnumValue "true")
  | .name "false" => fail (.reservedEnumValue "false")
  | .name "null" => fail (.reservedEnumValue "null")
  | _ => pure ()
  let name ← nameText
  return ⟨description, name, ← directives true bound⟩

/-- The type that serves a kind of operation. -/
def rootDef : Reader RootDef := do
  let operation ← operationKind
  expect .colon
  return ⟨operation, ← mention⟩

/-- The interfaces of a type. -/
def interfaces (bound : Nat) : Reader (List String) := do
  if ← acceptWord "implements" then separated bound .ampersand mention else return []

/-- The members of a union. -/
def members (bound : Nat) : Reader (List String) := do
  if ← accept .equals then separated bound .pipe mention else return []

/-- What follows the word for a kind of type. Extensions must say something. -/
def typeDef (bound : Nat) (word : String) (description : Option Description) :
    Reader TypeDef := do
  expectWord word
  let name ← nameText
  let interfaces ← if word == "type" || word == "interface" then interfaces bound else pure []
  let directives ← directives true bound
  let make := fun body => pure (⟨description, name, directives, body⟩ : TypeDef)
  let fields := optionalMany bound .braceOpen .braceClose (fieldDef bound)
  if word == "type" then make (.object interfaces (← fields))
  else if word == "interface" then make (.interface interfaces (← fields))
  else if word == "union" then make (.union (← members bound))
  else if word == "enum" then
    make (.enum (← optionalMany bound .braceOpen .braceClose (enumValueDef bound)))
  else if word == "input" then
    make (.input (← optionalMany bound .braceOpen .braceClose (inputDef bound)))
  else make .scalar

/-- A place where a directive may be applied. -/
def directiveLocation : Reader String := do
  let location ← name
  if directiveLocations.contains location.text then return location.text
  else failAt location.pos (.unexpected (.name location.text))

/-- A directive definition. -/
def directiveDef (bound : Nat) (description : Option Description) : Reader Definition := do
  expectWord "directive"
  expect .atSign
  let name ← nameText
  let arguments ← optionalMany bound .parenOpen .parenClose (inputDef bound)
  let repeatable ← acceptWord "repeatable"
  expectWord "on"
  return .directive
    ⟨description, name, arguments, repeatable, ← separated bound .pipe directiveLocation⟩

/-- A schema definition. -/
def schemaDef (bound : Nat) (description : Option Description) : Reader Definition := do
  expectWord "schema"
  let directives ← directives true bound
  return .schema ⟨description, directives, ← many bound .braceOpen .braceClose rootDef⟩

/-- The words for kinds of types. -/
def typeWords : List String :=
  ["scalar", "type", "interface", "union", "enum", "input"]

/-- The extension of a schema, which must say something. -/
def schemaExtension (bound : Nat) : Reader Definition := do
  expectWord "extend"
  expectWord "schema"
  let directives ← directives true bound
  let roots ← optionalMany bound .braceOpen .braceClose rootDef
  if directives.isEmpty && roots.isEmpty then refuse
  else return .schemaExtension ⟨none, directives, roots⟩

/-- Whether the extension of a type says something. -/
def saysSomething (d : TypeDef) : Bool :=
  !d.directives.isEmpty || match d.body with
  | .scalar => false
  | .object interfaces fields | .interface interfaces fields =>
    !interfaces.isEmpty || !fields.isEmpty
  | .union members => !members.isEmpty
  | .enum values => !values.isEmpty
  | .input fields => !fields.isEmpty

/-- The extension of a schema or a type. -/
def extensionDef (bound : Nat) : Reader Definition := do
  let token ← lookahead
  match token.lexeme with
  | .name word =>
    if word == "schema" then schemaExtension bound
    else if typeWords.contains word then
      expectWord "extend"
      let d ← typeDef bound word none
      if saysSomething d then return .typeExtension d else refuse
    else failAt token.pos (.unexpected token.lexeme)
  | lexeme => failAt token.pos (.unexpected lexeme)

/-- A definition. What it is shows at its first word, behind a description if there is one. -/
def definition (bound : Nat) : Reader Definition := do
  if ← peek .braceOpen then operationDef bound
  else
    let described ← peekDescription
    let token ← if described then lookahead else current
    match token.lexeme with
    | .name word =>
      if word == "schema" then schemaDef bound (← description)
      else if word == "directive" then directiveDef bound (← description)
      else if typeWords.contains word then
        let description ← description
        return .type (← typeDef bound word description)
      else if described then fail .descriptionOnOther
      else if word == "query" || word == "mutation" || word == "subscription" then
        operationDef bound
      else if word == "fragment" then fragmentDef bound
      else if word == "extend" then extensionDef bound
      else failAt token.pos (.unexpected token.lexeme)
    | lexeme => failAt token.pos (.unexpected lexeme)

/-- The definitions up to the end of the text. -/
def definitionsUntilEnd (bound : Nat) : Nat → Reader (List Definition)
  | 0 => refuse
  | steps + 1 => do
    if (← current).lexeme == .endOfText then
      return []
    else
      let first ← definition bound
      return first :: (← definitionsUntilEnd bound steps)

/-- One definition or more up to the end of the text. -/
def definitions (bound : Nat) : Reader (List Definition) := do
  let first ← definition bound
  return first :: (← definitionsUntilEnd bound bound)

/-- Reaches the first token and applies a rule. -/
def run {α : Type} (options : ReadOptions) (scan : Scan) (rule : Nat → Reader α) :
    Except Misreading α := do
  let feed : Feed :=
    ⟨scan.tokens, scan.fault, options.mostTokens.map Int.toNat, options, []⟩
  let start : Reader Unit := do
    match scan.tokens, scan.fault with
    | token :: _, _ => reach token
    | [], some misreading => throw misreading
    | [], none => pure ()
  let ((), feed) ← StateT.run start feed
  let (result, _) ← StateT.run (rule (scan.tokens.length + 1)) feed
  return result

/-- The definitions of a query document, each with the place where it starts, and the places where
definitions of the schema name types. -/
def placedDefinitions (bound : Nat) : Reader PlacedDocument := do
  let first ← placed
  let more ← placedUntilEnd bound
  return ⟨first :: more, (← get).mentions.reverse⟩
where
  placed : Reader (Pos × Definition) := do
    let pos ← here
    return (pos, ← definition bound)
  placedUntilEnd : Nat → Reader (List (Pos × Definition))
    | 0 => refuse
    | steps + 1 => do
      if (← current).lexeme == .endOfText then
        return []
      else
        let next ← placed
        return next :: (← placedUntilEnd steps)

end Reader

/-- A token without its place. -/
def Token.unplaced (token : Token) : Token :=
  { token with pos := Pos.nowhere }

/-- The fault alone of what could not be read. -/
def withoutPlace {α : Type} : Except Misreading α → Except ReadFault α
  | .ok a => .ok a
  | .error misreading => .error misreading.fault

/-- Reads a query document with the places of its parts. -/
def readQuery (text : String) : Except Misreading PlacedDocument :=
  Reader.run {} (scan text) Reader.placedDefinitions

/-- Reads a document of definitions. Places within it are not kept, so that equal definitions are
equal wherever they stand. -/
def readDocument (options : ReadOptions) (text : String) : Except ReadFault Document := do
  let scanned := scan text
  let unplaced := { scanned with tokens := scanned.tokens.map Token.unplaced }
  let definitions ← withoutPlace (Reader.run options unplaced Reader.definitions)
  return ⟨definitions, !options.withoutPlaces.getD false⟩

/-- Reads a type that takes up the whole text. -/
def readType (text : String) : Except ReadFault TypeExpr :=
  withoutPlace <| Reader.run {} (scan text) fun bound => do
    let type ← Reader.type bound
    Reader.expectEnd
    return type

end RecordApi.Language
