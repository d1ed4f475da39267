import RecordApi.Descriptor
import RecordApi.Language.Token
import RecordApi.Paging.Cursor

/-!
# Failures

Everything that can go wrong while a schema is assembled or a record is worked on, by its cause. The
wording is in one place.
-/

namespace RecordApi

open RecordApi.Language

/-- Why an assembly or an operation stops. -/
inductive Failure where
  /-- A schema fragment is neither text nor a document, but of the named kind. -/
  | notADocument (kind : String)
  /-- The text of a schema fragment cannot be read. -/
  | unreadable (fault : ReadFault)
  /-- The text of a schema fragment in a file cannot be read. -/
  | unreadableFile (path : String) (fault : ReadFault)
  /-- A root type is not declared as an object type. -/
  | notAnObject (root : String)
  /-- An input type would have no fields. -/
  | emptyInput (inputName typeName : String)
  /-- The assembled document is no valid schema. -/
  | invalidSchema (messages : List String)
  /-- An object type holds a field of an input type, which has no place for arguments. -/
  | takenOverField
  /-- A finished schema that is offered as a fragment cannot be made. -/
  | unusableSchema
  /-- A type has no identifier. -/
  | identifier (fault : IdFault)
  /-- A definition of the named kind has no name to merge it by. -/
  | unnamed (kindName : String)
  /-- A text outside of the schema fragments cannot be read. -/
  | misread (fault : ReadFault)
  /-- A generated declaration would not have a valid name. -/
  | invalidName (name : String)
  /-- Options are given that do not exist. -/
  | unknownOptions (names : List String)
  /-- There is no file under a path. -/
  | noFile
  /-- A path leads to a directory. -/
  | directory
  /-- The bytes of a file are no text. -/
  | notText
  /-- A record to update does not exist. -/
  | noRecord (collection id : String)
  /-- A key is not there. -/
  | noKey (key : String)
  /-- Resolvers are bound to a type that is no object type of the schema. -/
  | notBindable (typeName : String)
  /-- A value of the named kind cannot be used as a key. -/
  | unusableKey (kind : String)
  /-- An argument has a name that calls use themselves. -/
  | reservedArgument (name : String)
  /-- A store or a collection refuses with a message of its own. -/
  | refused (message : String)
  /-- A field is no column of a model. -/
  | unknownField (field model : String)
  /-- A filter operation is not registered. -/
  | unknownOperation (name : String)
  /-- A cursor cannot be read. -/
  | cursor (fault : Paging.CursorFault)
  /-- A context holds no session. -/
  | noSession
  /-- A row violates a constraint of its table. -/
  | constraint
  /-- A value does not fit the type of its column. -/
  | unfitValue
  /-- A value of its kind cannot be stored or compared. -/
  | noCell
  /-- An integer does not fit into a word. -/
  | tooLarge
  /-- The missing value or a truth value is compared by order or by pattern. -/
  | incomparable
  /-- A filter or an order is no record with a name in it. -/
  | unusableSpec
  /-- A cursor is no text. -/
  | unusableCursor
  /-- An identifier is not one value. -/
  | unusableId
  /-- A session has failed and waits for a rollback. -/
  | rollbackNeeded
deriving DecidableEq, Repr, Inhabited

/-- The text of a failure. -/
def Failure.message : Failure → String
  | notADocument kind => "Supplied schemas MUST be or MUST parse to Document, got " ++ kind
  | unreadable fault => "Unable to parse schema fragment: " ++ fault.message
  | unreadableFile path fault => path ++ ": Unable to parse schema fragment: " ++ fault.message
  | notAnObject root => "Root type \"" ++ root ++ "\" is not declared as an object type"
  | emptyInput inputName typeName =>
    "Input type \"" ++ inputName ++ "\" derived from \"" ++ typeName ++
      "\" has no fields; declare \"" ++ inputName ++ "\" or give \"" ++ typeName ++
      "\" a non-identifier field"
  | invalidSchema messages => "\n\n".intercalate messages
  | takenOverField => "taken-over field"
  | unusableSchema => "unusable schema"
  | identifier fault => fault.message
  | unnamed kindName => "Unable to get name for node of kind " ++ Text.quoted kindName
  | misread fault => fault.message
  | invalidName name =>
    "Names must only contain [_a-zA-Z0-9] but '" ++ name ++ "' does not."
  | unknownOptions names => "Unknown schema options: " ++ ", ".intercalate names
  | noFile => "No such file"
  | directory => "Is a directory"
  | notText => "Not a text"
  | noRecord collection id =>
    "Document with id \"" ++ id ++ "\" in collection \"" ++ collection ++
      "\" does not exist for update"
  | noKey key => key
  | notBindable typeName =>
    "Type " ++ Text.quoted typeName ++ " is not an object type of the schema"
  | unusableKey kind => "unhashable type: '" ++ kind ++ "'"
  | reservedArgument name => "got multiple values for argument '" ++ name ++ "'"
  | refused message => message
  | unknownField field model => "Unknown field " ++ Text.quoted field ++ " for " ++ model
  | unknownOperation name => "Unknown filter operation " ++ Text.quoted name
  | cursor fault => fault.message
  | noSession => "No db_session in context"
  | constraint => "<IntegrityError>"
  | unfitValue => "<StatementError>"
  | noCell => "<ProgrammingError>"
  | tooLarge => "Python int too large to convert to SQLite INTEGER"
  | incomparable => "<ArgumentError>"
  | unusableSpec => "unusable filter or order"
  | unusableCursor => "unusable cursor"
  | unusableId => "<InvalidRequestError>"
  | rollbackNeeded => "<PendingRollbackError>"

end RecordApi
