import RecordApi.Collection
import RecordApi.Request.Collection
import RecordApi.Request.Leaf

/-!
# Answering a selection

A selection is answered from a source field by field. Some fields are served by calls, which are
made once all that needs no call has been answered; until then the answer has gaps. An error makes
the nearest value that may be null the missing one.
-/

namespace RecordApi.Request

open RecordApi.Language

/-- An error that an answer tells. -/
structure AnswerError where
  message : String
  places : List Pos
  path : Option (List PathStep)
deriving DecidableEq, Repr, Inhabited

/-- An error on its way to the nearest value that may be null. Before it is located it knows at most
a place of its own. -/
inductive Raised where
  | bare (message : String) (pos : Option Pos)
  | located (error : AnswerError)
deriving Inhabited

/-- A value that is asked for: its type, the fields that ask for it, and the path to it, the last
step first. -/
structure Site where
  type : TypeExpr
  places : List Pos
  path : List PathStep
deriving Inhabited

/-- The error with the places and the path of a site, unless it has been located before. -/
def Raised.locate (site : Site) : Raised → AnswerError
  | bare message pos => ⟨message, (pos.map fun p => [p]).getD site.places, some site.path.reverse⟩
  | located error => error

/-- An answer, some parts of which may still be calls. -/
inductive Answer where
  | done (d : Datum)
  | call (index : Nat)
  | guarded (site : Site) (inner : Answer)
  | record (entries : List (String × Answer))
  | list (items : List Answer)
deriving Inhabited

/-- The value of an answer without calls. -/
def Answer.done? : Answer → Option Datum
  | done d => some d
  | _ => none

/-- A record of answers, which is a value if all of them are. -/
def Answer.ofEntries (entries : List (String × Answer)) : Answer :=
  match entries.mapM fun (key, answer) => answer.done?.map fun d => (key, d) with
  | some values => .done (.record values)
  | none => .record entries

/-- A list of answers, which is a value if all of them are. -/
def Answer.ofItems (items : List Answer) : Answer :=
  match items.mapM Answer.done? with
  | some values => .done (.list values)
  | none => .list items

/-- What serves a field: a value at once, or a call to be made. -/
inductive Served (σ : Type) where
  | now (result : Except Failure Datum)
  | later (call : Action σ Datum)

/-- What serves the fields of object types beyond reading them from records. -/
abbrev Serving (σ : Type) := String → String → Option (Datum.Entries → Served σ)

/-- The field that a value answers. -/
structure Asker where
  parent : String
  group : FieldGroup
deriving Inhabited

/-- The name of the field with its type, in messages. -/
def Asker.text (asker : Asker) : String :=
  asker.parent ++ "." ++ asker.group.first.head.name

/-- A call to be made, with what asks for its result. -/
structure PendingCall (σ : Type) where
  call : Action σ Datum
  asker : Asker
  site : Site
  depth : Nat

/-- How far the answering is. -/
structure Progress (σ : Type) where
  world : σ
  errors : List AnswerError
  calls : List (PendingCall σ)

/-- A step of answering. What it has changed when it raises an error stays changed. -/
abbrev Answering (σ : Type) := ExceptT Raised (StateM (Progress σ))

variable {σ : Type}

/-- Writes down an error. -/
def noteError (error : AnswerError) : Answering σ Unit :=
  modify fun progress => { progress with errors := progress.errors ++ [error] }

/-- Deals with an error at a site: raises it further, or notes it and answers that nothing is
there. -/
def settleError (site : Site) (raised : Raised) : Answering σ Datum := do
  let error := raised.locate site
  if site.type.isNonNull then throw (.located error)
  else
    noteError error
    return .null

/-- Answers a site, dealing with an error there. -/
def guardSite (site : Site) (answering : Answering σ Answer) : Answering σ Answer := do
  match ← (tryCatch (Except.ok <$> answering) fun raised => return .error raised) with
  | .ok (.done d) => return .done d
  | .ok answer => return .guarded site answer
  | .error raised => return .done (← settleError site raised)

/-- The text of a failure in an answer. -/
def failureText : Failure → String
  | .noKey key => Text.quoted key
  | failure => failure.message

/-- What a selection is answered from. -/
structure Host (σ : Type) where
  sources : Sources
  serving : Serving σ

/-- The object type of a value of an abstract type, which the value itself must name. -/
def objectTypeOf (schema : Schema) (asker : Asker) (typeName : String) (d : Datum) :
    Except String String :=
  let title := "Abstract type '" ++ typeName ++ "' "
  match (d.entries?.bind fun entries => Entries.get? entries "__typename").bind Datum.text? with
  | none =>
    .error (title ++ "must resolve to an Object type at runtime for field '" ++ asker.text ++
      "'. Either the '" ++ typeName ++ "' type should provide a 'resolve_type' function or each " ++
      "possible type should provide an 'is_type_of' function.")
  | some name =>
    if (schema.type? name).isNone then
      .error (title ++ "was resolved to a type '" ++ name ++
        "' that does not exist inside the schema.")
    else if !schema.isOf TypeShape.isObject (.named name) then
      .error (title ++ "was resolved to a non-object type '" ++ name ++ "'.")
    else if !schema.isBelow typeName name then
      .error ("Runtime Object type '" ++ name ++ "' is not a possible type for '" ++ typeName ++
        "'.")
    else
      .ok name

/-- What was read, or an error raised. -/
def orRaise {α : Type} : Except String α → Answering σ α
  | .ok a => return a
  | .error message => throw (.bare message none)

/-- Completes a value at a named type: a leaf is brought into its form, and an object is answered
part by part. -/
def completeNamed (schema : Schema) (asker : Asker)
    (objects : String → Datum → List PathStep → Answering σ Answer) (name : String)
    (path : List PathStep) (d : Datum) : Answering σ Answer := do
  match schema.shape? (.named name) with
  | some (.enum options) =>
    return .done (← orRaise (enumOutput name (options.map (·.name)) d))
  | some (.object _ _) => objects name d path
  | some (.interface _ _) | some (.union _) =>
    objects (← orRaise (objectTypeOf schema asker name d)) d path
  | _ => return .done (← orRaise (scalarOutput name d))

/-- Completes a value at a type. -/
def completeValue (schema : Schema) (asker : Asker)
    (objects : String → Datum → List PathStep → Answering σ Answer) :
    TypeExpr → List PathStep → Datum → Answering σ Answer
  | .nonNull inner, path, d => do
    match ← completeValue schema asker objects inner path d with
    | .done .null =>
      throw (.bare ("Cannot return null for non-nullable field " ++ asker.text ++ ".") none)
    | answer => return answer
  | .list item, path, d =>
    match d with
    | .null => return .done .null
    | .list items => do
      let answers ← items.zipIdx.mapM fun (value, index) =>
        let path := .index index :: path
        guardSite ⟨item, asker.group.places, path⟩
          (completeValue schema asker objects item path value)
      return Answer.ofItems answers
    | _ =>
      throw (.bare ("Expected Iterable, but did not find one for field '" ++ asker.text ++ "'.")
        none)
  | .named name, path, d =>
    match d with
    | .null => return .done .null
    | d => completeNamed schema asker objects name path d

/-- The value of a field that is read from its source. -/
def readField (parent name : String) (source : Datum) : Datum :=
  if name = "__typename" then .text parent
  else
    match source with
    | .record entries => Entries.get entries name
    | _ => .null

/-- Raises the fault of an argument. -/
def orRaiseArgument {α : Type} : Except ArgumentFault α → Answering σ α
  | .ok a => return a
  | .error fault => throw (.bare fault.message fault.pos)

/-- Keeps a call for later. -/
def deferCall (pending : PendingCall σ) : Answering σ Answer := do
  let index := (← get).calls.length
  modify fun progress => { progress with calls := progress.calls ++ [pending] }
  return .call index

mutual

/-- Answers the selected fields of an object. The number bounds how deep objects lie in each
other. -/
def answerObject (host : Host σ) : Nat → List Selection → String → Datum → List PathStep →
    Answering σ Answer
  | 0, _, _, _, _ => return .done .null
  | depth + 1, selections, typeName, source, path => do
    let groups ← orRaiseArgument (fieldGroups host.sources typeName selections)
    let entries ← groups.filterMapM fun group => do
      return (← answerField host depth typeName source path group).map fun answer =>
        (group.key, answer)
    return Answer.ofEntries entries

/-- Answers a field of an object, unless its type does not have it. -/
def answerField (host : Host σ) (depth : Nat) (parent : String) (source : Datum)
    (path : List PathStep) (group : FieldGroup) : Answering σ (Option Answer) := do
  let name := group.first.head.name
  match host.sources.schema.field? parent name with
  | none => return none
  | some field =>
    let site : Site := ⟨field.type, group.places, .key group.key :: path⟩
    let asker : Asker := ⟨parent, group⟩
    some <$> guardSite site do
      let arguments ← orRaiseArgument (argumentValues host.sources.schema host.sources.bindings
        field.arguments group.first.head.arguments)
      match host.serving parent name with
      | none => answerValue host depth asker site (readField parent name source)
      | some serve =>
        match serve arguments with
        | .now (.ok d) => answerValue host depth asker site d
        | .now (.error failure) => throw (.bare (failureText failure) none)
        | .later call => deferCall ⟨call, asker, site, depth⟩

/-- Answers a value that a site asks for. -/
def answerValue (host : Host σ) (depth : Nat) (asker : Asker) (site : Site) (d : Datum) :
    Answering σ Answer :=
  completeValue host.sources.schema asker
    (fun typeName source path =>
      answerObject host depth asker.group.selections typeName source path)
    site.type site.path d

end

mutual

/-- How many calls an answer waits for. -/
def Answer.waits : Answer → Nat
  | .done _ => 0
  | .call _ => 1
  | .guarded _ inner => inner.waits
  | .record entries => entriesWaits entries
  | .list items => itemsWaits items

/-- How many calls the entries of a record wait for. -/
def entriesWaits : List (String × Answer) → Nat
  | [] => 0
  | (_, answer) :: entries => answer.waits + entriesWaits entries

/-- How many calls the items of a list wait for. -/
def itemsWaits : List Answer → Nat
  | [] => 0
  | answer :: items => answer.waits + itemsWaits items

end

/-- What comes next in an answer: one call, or parts that wait independently. -/
inductive NextStep where
  | call (index : Nat)
  | parts (answers : List Answer)

mutual

/-- What comes next in an answer. A part that waits alone is followed into. -/
def Answer.next : Answer → NextStep
  | .done _ => .parts []
  | .call index => .call index
  | .guarded _ inner => inner.next
  | .record entries =>
    match entriesNext entries with
    | [] => .parts []
    | [(_, next)] => next
    | waiting => .parts (waiting.map (·.1))
  | .list items =>
    match itemsNext items with
    | [] => .parts []
    | [(_, next)] => next
    | waiting => .parts (waiting.map (·.1))

/-- The entries that wait, each with what comes next in it. -/
def entriesNext : List (String × Answer) → List (Answer × NextStep)
  | [] => []
  | (_, answer) :: entries =>
    if answer.waits = 0 then entriesNext entries
    else (answer, answer.next) :: entriesNext entries

/-- The items that wait, each with what comes next in it. -/
def itemsNext : List Answer → List (Answer × NextStep)
  | [] => []
  | answer :: items =>
    if answer.waits = 0 then itemsNext items else (answer, answer.next) :: itemsNext items

end

/-- The order in which the calls of answers are made: answers wait in a queue, and the parts of one
go to its end. The number bounds the steps. -/
def callOrder : Nat → List Answer → List Nat
  | 0, _ => []
  | _, [] => []
  | steps + 1, answer :: queue =>
    match answer.next with
    | .call index => index :: callOrder steps queue
    | .parts answers => callOrder steps (queue ++ answers)

mutual

/-- How many parts an answer has. -/
def Answer.size : Answer → Nat
  | .done _ | .call _ => 1
  | .guarded _ inner => 1 + inner.size
  | .record entries => 1 + entriesSize entries
  | .list items => 1 + itemsSize items

/-- How many parts the entries of a record have. -/
def entriesSize : List (String × Answer) → Nat
  | [] => 0
  | (_, answer) :: entries => answer.size + entriesSize entries

/-- How many parts the items of a list have. -/
def itemsSize : List Answer → Nat
  | [] => 0
  | answer :: items => answer.size + itemsSize items

end

/-- The outcomes of calls by their index. -/
abbrev Outcomes := List (Nat × Except Failure Datum)

/-- Makes a call. -/
def makeCall (index : Nat) : Answering σ (Nat × Except Failure Datum) := do
  let progress ← get
  match progress.calls[index]? with
  | none => return (index, .ok .null)
  | some pending =>
    let (outcome, world) := pending.call.run.run progress.world
    set { progress with world := world }
    return (index, outcome)

/-- Gives all answers, and then raises the first error among them. -/
def allOrFirst {α : Type} (outcomes : List (Except Raised α)) : Answering σ (List α) :=
  match outcomes.mapM id with
  | .ok values => return values
  | .error raised => throw raised

/-- The outcome of answering, as a value. -/
def attempt {α : Type} (answering : Answering σ α) : Answering σ (Except Raised α) :=
  tryCatch (Except.ok <$> answering) fun raised => return .error raised

mutual

/-- Puts the outcomes of calls into an answer. `complete` answers the result of a call. -/
def fillAnswer (complete : PendingCall σ → Datum → Answering σ Datum) (outcomes : Outcomes) :
    Answer → Answering σ Datum
  | .done d => return d
  | .call index => do
    match (← get).calls[index]?, outcomes.lookup index with
    | some pending, some (.ok d) => complete pending d
    | _, some (.error failure) => throw (.bare (failureText failure) none)
    | _, _ => return .null
  | .guarded site inner => do
    match ← attempt (fillAnswer complete outcomes inner) with
    | .ok d => return d
    | .error raised => settleError site raised
  | .record entries => do
    let filled ← fillEntries complete outcomes entries
    let values ← allOrFirst (filled.map (·.2))
    return .record ((filled.map (·.1)).zip values)
  | .list items => do
    return .list (← allOrFirst (← fillItems complete outcomes items))

/-- Puts the outcomes of calls into the entries of a record. -/
def fillEntries (complete : PendingCall σ → Datum → Answering σ Datum) (outcomes : Outcomes) :
    List (String × Answer) → Answering σ (List (String × Except Raised Datum))
  | [] => return []
  | (key, answer) :: entries => do
    let first ← attempt (fillAnswer complete outcomes answer)
    return (key, first) :: (← fillEntries complete outcomes entries)

/-- Puts the outcomes of calls into the items of a list. -/
def fillItems (complete : PendingCall σ → Datum → Answering σ Datum) (outcomes : Outcomes) :
    List Answer → Answering σ (List (Except Raised Datum))
  | [] => return []
  | answer :: items => do
    let first ← attempt (fillAnswer complete outcomes answer)
    return first :: (← fillItems complete outcomes items)

end

/-- Makes the calls of an answer and puts their results in. Answering a result may take further
calls; the number bounds how often. -/
def finish (host : Host σ) : Nat → Answer → Answering σ Datum
  | 0, _ => return .null
  | rounds + 1, answer => do
    let outcomes ← (callOrder answer.size [answer]).mapM makeCall
    fillAnswer
      (fun pending d => do
        finish host rounds (← answerValue host pending.depth pending.asker pending.site d))
      outcomes answer

end RecordApi.Request
