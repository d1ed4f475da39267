import RecordApi.Language.Reader
import RecordApi.Request.Answer
import RecordApi.Validation.RequestRules

/-!
# Executing a request

A request is read, validated and given the values of its variables, and only then answered. The
fields of a mutation are answered one after the other, each with all its calls; those of any other
operation together. The errors of an answer are sorted by place, path and message.
-/

namespace RecordApi.Request

open RecordApi.Language Validation

/-- A submitted request: the text of its document, the values given for its variables, and the name
of the operation to execute. -/
structure Submission where
  text : String
  given : Datum.Entries
  operation : Option String

/-- What a request is answered with. -/
structure Response where
  data : Datum
  errors : List AnswerError
deriving Inhabited

namespace Response

/-- The response to a request that is not executed. -/
def refusal (errors : List AnswerError) : Response :=
  ⟨.null, errors⟩

end Response

/-- An error without a path. -/
def plainError (message : String) (places : List Pos) : AnswerError :=
  ⟨message, places, none⟩

/-- Compares lists item by item; a beginning comes before what goes on from it. -/
def compareLists {α : Type} (compareItems : α → α → Ordering) : List α → List α → Ordering
  | [], [] => .eq
  | [], _ :: _ => .lt
  | _ :: _, [] => .gt
  | a :: as, b :: bs => (compareItems a b).then (compareLists compareItems as bs)

/-- Compares places by line, then by column. -/
def comparePlaces (a b : Pos) : Ordering :=
  (compare a.line b.line).then (compare a.column b.column)

/-- Compares steps of a path. -/
def compareSteps : PathStep → PathStep → Ordering
  | .index m, .index n => compare m n
  | .key a, .key b => compare a b
  | .index _, .key _ => .lt
  | .key _, .index _ => .gt

/-- Compares errors by place, path and message. -/
def compareErrors (a b : AnswerError) : Ordering :=
  ((compareLists comparePlaces a.places b.places).then
    (compareLists compareSteps (a.path.getD []) (b.path.getD []))).then
    (compare a.message b.message)

/-- The operation of a name, or the only one. -/
def chooseOperation (operations : List OperationDef) (name : Option String) :
    Except AnswerError OperationDef :=
  match name, operations with
  | none, [] => .error (plainError "Must provide an operation." [])
  | none, [d] => .ok d
  | none, _ =>
    .error (plainError
      "Must provide operation name if query contains multiple operations." [])
  | some name, operations =>
    match operations.reverse.find? fun d => d.name.any (·.text == name) with
    | some d => .ok d
    | none => .error (plainError ("Unknown operation named '" ++ name ++ "'.") [])

variable {σ : Type}

/-- A depth that no answer exceeds. -/
def depthFor (parts : RequestParts) : Nat :=
  let sizes := parts.operations.map (selectionsSize ·.selections) ++
    parts.fragments.map (selectionsSize ·.selections)
  sizes.foldl (· + ·) 0 + 1

/-- Answers fields one after the other, each with all its calls. -/
def answerInTurn (host : Host σ) (depth : Nat) (typeName : String) :
    List FieldGroup → Answering σ (List (String × Datum))
  | [] => return []
  | group :: groups => do
    let entry ← do
      match ← answerField host depth typeName .null [] group with
      | none => pure []
      | some answer => pure [(group.key, ← finish host depth answer)]
    return entry ++ (← answerInTurn host depth typeName groups)

/-- Answers an operation from the root type. -/
def answerOperation (host : Host σ) (depth : Nat) (typeName : String) (d : OperationDef) :
    Answering σ Datum := do
  match d.operation with
  | .mutation => do
    let groups ← orRaiseArgument (fieldGroups host.sources typeName d.selections)
    return .record (← answerInTurn host depth typeName groups)
  | _ => finish host depth (← answerObject host depth d.selections typeName .null [])

/-- The response that the outcome of answering gives. -/
def respond (outcome : Except Raised Datum) (progress : Progress σ) : Response :=
  let sorted := fun (errors : List AnswerError) =>
    errors.mergeSort fun a b => compareErrors a b != .gt
  match outcome with
  | .ok d => ⟨d, sorted progress.errors⟩
  | .error (.located error) => ⟨.null, sorted (progress.errors ++ [error])⟩
  | .error (.bare message pos) =>
    ⟨.null, sorted (progress.errors ++ [plainError message pos.toList])⟩

/-- Executes an operation whose variables have their values. -/
def executeOperation (schema : Schema) (serving : Serving σ) (parts : RequestParts)
    (d : OperationDef) (bindings : VariableValues) : StateM σ Response := fun world =>
  match schema.root? d.operation with
  | none =>
    (Response.refusal [plainError
      ("Schema is not configured to execute " ++ d.operation.text ++ " operation.") [d.pos]], world)
  | some typeName =>
    let host : Host σ := ⟨⟨schema, parts.fragments, bindings⟩, serving⟩
    let (outcome, progress) :=
      (answerOperation host (depthFor parts) typeName d).run.run ⟨world, [], []⟩
    (respond outcome progress, progress.world)

/-- Executes a request. -/
def execute (schema : Schema) (serving : Serving σ) (request : Submission) : StateM σ Response := do
  match readQuery request.text with
  | .error misreading =>
    return .refusal [plainError misreading.fault.message [misreading.pos]]
  | .ok document =>
    match requestReports schema document with
    | [] =>
      let parts := RequestParts.ofDefinitions (document.definitions.map (·.2))
      match chooseOperation parts.operations request.operation with
      | .error error => return .refusal [error]
      | .ok d =>
        match variableValues schema d.parameters request.given with
        | .error faults =>
          return .refusal (faults.map fun f => plainError f.message f.pos.toList)
        | .ok bindings => executeOperation schema serving parts d bindings
    | reports => return .refusal (reports.map fun r => plainError r.message r.places)

end RecordApi.Request
