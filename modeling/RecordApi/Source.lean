import RecordApi.Failure
import RecordApi.Language.Reader

/-!
# Schema fragments

A fragment is given as text or as a document that has already been read.
-/

namespace RecordApi

open RecordApi.Language

/-- What may be offered as a schema fragment. -/
inductive Source where
  | text (text : String)
  | document (document : Document)
  /-- Something else, of the named kind. -/
  | foreign (kind : String)
deriving Inhabited

/-- The document of a fragment. -/
def Source.load (options : ReadOptions) : Source → Except Failure Document
  | document d => .ok d
  | foreign kind => .error (.notADocument kind)
  | text s =>
    match readDocument options s with
    | .ok d => .ok d
    | .error fault => .error (.unreadable fault)

end RecordApi
