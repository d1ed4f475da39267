import RecordApi.Number.Reading
import RecordApi.Text.Base64
import RecordApi.Text.Quoted

/-!
# Cursors

A cursor names an offset into a sorted list. It is the decimal text of the offset behind a fixed
mark, written in base 64.
-/

namespace RecordApi.Paging

/-- The text in front of the offset. -/
def cursorMark : List Char :=
  "offset:".toList

/-- Why a text is no cursor. -/
inductive CursorFault where
  | malformed (cursor : String)
  | tooLong (digits : Nat)
deriving DecidableEq, Repr

/-- The message for a text that is no cursor. -/
def CursorFault.message : CursorFault → String
  | .malformed cursor => "Invalid cursor " ++ Text.quoted cursor
  | .tooLong digits =>
    "Exceeds the limit (4300 digits) for integer string conversion: value has " ++
      toString digits ++ " digits; use sys.set_int_max_str_digits() to increase the limit"

/-- The cursor of an offset. -/
def encodeCursor (offset : Int) : String :=
  String.ofList (Text.Base64.encode ((cursorMark ++ (toString offset).toList).map Char.toNat))

/-- The decimal digits behind the mark in the bytes of a cursor. -/
def cursorDigits? (bytes : List Nat) : Option (List Nat) :=
  let mark := cursorMark.map Char.toNat
  let digits := bytes.drop mark.length
  if bytes.take mark.length == mark && !digits.isEmpty &&
      digits.all (fun b => 48 ≤ b && b ≤ 57) then
    some (digits.map (· - 48))
  else
    none

/-- The offset that a cursor names. -/
def decodeCursor (cursor : String) : Except CursorFault Nat :=
  let cs := cursor.toList
  if cs.any fun c => 128 ≤ c.toNat then
    .error (.malformed cursor)
  else
    match (Text.Base64.decode cs).bind cursorDigits? with
    | none => .error (.malformed cursor)
    | some digits =>
      if Number.mostIntDigits < digits.length then .error (.tooLong digits.length)
      else .ok (Number.ofDigits digits)

end RecordApi.Paging
