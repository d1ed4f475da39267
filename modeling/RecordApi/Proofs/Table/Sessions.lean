import RecordApi.Proofs.Actions
import RecordApi.Table.Records

/-!
# Work in a session

What reading, writing and flushing give in a session that does not wait for a rollback. Rows are
read in another order than they are kept in, but none is added or lost.
-/

namespace RecordApi.Table

open RecordApi.Action

namespace Model

theorem inOrder_perm (model : Model) (rows : List Row) : (model.inOrder rows).Perm rows := by
  unfold inOrder
  split
  · exact List.mergeSort_perm rows _
  · exact List.Perm.refl rows

end Model

namespace Session

variable {α : Type} {session : Session}

@[simp] theorem exec_lift (outcome : Except Failure α) (session : Session) :
    exec (lift outcome) session = (outcome, session) := by
  cases outcome <;> rfl

theorem exec_lift_eq_ok {outcome : Except Failure α} {a : α} {left : Session} :
    exec (lift outcome) session = (.ok a, left) ↔ outcome = .ok a ∧ session = left := by
  rw [exec_lift, Prod.mk.injEq]

@[simp] theorem rows_withRows (session : Session) (model : Model) (rows : List Row) :
    (session.withRows model rows).rows model = rows := by
  simp [Session.rows, withRows]

theorem exec_begin (session : Session) :
    exec begin session = (if session.waiting then .error .rollbackNeeded else .ok (), session) := by
  simp only [begin, exec_bind, exec_get, after_ok]
  split <;> simp

/-- The rows of a table in the order in which they are read. -/
def readable (session : Session) (model : Model) : Except Failure (List Row) :=
  if session.waiting then .error .rollbackNeeded else .ok (model.inOrder (session.rows model))

theorem exec_read (model : Model) (session : Session) :
    exec (read model) session = (session.readable model, session) := by
  simp only [read, readable, exec_bind, exec_begin]
  split <;> simp

/-- A write either is done as a whole or changes nothing. -/
theorem exec_write (model : Model) (change : Change α) (session : Session) :
    exec (write model change) session =
      if session.waiting then (.error .rollbackNeeded, session)
      else match change (session.rows model) with
        | .ok (rows, answer) => (.ok answer, session.withRows model rows)
        | .error failure => (.error failure, session) := by
  cases hwaiting : session.waiting with
  | true => simp [write, exec_begin, hwaiting]
  | false =>
      cases hchange : change (session.rows model) <;> simp [write, exec_begin, hwaiting, hchange]

/-- A flush either is done as a whole or leaves the session waiting for a rollback. -/
theorem exec_flush (model : Model) (change : Change α) (session : Session) :
    exec (flush model change) session =
      if session.waiting then (.error .rollbackNeeded, session)
      else match change (session.rows model) with
        | .ok (rows, answer) => (.ok answer, session.withRows model rows)
        | .error failure => (.error failure, { session with waiting := true }) := by
  cases hwaiting : session.waiting with
  | true => simp [flush, exec_begin, hwaiting]
  | false =>
      cases hchange : change (session.rows model) <;> simp [flush, exec_begin, hwaiting, hchange]

theorem exec_write_ok {model : Model} {change : Change α} {rows : List Row} {answer : α}
    (hready : session.waiting = false) (h : change (session.rows model) = .ok (rows, answer)) :
    exec (write model change) session = (.ok answer, session.withRows model rows) := by
  simp [exec_write, hready, h]

theorem exec_flush_ok {model : Model} {change : Change α} {rows : List Row} {answer : α}
    (hready : session.waiting = false) (h : change (session.rows model) = .ok (rows, answer)) :
    exec (flush model change) session = (.ok answer, session.withRows model rows) := by
  simp [exec_flush, hready, h]

/-- A write that answers has been made in a session that is ready. -/
theorem exec_write_eq_ok {model : Model} {change : Change α} {answer : α} {left : Session} :
    exec (write model change) session = (.ok answer, left) ↔
      session.waiting = false ∧ ∃ rows, change (session.rows model) = .ok (rows, answer) ∧
        left = session.withRows model rows := by
  rw [exec_write]
  cases session.waiting with
  | true => simp
  | false => rcases change (session.rows model) with _ | ⟨rows, found⟩ <;> simp [and_assoc, eq_comm]

theorem exec_flush_eq_ok {model : Model} {change : Change α} {answer : α} {left : Session} :
    exec (flush model change) session = (.ok answer, left) ↔
      session.waiting = false ∧ ∃ rows, change (session.rows model) = .ok (rows, answer) ∧
        left = session.withRows model rows := by
  rw [exec_flush]
  cases session.waiting with
  | true => simp
  | false => rcases change (session.rows model) with _ | ⟨rows, found⟩ <;> simp [and_assoc, eq_comm]

end Session

end RecordApi.Table
