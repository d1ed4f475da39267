import RecordApi.Proofs.Table.Ledger
import RecordApi.Proofs.Table.Sessions

/-!
# Rows by their identifiers

A row is found in three ways: by the key of the table, by a condition on the identifier column, and
by the key that was stored with it. Where the identifier column is the key, all three ways lead to
the same row, which is the one whose key is the cell that the identifier stands for.
-/

namespace RecordApi.Table

open RecordApi.Action Std

namespace ColumnType

/-- A value of a type is read as itself. -/
theorem coerce_owned {type : ColumnType} {value : Datum} (h : type.Owned value) :
    coerce (some type) value = value := by
  cases h with
  | @text _ s htype => rcases cases_affinity_text htype with rfl | rfl <;> rfl
  | _ => rfl

theorem cell_owned {type : ColumnType} {value : Datum} (h : type.Owned value) :
    type.cell value = .ok (Cell.ofValue value) := by
  obtain ⟨form, hform, hcell⟩ := form_of_takes (.inr h)
  rw [cell, hform]
  exact hcell

theorem Owned.ne_null {type : ColumnType} {value : Datum} (h : type.Owned value) :
    value ≠ .null := by
  cases h <;> simp

/-- No text is a value of a type of integers. -/
theorem Owned.not_isInteger {type : ColumnType} {s : String} (h : type.Owned (.text s)) :
    type.isInteger = false := by
  cases h with
  | text htype => rcases cases_affinity_text htype with rfl | rfl <;> rfl

/-- What is stored for an identifier is something. -/
theorem Identifies.stored_ne_null {type : ColumnType} {value : Datum} {cell : Cell}
    (h : type.Identifies value cell) : type.affinity.stored cell ≠ .null := by
  have hcompare := compare_stored (.inr h.owned)
  rw [h.cell_eq] at hcompare
  intro hnull
  rw [hnull] at hcompare
  have hpresent := h.present
  cases cell <;> simp_all [Cell.compare]

end ColumnType

/-- A cell that is something is equal to just the cells that their order does not tell apart. -/
theorem between_equal {cell : Cell} (h : cell ≠ .null) (own : Cell) :
    Comparison.equal.between own cell = (own.compare cell == .eq) := by
  rw [Comparison.between, Cell.isNull_eq_false.mpr h]
  cases own with
  | null =>
      cases cell with
      | null => exact absurd rfl h
      | _ => rfl
  | _ => rfl

/-- Whether a row holds a cell in a column. -/
def Column.holds (column : Column) (cell : Cell) (row : Row) : Bool :=
  (cellAt row column.name).compare cell == .eq

namespace Model

variable {model : Model} {value : Datum} {cell : Cell} {session : Session}

theorem keyValue_owned {type : ColumnType} (h : type.Owned value) :
    model.keyValue value = .ok value := by
  cases h <;> rfl

/-- The test of rows by which the key of the table is searched for a value. -/
def keyTest (model : Model) (key : Datum) : Except Failure (Row → Bool) := do
  let cell ← model.key.type.cell (← model.keyValue key)
  let wanted := model.key.type.affinity.compared cell
  return fun row => !wanted.isNull && model.hasKey wanted row

/-- Finding a row by the key of the table is a search with the test of that key. -/
theorem exec_findRow_eq (hready : session.waiting = false) (key : Datum) :
    exec (model.findRow key) session =
      ((model.keyTest key).map fun picked => (model.inOrder (session.rows model)).find? picked,
        session) := by
  have hread : session.readable model = .ok (model.inOrder (session.rows model)) := by
    simp [Session.readable, hready]
  have hsearch (wanted : Cell) (rows : List Row) :
      (if wanted.isNull then none else
          rows.find? fun row => (model.keyOf row).compare wanted == .eq) =
        rows.find? fun row => !wanted.isNull && model.hasKey wanted row := by
    cases hwanted : wanted.isNull with
    | true =>
        rw [if_pos rfl, eq_comm, List.find?_eq_none]
        simp
    | false => rfl
  simp only [findRow, keyTest, exec_bind, Session.exec_lift]
  cases model.keyValue key with
  | error failure => rfl
  | ok value =>
      simp only [after_ok, exec_bind, Session.exec_read, hread, Session.exec_lift]
      cases hcell : model.key.type.cell value with
      | error failure => simp [bind, Except.bind, hcell, Except.map]
      | ok cell =>
          rw [after_ok, exec_pure, hsearch]
          simp [bind, Except.bind, hcell, Except.map, pure, Except.pure]

/-- A value of the key's type is searched for by its cell. -/
theorem keyTest_owned (howned : model.key.type.Owned value) (hcell : Cell.ofValue value = cell)
    (hpresent : cell ≠ .null) : model.keyTest value = .ok (model.hasKey cell) := by
  have hvalue : model.key.type.cell value = .ok cell := by
    rw [ColumnType.cell_owned howned, hcell]
  have hcompared : model.key.type.affinity.compared cell = cell := by
    rw [← hcell]
    exact ColumnType.compared_comparand (ColumnType.comparand?_of_owned howned)
  simp only [keyTest, keyValue_owned howned, hvalue, hcompared, Cell.isNull_eq_false.mpr hpresent,
    bind, Except.bind, pure, Except.pure, Bool.not_false, Bool.true_and]

/-- The row of an identifier, found by the key of the table. -/
theorem exec_findRow (hready : session.waiting = false)
    (h : model.key.type.Identifies value cell) :
    exec (model.findRow value) session =
      (.ok ((model.inOrder (session.rows model)).find? (model.hasKey cell)), session) := by
  rw [exec_findRow_eq hready, keyTest_owned h.owned h.cell_eq h.present]
  rfl

/-- The rows of an identifier, found by a condition on the identifier column. -/
theorem idTest_owned {idColumn : Column} {id : Datum}
    (howned : idColumn.type.Owned (coerce (some idColumn.type) id))
    (hcell : Cell.ofValue (coerce (some idColumn.type) id) = cell) (hpresent : cell ≠ .null) :
    idTest idColumn id = .ok (idColumn.holds cell) := by
  have hcomparand := ColumnType.comparand?_of_owned howned
  rw [hcell] at hcomparand
  obtain ⟨condition, hcondition, htest⟩ :=
    compare_comparand .equal hcomparand fun _ => rfl
  rw [idTest, hcondition]
  show condition.test = _
  rw [htest]
  congr 1
  funext row
  exact between_equal hpresent _

/-- The rows of an identifier, found by a condition on the key column. -/
theorem idTest_eq {id : Datum}
    (h : model.key.type.Identifies (coerce (some model.key.type) id) cell) :
    idTest model.key id = .ok (model.hasKey cell) :=
  idTest_owned h.owned h.cell_eq h.present

end Model

end RecordApi.Table
