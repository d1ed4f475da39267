import RecordApi.Proofs.Outcomes
import RecordApi.Proofs.Time.WrittenTexts
import RecordApi.Table.Condition

/-!
# Values that are compared

A value of a column's type stands for one cell, to which the cells of the column are compared. The
text under which a date and time is stored is no number, so the column's preference for numbers does
not change it.
-/

namespace RecordApi

open Number

namespace Number.Numeral

theorem isBlank_of_isDigit {c : Char} (h : c.isDigit = true) : isBlank c = false := by
  simp only [Char.isDigit, Bool.and_eq_true, decide_eq_true_eq, UInt32.le_iff_toNat_le,
    ge_iff_le] at h
  have hc : c.toNat = c.val.toNat := rfl
  have hspace : c ≠ ' ' := by
    rintro rfl
    revert h
    decide
  simp only [isBlank, Bool.or_eq_false_iff, beq_eq_false_iff_ne, ne_eq, hspace,
    not_false_eq_true, true_and, Bool.and_eq_false_iff, decide_eq_false_iff_not]
  right
  have : '0'.val.toNat = 48 := rfl
  omega

/-- White space at the ends does not reach beyond a character that is none. -/
theorem trim_append_cons (front behind : List Char) {c d : Char} (hc : isBlank c = false)
    (hd : isBlank d = false) :
    ∃ rest, trim (c :: front ++ d :: behind) = c :: front ++ d :: rest := by
  have hhead : (c :: front ++ d :: behind).dropWhile isBlank = c :: front ++ d :: behind := by
    simp [hc]
  have hreverse : (c :: front ++ d :: behind).reverse =
      behind.reverse ++ d :: (c :: front).reverse := by simp
  rw [trim, hhead, hreverse, List.dropWhile_append]
  split
  · exact ⟨[], by simp [hd]⟩
  · exact ⟨(behind.reverse.dropWhile isBlank).reverse, by simp⟩

theorem takeSign_of_isDigit {c : Char} (h : c.isDigit = true) (cs : List Char) :
    takeSign (c :: cs) = (false, c :: cs) := by
  have hminus : c ≠ '-' := by
    rintro rfl
    revert h
    decide
  have hplus : c ≠ '+' := by
    rintro rfl
    revert h
    decide
  rw [takeSign.eq_3 _ (fun _ h => hminus (List.cons.inj h).1)
    (fun _ h => hplus (List.cons.inj h).1)]

/-- Digits with a hyphen behind them are no numeral. -/
theorem read?_digits_hyphen {digits behind : List Char} (hne : digits ≠ [])
    (h : ∀ c ∈ digits, c.isDigit = true) : read? (digits ++ '-' :: behind) = none := by
  obtain ⟨c, more, rfl⟩ := List.exists_cons_of_ne_nil hne
  have hc : c.isDigit = true := h c List.mem_cons_self
  obtain ⟨rest, htrim⟩ := trim_append_cons more behind
    (isBlank_of_isDigit hc) (show isBlank '-' = false by decide)
  have hdigits : takeDigits (c :: more ++ '-' :: rest) = (c :: more, '-' :: rest) := by
    simp only [takeDigits, List.takeWhile_append_of_pos h, List.dropWhile_append_of_pos h]
    simp
  have hfraction : takeFraction ('-' :: rest) = (none, '-' :: rest) := rfl
  have hexponent : readExponent? ('-' :: rest) = none := by
    simp [readExponent?]
  rw [read?, htrim, List.cons_append, takeSign_of_isDigit hc]
  simp only [← List.cons_append, hdigits, hfraction, hexponent]

end Number.Numeral

namespace Table

theorem numbered_storedText (t : Time.DateTime) :
    (Cell.text t.storedText).numbered = .text t.storedText := by
  have hread : Numeral.read? t.storedText.toList = none := by
    rw [t.toList_storedText, Time.DateTime.dateChars, List.append_assoc, List.cons_append]
    exact Numeral.read?_digits_hyphen (Time.padded_ne_nil 4 t.year)
      fun _ => Time.isDigit_of_mem_padded
  rw [Cell.numbered, hread]

namespace Cell

/-- The cell of a number. What is no number is nothing. -/
def ofDouble : Double → Cell
  | .nan => null
  | x => real x

theorem ofDatum_real (x : Double) : ofDatum (.real x) = .ok (ofDouble x) := by
  cases x <;> rfl

theorem numbered_ofDouble (x : Double) : (ofDouble x).numbered = ofDouble x := by
  cases x <;> rfl

/-- The cell that a value stands for by itself. -/
def ofValue? : Datum → Option Cell
  | .int n => if fitsWord n then some (integer n) else none
  | .real x => some (ofDouble x)
  | .decimal s => (readDouble? s.toList).map ofDouble
  | .text s => some (text s)
  | .bool b => some (integer (if b then 1 else 0))
  | .dateTime t => some (text t.storedText)
  | _ => none

end Cell

namespace ColumnType

/-- Whether a value can be compared with the values of a type. A whole number may be compared with
numbers that have a fraction. -/
def admits : ColumnType → Datum → Bool
  | integer, .int _ | bigInteger, .int _ => true
  | float, .int _ | float, .real _ => true
  | numeric _, .int _ | numeric _, .real _ | numeric _, .decimal _ => true
  | string, .text _ | text, .text _ => true
  | boolean, .bool _ => true
  | dateTime _, .dateTime _ => true
  | _, _ => false

/-- The cell that a value stands for among the values of a type. -/
def comparand? (type : ColumnType) (value : Datum) : Option Cell :=
  if type.admits value then Cell.ofValue? value else none

theorem comparand?_eq_some {type : ColumnType} {value : Datum} {cell : Cell} :
    type.comparand? value = some cell ↔
      type.admits value = true ∧ Cell.ofValue? value = some cell := by
  simp [comparand?]

theorem compared_of_ne_text {affinity : Affinity} (h : affinity ≠ .text) (cell : Cell) :
    affinity.compared cell = cell.numbered := by
  cases affinity with
  | text => exact absurd rfl h
  | numeric => rfl
  | real => rfl

/-- Of the values of types, only texts have columns that prefer texts. -/
theorem affinity_ne_text {type : ColumnType} {value : Datum} (h : type.admits value = true)
    (htext : ∀ s, value ≠ .text s) : type.affinity ≠ .text := by
  cases type with
  | string | text => cases value <;> simp_all [admits]
  | _ => simp [affinity]

/-- What a column prefers does not change the cell of a value of its type. -/
theorem compared_comparand {type : ColumnType} {value : Datum} {cell : Cell}
    (h : type.comparand? value = some cell) : type.affinity.compared cell = cell := by
  obtain ⟨hadmits, hcell⟩ := comparand?_eq_some.mp h
  cases value with
  | int n =>
      obtain ⟨-, rfl⟩ : fitsWord n = true ∧ Cell.integer n = cell := by
        simpa [Cell.ofValue?] using hcell
      rw [compared_of_ne_text (affinity_ne_text hadmits (by simp))]
      rfl
  | real x =>
      cases hcell
      rw [compared_of_ne_text (affinity_ne_text hadmits (by simp)), Cell.numbered_ofDouble]
  | decimal s =>
      obtain ⟨x, -, rfl⟩ := Option.map_eq_some_iff.mp hcell
      rw [compared_of_ne_text (affinity_ne_text hadmits (by simp)), Cell.numbered_ofDouble]
  | text s =>
      have htext : type.affinity = .text := by cases type <;> simp_all [admits, affinity]
      cases hcell
      rw [htext]
      rfl
  | bool b =>
      cases hcell
      rw [compared_of_ne_text (affinity_ne_text hadmits (by simp))]
      rfl
  | dateTime t =>
      cases hcell
      rw [compared_of_ne_text (affinity_ne_text hadmits (by simp)), numbered_storedText]
  | _ => cases hcell

/-- A value of a type has its cell as an operand, except that a truth value is none. -/
theorem operand_comparand {type : ColumnType} {value : Datum} {cell : Cell}
    (h : type.comparand? value = some cell) (hbool : ∀ b, value ≠ .bool b) :
    type.operand value = .ok cell := by
  obtain ⟨-, hcell⟩ := comparand?_eq_some.mp h
  cases value with
  | int n =>
      obtain ⟨hfits, rfl⟩ : fitsWord n = true ∧ Cell.integer n = cell := by
        simpa [Cell.ofValue?] using hcell
      simp [operand, Cell.ofDatum, hfits]
  | real x =>
      cases hcell
      exact Cell.ofDatum_real x
  | decimal s =>
      obtain ⟨x, hx, rfl⟩ := Option.map_eq_some_iff.mp hcell
      have hdouble : double? (.decimal s) = some x := hx
      have hform : float.form (.decimal s) = .ok (.real x) := by
        rw [form, hdouble]
        simp
      show (do Cell.ofDatum (← float.form (.decimal s))) = _
      rw [hform]
      exact Cell.ofDatum_real x
  | text s =>
      cases hcell
      rfl
  | bool b => exact absurd rfl (hbool b)
  | dateTime t =>
      cases hcell
      rfl
  | _ => cases hcell

end ColumnType

/-- A cell compares so with a cell: neither is nothing, and their order is that of the
comparison. -/
def Comparison.between (how : Comparison) (own cell : Cell) : Bool :=
  !own.isNull && !cell.isNull && how.holds (own.compare cell)

/-- The condition of a value of a column's type tests the cells of the column against the cell of
the value. Truth values can only be compared for equality. -/
theorem compare_comparand (how : Comparison) {column : Column} {value : Datum} {cell : Cell}
    (h : column.type.comparand? value = some cell)
    (hbool : column.type = .boolean → how = .equal) :
    ∃ condition, Operator.compare how column value = .ok condition ∧
      condition.test = .ok fun row => how.between (cellAt row column.name) cell := by
  have htest (operand : Datum) (hoperand : column.type.operand operand = .ok cell) :
      (Condition.compared column how operand).test =
        .ok fun row => how.between (cellAt row column.name) cell := by
    simp only [Condition.test, hoperand, bind, Except.bind,
      ColumnType.compared_comparand h]
    rfl
  obtain ⟨hadmits, hcell⟩ := ColumnType.comparand?_eq_some.mp h
  cases value with
  | bool b =>
      have hboolean : column.type = .boolean := by
        cases ht : column.type <;> simp_all [ColumnType.admits]
      cases hbool hboolean
      refine ⟨_, rfl, htest _ ?_⟩
      cases hcell
      cases b <;> rfl
  | null => cases hcell
  | list items => cases hcell
  | record entries => cases hcell
  | _ =>
      refine ⟨_, by cases how <;> rfl, htest _ (ColumnType.operand_comparand h ?_)⟩
      simp

end Table

end RecordApi
