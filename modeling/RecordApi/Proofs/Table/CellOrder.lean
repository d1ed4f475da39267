import Mathlib.Data.List.Pairwise
import RecordApi.Table.Condition

/-!
# The order of cells and rows

The order of cells is a linear preorder: cells are told apart by their kind first, then numbers by
their size and texts by their code points. Orders of rows by columns are linear preorders as well,
so that rows sorted by columns are in order whatever the columns are.
-/

namespace RecordApi.Table

open Number Std

namespace Cell

/-- The place of a cell's kind among the kinds; what is no number comes before all numbers, and the
infinities stand on either side of the finite ones. -/
def rank : Cell → Nat
  | null => 0
  | real .nan => 1
  | real (.infinite true) => 2
  | integer _ | real (.finite _ _) => 3
  | real (.infinite false) => 4
  | text _ => 5

/-- The size of a finite number. -/
def units : Cell → Int
  | integer n => n * Double.unitsPerOne
  | real (.finite negative units) => Double.signedUnits negative units
  | _ => 0

/-- The letters of a text. -/
def letters : Cell → String
  | text s => s
  | _ => ""

theorem isNull_eq_false {cell : Cell} : cell.isNull = false ↔ cell ≠ null := by
  cases cell <;> simp [isNull]

theorem place?_integer (n : Int) : (integer n).place? = some (.at (integer n).units) := rfl

theorem units_finite (negative : Bool) (size : Nat) :
    (real (.finite negative size)).units = Double.signedUnits negative size := rfl

theorem units_null : null.units = 0 := rfl

theorem units_nan : (real .nan).units = 0 := rfl

theorem units_infinite (negative : Bool) : (real (.infinite negative)).units = 0 := rfl

theorem units_text (s : String) : (text s).units = 0 := rfl

theorem compare_eq_lex :
    Cell.compare =
      compareLex (compareOn rank) (compareLex (compareOn units) (compareOn letters)) := by
  funext a b
  have hrank (m n : Nat) (o : Ordering) : (Ord.compare m n).then o =
      if m < n then .lt else if m = n then o else .gt := by
    rw [Nat.compare_eq_ite_lt]
    split
    · rfl
    · split
      · next h => rw [if_neg (by omega)]; rfl
      · rw [if_pos (by omega)]; rfl
  simp only [compareLex, compareOn, hrank]
  rcases a with _ | m | (_ | ⟨_ | _⟩ | ⟨s, u⟩) | s <;>
    rcases b with _ | n | (_ | ⟨_ | _⟩ | ⟨t, v⟩) | t <;>
      simp [Cell.compare, rank, letters, place?_integer, place?.eq_2, Double.place?,
        Double.Place.compare, units_finite, units_null, units_nan, units_infinite, units_text]

instance : TransCmp Cell.compare := by
  rw [compare_eq_lex]
  infer_instance

end Cell

namespace SortKey

theorem compare_of_descending {key : SortKey} (h : key.descending = true) (a b : Row) :
    key.compare a b = (cellAt b key.column.name).compare (cellAt a key.column.name) := by
  have hswap : (cellAt b key.column.name).compare (cellAt a key.column.name) =
      ((cellAt a key.column.name).compare (cellAt b key.column.name)).swap := OrientedCmp.eq_swap
  rw [hswap]
  simp [SortKey.compare, h]

theorem compare_of_ascending {key : SortKey} (h : key.descending = false) (a b : Row) :
    key.compare a b = (cellAt a key.column.name).compare (cellAt b key.column.name) := by
  simp [SortKey.compare, h]

instance (key : SortKey) : TransCmp key.compare where
  eq_swap {a b} := by
    cases h : key.descending with
    | false =>
        rw [compare_of_ascending h, compare_of_ascending h]
        exact OrientedCmp.eq_swap
    | true =>
        rw [compare_of_descending h, compare_of_descending h]
        exact OrientedCmp.eq_swap
  isLE_trans {a b c} hab hbc := by
    cases h : key.descending with
    | false =>
        rw [compare_of_ascending h] at hab hbc ⊢
        exact TransCmp.isLE_trans hab hbc
    | true =>
        rw [compare_of_descending h] at hab hbc ⊢
        exact TransCmp.isLE_trans hbc hab

/-- By no columns all rows are alike. -/
instance (keys : List SortKey) : TransCmp (compareBy keys) := by
  induction keys with
  | nil => exact { eq_swap := rfl, isLE_trans := fun _ _ => rfl }
  | cons key keys ih =>
      have hlex : compareBy (key :: keys) = compareLex key.compare (compareBy keys) := rfl
      rw [hlex]
      infer_instance

/-- Columns behind the others only tell rows apart that the others do not. -/
theorem compareBy_append (front behind : List SortKey) (a b : Row) :
    compareBy (front ++ behind) a b = (compareBy front a b).then (compareBy behind a b) := by
  induction front with
  | nil => rfl
  | cons key keys ih =>
      rw [List.cons_append, compareBy_cons, compareBy_cons, ih, Ordering.then_assoc]

/-- Rows in the order of some columns. -/
def Sorted (keys : List SortKey) (rows : List Row) : Prop :=
  rows.Pairwise fun a b => (compareBy keys a b).isLE

theorem sorted_mergeSort (keys : List SortKey) (rows : List Row) :
    Sorted keys (rows.mergeSort fun a b => (compareBy keys a b).isLE) := by
  apply List.pairwise_mergeSort
  · intro a b c
    exact TransCmp.isLE_trans
  · intro a b
    have hswap : compareBy keys b a = (compareBy keys a b).swap := OrientedCmp.eq_swap
    rw [hswap]
    cases compareBy keys a b <;> rfl

/-- Where the columns tell any two rows apart, there is only one way to sort them. -/
theorem Sorted.unique {keys : List SortKey} {first second : List Row} (hfirst : Sorted keys first)
    (hsecond : Sorted keys second) (hperm : first.Perm second)
    (hapart : first.Pairwise fun a b => compareBy keys a b ≠ .eq) : first = second := by
  have : Std.Symm fun a b => compareBy keys a b ≠ .eq :=
    ⟨fun a b hab hba => hab (OrientedCmp.eq_symm hba)⟩
  refine List.Perm.eq_of_pairwise (fun a b ha hb hab hba => ?_) hfirst hsecond hperm
  by_contra hne
  exact hapart.forall ha (hperm.mem_iff.mpr hb) hne (OrientedCmp.isLE_antisymm hab hba)

end SortKey

end RecordApi.Table
