import RecordApi.Proofs.Table.Rows

/-!
# Ledgers

A ledger holds contents under identifiers. Identifiers are cells, and cells that their order does
not tell apart are the same identifier. The rows of a table with different keys are a ledger, and
adding, changing and removing rows by their key is putting, changing and removing contents in it.
-/

namespace RecordApi.Table

open Std

/-- Contents under identifiers. -/
abbrev Ledger := Cell → Option Content

namespace Ledger

/-- The ledger with a content under an identifier. -/
def put (ledger : Ledger) (id : Cell) (content : Content) : Ledger := fun other =>
  if other.compare id = .eq then some content else ledger other

/-- The ledger with the content under an identifier changed, if there is one. -/
def change (ledger : Ledger) (id : Cell) (f : Content → Content) : Ledger := fun other =>
  if other.compare id = .eq then (ledger other).map f else ledger other

/-- The ledger with nothing under an identifier. -/
def remove (ledger : Ledger) (id : Cell) : Ledger := fun other =>
  if other.compare id = .eq then none else ledger other

theorem change_id (ledger : Ledger) (id : Cell) :
    ledger.change id (fun content => content) = ledger := by
  funext other
  rw [change]
  split
  · exact Option.map_id_apply
  · rfl

end Ledger

namespace Model

variable {model : Model} {rows : List Row} {id : Cell}

/-- Whether a row has an identifier. -/
def hasKey (model : Model) (id : Cell) (row : Row) : Bool :=
  (model.keyOf row).compare id == .eq

/-- The ledger of rows. -/
def view (model : Model) (rows : List Row) : Ledger := fun id =>
  (rows.find? (model.hasKey id)).map model.content

/-- No two rows have the same key. -/
def DistinctKeys (model : Model) (rows : List Row) : Prop :=
  rows.Pairwise fun a b => (model.keyOf b).compare (model.keyOf a) ≠ .eq

theorem hasKey_iff {row : Row} :
    model.hasKey id row = true ↔ (model.keyOf row).compare id = .eq := by
  simp [hasKey]

/-- The same identifier is in the same rows. -/
theorem hasKey_congr {other : Cell} (h : other.compare id = .eq) :
    model.hasKey other = model.hasKey id := by
  funext row
  rw [hasKey, hasKey, TransCmp.congr_right h]

theorem view_eq_none : model.view rows id = none ↔ ∀ row ∈ rows, model.hasKey id row = false := by
  simp [view, List.find?_eq_none]

/-- A row with a key is the one that is found by it. -/
theorem find?_hasKey (hrows : model.DistinctKeys rows) {row : Row} (hrow : row ∈ rows)
    (hkey : model.hasKey id row = true) : rows.find? (model.hasKey id) = some row := by
  cases hfound : rows.find? (model.hasKey id) with
  | none => exact absurd hkey (List.find?_eq_none.mp hfound row hrow)
  | some other =>
      have : Std.Symm fun a b => (model.keyOf b).compare (model.keyOf a) ≠ .eq :=
        ⟨fun a b hab hba => hab (OrientedCmp.eq_symm hba)⟩
      have hsame : other = row := by
        by_contra hne
        refine hrows.forall (List.mem_of_find?_eq_some hfound) hrow hne ?_
        exact TransCmp.eq_trans (hasKey_iff.mp hkey)
          (OrientedCmp.eq_symm (hasKey_iff.mp (List.find?_some hfound)))
      rw [hsame]

theorem DistinctKeys.perm {more : List Row} (h : model.DistinctKeys rows) (hperm : rows.Perm more) :
    model.DistinctKeys more :=
  List.Pairwise.perm h hperm fun hab hba => hab (OrientedCmp.eq_symm hba)

/-- A ledger holds the contents of its rows under their keys. -/
theorem view_eq_some (hrows : model.DistinctKeys rows) {content : Content} :
    model.view rows id = some content ↔
      ∃ row ∈ rows, model.hasKey id row = true ∧ model.content row = content := by
  constructor
  · intro h
    obtain ⟨row, hrow, hcontent⟩ := Option.map_eq_some_iff.mp h
    exact ⟨row, List.mem_of_find?_eq_some hrow, List.find?_some hrow, hcontent⟩
  · rintro ⟨row, hrow, hkey, rfl⟩
    rw [view, find?_hasKey hrows hrow hkey]
    rfl

theorem any_hasKey (model : Model) (rows : List Row) (id : Cell) :
    rows.any (model.hasKey id) = (model.view rows id).isSome := by
  rw [view, Option.isSome_map, List.isSome_find?]

/-- The order of rows does not matter. -/
theorem view_perm {more : List Row} (hrows : model.DistinctKeys rows)
    (hmore : model.DistinctKeys more) (hperm : rows.Perm more) :
    model.view rows = model.view more := by
  funext id
  apply Option.ext
  intro content
  rw [view_eq_some hrows, view_eq_some hmore]
  simp only [hperm.mem_iff]

/-- A row that is added is put into the ledger. -/
theorem view_append {row : Row} (hkey : (model.keyOf row).compare id = .eq)
    (hunused : model.view rows id = none) :
    model.view (rows ++ [row]) = (model.view rows).put id (model.content row) := by
  funext other
  rw [view, List.find?_append, Ledger.put]
  split
  · next h =>
    have hnone : rows.find? (model.hasKey other) = none := by
      rw [hasKey_congr h]
      exact Option.map_eq_none_iff.mp hunused
    have hrow : model.hasKey other row = true := by
      rw [hasKey_congr h]
      exact hasKey_iff.mpr hkey
    rw [hnone, Option.none_or, List.find?_singleton, if_pos hrow]
    rfl
  · next h =>
    have hrow : ¬ model.hasKey other row = true := by
      rw [hasKey_iff]
      intro hother
      exact h (TransCmp.eq_trans (OrientedCmp.eq_symm hother) hkey)
    rw [List.find?_singleton, if_neg hrow, Option.or_none]
    rfl

/-- Changing the rows of a key, each with the key kept, changes the content in the ledger. -/
theorem view_map {f : Row → Row} {g : Content → Content}
    (hkeys : ∀ row, model.keyOf (f row) = model.keyOf row)
    (hcontents : ∀ row, model.content (f row) = g (model.content row)) :
    model.view (rows.map fun row => if model.hasKey id row then f row else row) =
      (model.view rows).change id g := by
  funext other
  have hsame : (fun row => model.hasKey other (if model.hasKey id row then f row else row)) =
      model.hasKey other := by
    funext row
    split
    · simp only [hasKey, hkeys]
    · rfl
  rw [view, List.find?_map, Function.comp_def, hsame, Ledger.change, view]
  cases hfound : rows.find? (model.hasKey other) with
  | none => simp
  | some row =>
      have hrow := hasKey_iff.mp (List.find?_some hfound)
      by_cases h : other.compare id = .eq
      · have hid : model.hasKey id row = true := hasKey_iff.mpr (TransCmp.eq_trans hrow h)
        simp [h, hid, hcontents]
      · have hid : model.hasKey id row = false := by
          rw [Bool.eq_false_iff, Ne, hasKey_iff]
          intro hid
          exact h (TransCmp.eq_trans (OrientedCmp.eq_symm hrow) hid)
        simp [h, hid]

/-- Removing the rows of a key removes the content from the ledger. -/
theorem view_filter : model.view (rows.filter fun row => !model.hasKey id row) =
    (model.view rows).remove id := by
  funext other
  rw [view, List.find?_filter, Ledger.remove]
  split
  · next h =>
    rw [Option.map_eq_none_iff, List.find?_eq_none]
    intro row _
    rw [hasKey_congr h]
    simp
  · next h =>
    have hsame : (fun row => !model.hasKey id row && model.hasKey other row) =
        model.hasKey other := by
      funext row
      cases hrow : model.hasKey other row with
      | false => simp
      | true =>
          have hid : model.hasKey id row = false := by
            rw [Bool.eq_false_iff, Ne, hasKey_iff]
            intro hid
            exact h (TransCmp.eq_trans (OrientedCmp.eq_symm (hasKey_iff.mp hrow)) hid)
          simp [hid]
    rw [view]
    simpa using congrArg (fun p => (rows.find? p).map model.content) hsame

end Model

end RecordApi.Table
