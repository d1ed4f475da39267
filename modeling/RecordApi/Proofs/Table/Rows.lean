import Mathlib.Data.List.Nodup
import Mathlib.Logic.Function.Basic
import RecordApi.Proofs.Outcomes
import RecordApi.Proofs.Table.KeptValues
import RecordApi.Table.Model

/-!
# The contents of rows

What a row holds under the names of the columns is its content, and the record of a row tells no
more than that. Writing data into a row changes its content under the columns that the data names,
and nothing else.
-/

namespace RecordApi.Table

open Std

/-- What is held under the names of columns. -/
abbrev Content := String → Datum

namespace Model

variable (model : Model)

/-- A model whose columns have different names, and whose key is one of them. -/
structure WellFormed : Prop where
  names : (model.columns.map (·.name)).Nodup
  key : model.key ∈ model.columns

/-- The content of a row. -/
def content (row : Row) : Content := fun name =>
  match model.column? name with
  | some column => column.type.value (cellAt row name)
  | none => .null

/-- The record of a content. -/
def recordOf (content : Content) : Datum.Entries :=
  model.columns.foldl (fun done column =>
    Entries.set (Naming.snakeToCamel column.name false) (content column.name)
      (Entries.set column.name (content column.name) done)) []

variable {model}

theorem mem_of_column? {name : String} {column : Column} (h : model.column? name = some column) :
    column ∈ model.columns ∧ column.name = name :=
  ⟨List.mem_of_find?_eq_some h, by simpa using List.find?_some h⟩

theorem WellFormed.column? (hmodel : model.WellFormed) {column : Column}
    (h : column ∈ model.columns) : model.column? column.name = some column := by
  cases hfound : model.column? column.name with
  | none =>
      have hnone := List.find?_eq_none.mp hfound column h
      simp at hnone
  | some other =>
      obtain ⟨hother, hname⟩ := mem_of_column? hfound
      rw [List.inj_on_of_nodup_map hmodel.names hother h hname]

/-- The record of a row is that of its content. -/
theorem record_eq (hmodel : model.WellFormed) (row : Row) :
    model.record row = model.recordOf (model.content row) := by
  have hvalue : ∀ column ∈ model.columns,
      model.content row column.name = column.type.value (cellAt row column.name) := by
    intro column hcolumn
    simp [content, hmodel.column? hcolumn]
  have hfold (columns : List Column) (hmem : ∀ column ∈ columns, column ∈ model.columns)
      (done : Datum.Entries) :
      columns.foldl (fun done column =>
        let value := column.type.value (cellAt row column.name)
        Entries.set (Naming.snakeToCamel column.name false) value
          (Entries.set column.name value done)) done =
      columns.foldl (fun done column =>
        Entries.set (Naming.snakeToCamel column.name false) (model.content row column.name)
          (Entries.set column.name (model.content row column.name) done)) done := by
    induction columns generalizing done with
    | nil => rfl
    | cons column columns ih =>
        simp only [List.foldl_cons, hvalue column (hmem column List.mem_cons_self)]
        exact ih (fun other h => hmem other (List.mem_cons_of_mem _ h)) _
  exact hfold model.columns (fun _ h => h) []

end Model

/-! ## Cells under names -/

section Lookup

variable {α β : Type}

theorem lookup_filter_names (keep : String → Bool) (entries : Association α) (name : String)
    (h : keep name = true) :
    List.lookup name (entries.filter fun entry => keep entry.1) = List.lookup name entries := by
  induction entries with
  | nil => rfl
  | cons entry entries ih =>
      rw [List.filter_cons, Association.lookup_cons]
      by_cases hname : name = entry.1
      · rw [← hname, if_pos h, if_pos rfl, Association.lookup_cons, if_pos hname]
      · rw [if_neg hname]
        split
        · rw [Association.lookup_cons, if_neg hname, ih]
        · exact ih

theorem lookup_map_values (f : String → α → β) (entries : Association α) (name : String) :
    List.lookup name (entries.map fun entry => (entry.1, f entry.1 entry.2)) =
      (List.lookup name entries).map (f name) := by
  induction entries with
  | nil => rfl
  | cons entry entries ih =>
      rw [List.map_cons, Association.lookup_cons, Association.lookup_cons]
      by_cases hname : name = entry.1
      · rw [if_pos hname, if_pos hname, hname]
        rfl
      · rw [if_neg hname, if_neg hname, ih]

end Lookup

/-- A row with cells in the place of others holds these cells, and otherwise what it held. -/
theorem cellAt_overlaid (changes row : Row) (name : String) :
    cellAt (overlaid changes row) name = (changes.lookup name).getD (cellAt row name) := by
  rw [cellAt, overlaid, List.lookup_append]
  cases h : changes.lookup name with
  | some cell => rfl
  | none =>
      have hrest := lookup_filter_names (fun other => (changes.lookup other).isNone) row
        name (by simp [h])
      rw [Option.none_or, hrest]
      rfl

theorem cellAt_nil (name : String) : cellAt [] name = .null := rfl

/-! ## Data -/

namespace Model

variable (model : Model)

/-- Data that names columns other than the key, with values that the columns can be given. -/
def Names (data : Datum.Entries) : Prop :=
  ∀ entry ∈ data, ∃ column, model.columnOf entry.1 = .ok column ∧
    column.name ≠ model.key.name ∧ column.type.Takes entry.2

/-- A content changed under the columns that the data names, one after the other. -/
def revised (data : Datum.Entries) (content : Content) : Content :=
  data.foldl (fun content entry =>
    match model.columnOf entry.1 with
    | .ok column => Function.update content column.name (column.type.kept entry.2)
    | .error _ => content) content

/-- Values under the names of columns that can be given them. -/
def Fits (values : Datum.Entries) : Prop :=
  ∀ entry ∈ values, ∃ column, model.column? entry.1 = some column ∧ column.type.Takes entry.2

/-- What a column of the name gives back for a value. -/
def keptUnder (name : String) (value : Datum) : Datum :=
  match model.column? name with
  | some column => column.type.kept value
  | none => .null

/-- What a column of the name stores for a value. -/
def storedUnder (name : String) (value : Datum) : Cell :=
  match model.column? name with
  | some column => column.type.affinity.stored (Cell.ofValue value)
  | none => .null

/-- A content changed under the names of values. -/
def written (values : Datum.Entries) (content : Content) : Content := fun name =>
  match List.lookup name values with
  | some value => model.keptUnder name value
  | none => content name

/-- The row of values. -/
def storedRow (values : Datum.Entries) : Row :=
  values.map fun entry => (entry.1, model.storedUnder entry.1 entry.2)

variable {model}

theorem column?_of_columnOf {field : String} {column : Column}
    (h : model.columnOf field = .ok column) : model.column? column.name = some column := by
  have hfound : ∀ {name : String}, model.column? name = some column →
      model.column? column.name = some column := by
    intro name hname
    rw [(mem_of_column? hname).2]
    exact hname
  simp only [columnOf] at h
  split at h
  · next other hother =>
    cases h
    exact hfound hother
  · split at h
    · next other hother =>
      cases h
      exact hfound hother
    · cases h

theorem written_set {name : String} {value : Datum} {column : Column} (values : Datum.Entries)
    (hcolumn : model.column? name = some column) (content : Content) :
    model.written (Entries.set name value values) content =
      Function.update (model.written values content) name (column.type.kept value) := by
  funext other
  by_cases h : other = name
  · rw [h, Function.update_self]
    simp [written, Entries.set, keptUnder, hcolumn]
  · rw [Function.update_of_ne h]
    simp [written, Entries.set, Association.lookup_put_of_ne h]

theorem fits_set {name : String} {value : Datum} {column : Column} {values : Datum.Entries}
    (hvalues : model.Fits values) (hcolumn : model.column? name = some column)
    (hvalue : column.type.Takes value) : model.Fits (Entries.set name value values) := by
  intro entry hentry
  rcases Association.mem_of_mem_put hentry with rfl | hentry
  · exact ⟨column, hcolumn, hvalue⟩
  · exact hvalues entry hentry

/-- Writing one entry after the other under the names of the columns that they name. -/
theorem foldlM_values {data done : Datum.Entries} (hdata : model.Names data)
    (hdone : model.Fits done) (hkey : ∀ entry ∈ done, entry.1 ≠ model.key.name) :
    ∃ values, data.foldlM (fun done (field, value) => do
        let column ← model.columnOf field
        return Entries.set column.name value done) done = .ok values ∧
      model.Fits values ∧ (∀ entry ∈ values, entry.1 ≠ model.key.name) ∧
      (∀ content, model.written values content =
        model.revised data (model.written done content)) ∧
      (values = [] ↔ data = [] ∧ done = []) := by
  induction data generalizing done with
  | nil => exact ⟨done, rfl, hdone, hkey, fun _ => rfl, by simp⟩
  | cons entry data ih =>
      obtain ⟨field, value⟩ := entry
      obtain ⟨column, hcolumn, hname, hvalue⟩ := hdata _ List.mem_cons_self
      have hfound := column?_of_columnOf hcolumn
      have hkey' : ∀ entry ∈ Entries.set column.name value done, entry.1 ≠ model.key.name := by
        intro entry hentry
        rcases Association.mem_of_mem_put hentry with rfl | hentry
        · exact hname
        · exact hkey entry hentry
      obtain ⟨values, hfold, hfits, hvaluesKey, hwritten, hempty⟩ :=
        ih (fun entry h => hdata entry (List.mem_cons_of_mem _ h))
          (fits_set hdone hfound hvalue) hkey'
      refine ⟨values, ?_, hfits, hvaluesKey, fun content => ?_, ?_⟩
      · simpa [List.foldlM_cons, hcolumn, bind, Except.bind, pure, Except.pure] using hfold
      · rw [hwritten, written_set done hfound]
        simp only [revised, List.foldl_cons, hcolumn]
      · have hne : Entries.set column.name value done ≠ [] := by
          cases done with
          | nil => simp [Entries.set, Association.put]
          | cons first done =>
              simp only [Entries.set, Association.put]
              split <;> simp
        simp [hempty, hne]

/-- The values of data, each under the name of its column. -/
theorem values_of_names {data : Datum.Entries} (hdata : model.Names data) :
    ∃ values, model.values data = .ok values ∧ model.Fits values ∧
      (∀ entry ∈ values, entry.1 ≠ model.key.name) ∧
      (∀ content, model.written values content = model.revised data content) ∧
      (values = [] ↔ data = []) := by
  obtain ⟨values, hfold, hfits, hkey, hwritten, hempty⟩ :=
    foldlM_values hdata (show model.Fits [] by simp [Fits]) (by simp)
  exact ⟨values, hfold, hfits, hkey, hwritten, by simpa using hempty⟩

/-- The cells of values that fit are what the columns store for them. -/
theorem cells_of_fits {values : Datum.Entries} (hvalues : model.Fits values) :
    model.cells values = .ok (model.storedRow values) := by
  rw [cells]
  refine mapM_mapM_eq_ok fun entry hentry => ?_
  obtain ⟨column, hcolumn, hvalue⟩ := hvalues entry hentry
  obtain ⟨form, hform, hcell⟩ := ColumnType.form_of_takes hvalue
  have hname := (mem_of_column? hcolumn).2
  refine ⟨(column, form), ?_, ?_⟩
  · simp only [hcolumn, hform]
    rfl
  · simp only [hcell, hname, storedUnder, hcolumn]
    rfl

/-- The cells of values are what their columns store for them. -/
theorem lookup_cells {values : Datum.Entries} {row : Row} (h : model.cells values = .ok row)
    {name : String} {value : Datum} (hvalue : List.lookup name values = some value) :
    ∃ column form cell, model.column? name = some column ∧ column.type.form value = .ok form ∧
      Cell.ofDatum form = .ok cell ∧
      List.lookup name row = some (column.type.affinity.stored cell) := by
  rw [cells, bind_eq_ok] at h
  obtain ⟨forms, hforms, hcells⟩ := h
  rw [mapM_eq_ok] at hforms hcells
  induction values generalizing forms row with
  | nil => cases hvalue
  | cons entry values ih =>
      obtain ⟨own, given⟩ := entry
      -- the entry, its form and its cell stand at the heads of the three lists
      obtain ⟨⟨column, form⟩, moreForms, rfl, hform, hmoreForms⟩ :=
        List.map_eq_cons_iff.mp hforms.symm
      obtain ⟨⟨stored, cell⟩, moreCells, rfl, hcell, hmoreCells⟩ :=
        List.map_eq_cons_iff.mp hcells.symm
      obtain ⟨hcolumn, hform⟩ :
          model.column? own = some column ∧ column.type.form given = .ok form := by
        cases hfound : model.column? own with
        | none => simp [hfound, throw, throwThe, MonadExceptOf.throw] at hform
        | some other =>
            simp only [hfound] at hform
            obtain ⟨found, hfound, hpair⟩ := bind_eq_ok.mp hform.symm
            cases hpair
            exact ⟨rfl, hfound⟩
      obtain ⟨kept, hkept, hpair⟩ := bind_eq_ok.mp hcell.symm
      cases hpair
      rw [(mem_of_column? hcolumn).2, Association.lookup_cons]
      rw [Association.lookup_cons] at hvalue
      by_cases hname : name = own
      · rw [if_pos hname] at hvalue ⊢
        cases hvalue
        exact ⟨column, form, kept, hname ▸ hcolumn, hform, hkept, rfl⟩
      · rw [if_neg hname] at hvalue ⊢
        exact ih hvalue moreForms hmoreForms.symm hmoreCells.symm

/-- A row that values are written into. -/
theorem content_overlaid {values : Datum.Entries} (hvalues : model.Fits values) (row : Row) :
    model.content (overlaid (model.storedRow values) row) =
      model.written values (model.content row) := by
  funext name
  have hlookup : List.lookup name (model.storedRow values) =
      (List.lookup name values).map (model.storedUnder name) :=
    lookup_map_values model.storedUnder values name
  simp only [content, written, keptUnder, cellAt_overlaid, hlookup]
  cases hname : List.lookup name values with
  | none => rfl
  | some value =>
      obtain ⟨column, hcolumn, hvalue⟩ := hvalues _ (Association.mem_of_lookup hname)
      simp only at hcolumn
      simp only [hcolumn, Option.map_some, Option.getD_some, storedUnder]
      exact ColumnType.value_stored hvalue

/-- A new row of values. -/
theorem content_storedRow {values : Datum.Entries} (hvalues : model.Fits values) :
    model.content (model.storedRow values) = model.written values fun _ => .null := by
  have hnil : model.content [] = fun _ => Datum.null := by
    funext name
    simp only [content, cellAt_nil]
    cases model.column? name with
    | none => rfl
    | some column => exact ColumnType.value_eq_null.mpr rfl
  have hrow := content_overlaid hvalues []
  rwa [hnil, overlaid, List.filter_nil, List.append_nil] at hrow

/-! ## Rows that are accepted -/

/-- A row has what is required of it: a key, which is a number where rows are numbered, and a value
in every column that must have one. -/
theorem complete_iff (hmodel : model.WellFormed) (row : Row) :
    model.complete row = true ↔
      (model.keyOf row ≠ .null ∧
        (model.numbersRows = true → ∃ n, model.keyOf row = .integer n)) ∧
      ∀ column ∈ model.columns, column.required = true →
        model.content row column.name ≠ .null := by
  have hcontent : ∀ column ∈ model.columns,
      (model.content row column.name = .null ↔ cellAt row column.name = .null) := by
    intro column hcolumn
    simp only [content, hmodel.column? hcolumn]
    exact ColumnType.value_eq_null
  rw [complete, Bool.and_eq_true]
  refine and_congr ?_ ?_
  · cases model.keyOf row <;> simp
  · rw [List.all_eq_true]
    refine forall₂_congr fun column hcolumn => ?_
    cases column.required <;> simp [Cell.isNull_eq_false, hcontent column hcolumn]

theorem accepts_iff (rows : List Row) :
    model.accepts rows = true ↔
      (∀ row ∈ rows, model.complete row = true) ∧
      rows.Pairwise fun a b => (model.keyOf b).compare (model.keyOf a) ≠ .eq := by
  induction rows with
  | nil => simp [accepts]
  | cons row rows ih =>
      simp only [accepts, Bool.and_eq_true, ih, List.all_eq_true, bne_iff_ne, List.forall_mem_cons,
        List.pairwise_cons]
      constructor
      · rintro ⟨⟨hrow, hapart⟩, hrows, hpairwise⟩
        exact ⟨⟨hrow, hrows⟩, hapart, hpairwise⟩
      · rintro ⟨⟨hrow, hrows⟩, hapart, hpairwise⟩
        exact ⟨⟨hrow, hapart⟩, hrows, hpairwise⟩

theorem accepted_eq_ok {rows left : List Row} :
    model.accepted rows = .ok left ↔ model.accepts rows = true ∧ left = rows := by
  rw [accepted]
  cases model.accepts rows <;> simp [eq_comm]

theorem accepted_of_accepts {rows : List Row} (h : model.accepts rows = true) :
    model.accepted rows = .ok rows := by
  simp [accepted, h]

end Model

end RecordApi.Table
