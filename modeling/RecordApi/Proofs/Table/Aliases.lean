import RecordApi.Proofs.NameSpellings
import RecordApi.Proofs.Table.Rows

/-!
# The names of a record

A record shows the value of a column under two names, that of the column and its camel case form,
the alias. A name that several columns write shows the value of the last one. Data is read by the
same names: a name leads to the column called so, and else to the column whose name is its snake
case form. So a record is understood where each name that it shows leads to the column whose value
stands there, and the names can be trusted where the alias of every column leads to that column.
-/

namespace RecordApi.Table

open Naming

/-- The other name of a column in records. -/
def Column.camelName (column : Column) : String :=
  snakeToCamel column.name false

/-- Whether a column writes its value under a name. -/
def Column.writes (column : Column) (name : String) : Bool :=
  name == column.name || name == column.camelName

namespace Model

variable (model : Model)

/-- The column whose value records show under a name: the last one that writes there. -/
def shown? (name : String) : Option Column :=
  (model.columns.filter (·.writes name)).getLast?

/-- Every name in a record leads to a column whose value stands there. -/
def ResolvesRecords : Prop :=
  ∀ row, ∀ entry ∈ model.record row, ∃ column, model.columnOf entry.1 = .ok column ∧
    entry.2 = column.type.value (cellAt row column.name)

/-- The alias of every column leads to that column. -/
def ResolvesAliases : Prop :=
  ∀ column ∈ model.columns, model.columnOf column.camelName = .ok column

/-- Every record shows the value of each column under the column's own name. -/
def HidesNothing : Prop :=
  ∀ row, ∀ column ∈ model.columns,
    (column.name, column.type.value (cellAt row column.name)) ∈ model.record row

variable {model}

/-! ## What records show -/

/-- A record with the value of a column written under both its names. -/
def recorded (row : Row) (done : Datum.Entries) (column : Column) : Datum.Entries :=
  let value := column.type.value (cellAt row column.name)
  Entries.set column.camelName value (Entries.set column.name value done)

theorem record_eq_foldl (row : Row) : model.record row = model.columns.foldl (recorded row) [] :=
  rfl

theorem lookup_recorded (row : Row) (done : Datum.Entries) (column : Column) (name : String) :
    List.lookup name (recorded row done column) =
      if column.writes name then some (column.type.value (cellAt row column.name))
      else List.lookup name done := by
  simp only [recorded, Entries.set, Association.lookup_put, Column.writes, Bool.or_eq_true,
    beq_iff_eq]
  by_cases hname : name = column.name
  · simp [hname]
  · simp [hname]

/-- Of several columns that write a name the last one counts. -/
theorem lookup_foldl_recorded (columns : List Column) (row : Row) (done : Datum.Entries)
    (name : String) :
    List.lookup name (columns.foldl (recorded row) done) =
      ((columns.filter (·.writes name)).getLast?.map fun column =>
        column.type.value (cellAt row column.name)).or (List.lookup name done) := by
  induction columns generalizing done with
  | nil => rfl
  | cons column columns ih =>
      rw [List.foldl_cons, ih, lookup_recorded, List.filter_cons]
      split
      · rw [List.getLast?_cons]
        cases (columns.filter (·.writes name)).getLast? with
        | none => rfl
        | some last => rfl
      · rfl

theorem nodup_keys_foldl_recorded (columns : List Column) (row : Row) {done : Datum.Entries}
    (h : (done.map Prod.fst).Nodup) :
    ((columns.foldl (recorded row) done).map Prod.fst).Nodup := by
  induction columns generalizing done with
  | nil => exact h
  | cons column columns ih =>
      exact ih (Association.nodup_keys_put (Association.nodup_keys_put h _ _) _ _)

/-- A record shows under each name the value of the last column that writes there. -/
theorem mem_record_iff {row : Row} {name : String} {value : Datum} :
    (name, value) ∈ model.record row ↔
      ∃ column, model.shown? name = some column ∧
        value = column.type.value (cellAt row column.name) := by
  have hlookup : List.lookup name (model.record row) = (model.shown? name).map fun column =>
      column.type.value (cellAt row column.name) := by
    rw [record_eq_foldl, lookup_foldl_recorded]
    exact Option.or_none
  have hkeys : ((model.record row).map Prod.fst).Nodup :=
    nodup_keys_foldl_recorded model.columns row List.nodup_nil
  rw [← Association.lookup_eq_some_iff hkeys, hlookup, Option.map_eq_some_iff]
  simp only [eq_comm]

theorem writes_of_shown? {name : String} {column : Column} (h : model.shown? name = some column) :
    column ∈ model.columns ∧ (name = column.name ∨ name = column.camelName) := by
  have hmem := List.mem_of_getLast? h
  simpa [Column.writes] using List.mem_filter.mp hmem

/-- Under a name that a column writes some column is shown. -/
theorem shown?_of_writes {name : String} {column : Column} (hcolumn : column ∈ model.columns)
    (hname : name = column.name ∨ name = column.camelName) :
    ∃ last, model.shown? name = some last := by
  have hmem : column ∈ model.columns.filter (·.writes name) :=
    List.mem_filter.mpr ⟨hcolumn, by simpa [Column.writes] using hname⟩
  cases hlast : model.shown? name with
  | some last => exact ⟨last, rfl⟩
  | none =>
      rw [List.getLast?_eq_none_iff.mp hlast] at hmem
      cases hmem

/-! ## Where names lead -/

theorem columnOf_eq_ok_iff (hmodel : model.WellFormed) {name : String} {column : Column}
    (hcolumn : column ∈ model.columns) :
    model.columnOf name = .ok column ↔
      name = column.name ∨ model.column? name = none ∧ camelToSnake name = column.name := by
  have hfound {key : String} : model.column? key = some column ↔ key = column.name := by
    constructor
    · exact fun h => (mem_of_column? h).2.symm
    · rintro rfl
      exact hmodel.column? hcolumn
  rw [columnOf, ← hfound, ← hfound]
  cases model.column? name with
  | some other => simp
  | none => cases model.column? (camelToSnake name) <;> simp

/-- The names of records lead to the columns whose values they show just if each leads to the last
column that writes it. -/
theorem resolvesRecords_iff (hmodel : model.WellFormed) :
    model.ResolvesRecords ↔
      ∀ name column, model.shown? name = some column → model.columnOf name = .ok column := by
  constructor
  · intro h name column hshown
    -- in a row that holds something in this one column the value tells which column is shown
    let row : Row := [(column.name, .integer 1)]
    have hcell : cellAt row column.name = .integer 1 := by simp [row, cellAt]
    obtain ⟨other, hother, hvalue⟩ := h row _ (mem_record_iff.mpr ⟨column, hshown, rfl⟩)
    have hname : other.name = column.name := by
      by_contra hne
      have hnothing : cellAt row other.name = .null := by
        rw [cellAt, Association.lookup_cons, if_neg hne]
        rfl
      rw [hcell, hnothing, ColumnType.value_eq_null.mpr rfl] at hvalue
      cases ColumnType.value_eq_null.mp hvalue
    have hsame : some other = some column := by
      rw [← column?_of_columnOf hother, hname, hmodel.column? (writes_of_shown? hshown).1]
    exact Option.some.inj hsame ▸ hother
  · rintro h row ⟨name, value⟩ hentry
    obtain ⟨column, hshown, hvalue⟩ := mem_record_iff.mp hentry
    exact ⟨column, h name column hshown, hvalue⟩

/-- Where the alias of every column leads to it, so does every name in a record, and no alias stands
in the place of another column's value. -/
theorem ResolvesAliases.resolvesRecords (hmodel : model.WellFormed) (h : model.ResolvesAliases) :
    model.ResolvesRecords ∧ model.HidesNothing := by
  have hleads {name : String} {column : Column} (hcolumn : column ∈ model.columns)
      (hname : name = column.name ∨ name = column.camelName) :
      model.columnOf name = .ok column := by
    rcases hname with rfl | rfl
    · exact (columnOf_eq_ok_iff hmodel hcolumn).mpr (.inl rfl)
    · exact h column hcolumn
  constructor
  · refine (resolvesRecords_iff hmodel).mpr fun name column hshown => ?_
    obtain ⟨hcolumn, hname⟩ := writes_of_shown? hshown
    exact hleads hcolumn hname
  · intro row column hcolumn
    obtain ⟨last, hlast⟩ := shown?_of_writes hcolumn (.inl rfl)
    obtain ⟨hmem, hname⟩ := writes_of_shown? hlast
    have hsame : (Except.ok last : Except Failure Column) = .ok column := by
      rw [← hleads hmem hname, hleads hcolumn (.inl rfl)]
    cases hsame
    exact mem_record_iff.mpr ⟨column, hlast, rfl⟩

/-- The alias of a column leads to it if it is the column's name, or if no column is called so and
the words of the name can be told apart in it. -/
theorem columnOf_camelName_iff (hmodel : model.WellFormed) {column : Column}
    (hcolumn : column ∈ model.columns) (hchars : ∀ c ∈ column.name.toList, isNameChar c) :
    model.columnOf column.camelName = .ok column ↔
      '_' ∉ column.name.toList ∨
        model.column? column.camelName = none ∧ Retraced column.name.toList := by
  rw [columnOf_eq_ok_iff hmodel hcolumn]
  by_cases hsnake : '_' ∈ column.name.toList
  · have hne : column.camelName ≠ column.name := snakeToCamel_ne hchars hsnake
    have hback : camelToSnake column.camelName = column.name ↔ Retraced column.name.toList :=
      camelToSnake_snakeToCamel_iff hchars hsnake
    simp [hsnake, hne, hback]
  · have hsame : column.camelName = column.name := snakeToCamel_eq_self hsnake
    simp [hsnake, hsame]

/-! ## Records and fields undo each other -/

/-- What the names of records show and where they lead, for every model.

* An entry of a record is the value of the last column that writes its name.
* All these names lead to a column with the value that stands there just if each leads to the very
  column that is shown.
* The aliases decide: if each leads to its own column, so do all names in records, and the value of
  every column stands under the column's own name.
* The alias of a column whose name is of letters, digits and underscores leads to it just if the
  name is without underscores, or if no column is called like the alias and the name is
  `Retraced`. -/
theorem record_names_resolve (hmodel : model.WellFormed) :
    (∀ row name value, (name, value) ∈ model.record row ↔
      ∃ column, model.shown? name = some column ∧
        value = column.type.value (cellAt row column.name)) ∧
    (model.ResolvesRecords ↔
      ∀ name column, model.shown? name = some column → model.columnOf name = .ok column) ∧
    (model.ResolvesRecords ∧ model.ResolvesAliases ∧ model.HidesNothing ↔
      model.ResolvesAliases) ∧
    ∀ column ∈ model.columns, (∀ c ∈ column.name.toList, isNameChar c) →
      (model.columnOf column.camelName = .ok column ↔
        '_' ∉ column.name.toList ∨
          model.column? column.camelName = none ∧ Retraced column.name.toList) := by
  refine ⟨fun row name value => mem_record_iff, resolvesRecords_iff hmodel, ?_, ?_⟩
  · constructor
    · exact fun h => h.2.1
    · intro h
      obtain ⟨hrecords, hhides⟩ := h.resolvesRecords hmodel
      exact ⟨hrecords, h, hhides⟩
  · exact fun column hcolumn hchars => columnOf_camelName_iff hmodel hcolumn hchars

/-- Gadgets, whose serial number has a name of two words. -/
theorem record_names_resolve_gadgets :
    let gadgets : Model := ⟨"Gadget", [⟨"id", .integer, false⟩, ⟨"label", .string, true⟩,
      ⟨"serial_number", .string, false⟩], ⟨"id", .integer, false⟩⟩
    gadgets.WellFormed ∧
      gadgets.ResolvesRecords ∧ gadgets.ResolvesAliases ∧ gadgets.HidesNothing := by
  intro gadgets
  have hmodel : gadgets.WellFormed := ⟨by decide, by decide⟩
  have hchars : ∀ column ∈ gadgets.columns, ∀ c ∈ column.name.toList, isNameChar c := by
    have hall : gadgets.columns.all fun column => column.name.toList.all isNameChar := by decide
    simpa only [List.all_eq_true] using hall
  obtain ⟨-, -, hwhole, hcolumn⟩ := record_names_resolve hmodel
  refine ⟨hmodel, hwhole.mpr fun column hmem => ?_⟩
  have hcases : column = ⟨"id", .integer, false⟩ ∨ column = ⟨"label", .string, true⟩ ∨
      column = ⟨"serial_number", .string, false⟩ := by
    simpa [gadgets] using hmem
  refine (hcolumn column hmem (hchars column hmem)).mpr ?_
  rcases hcases with rfl | rfl | rfl
  · exact .inl (by decide)
  · exact .inl (by decide)
  · refine .inr ⟨by decide +kernel, ?_⟩
    exact ⟨['s', 'e', 'r', 'i', 'a', 'l'], [['n', 'u', 'm', 'b', 'e', 'r']], by decide,
      by decide, by decide, by simp⟩

/-- A word that begins with a digit is not found again: the second line of an address is shown as
`line2`, which is no field. And an alias that is the name of a column before it takes that column's
place, while the name still leads there. -/
theorem record_names_lost :
    let key : Column := ⟨"id", .integer, false⟩
    let places : Model := ⟨"Place", [key, ⟨"line_2", .string, false⟩], key⟩
    let lamps : Model := ⟨"Lamp", [key, ⟨"isOn", .string, false⟩, ⟨"is_on", .string, false⟩], key⟩
    (places.record [("id", .integer 1), ("line_2", .text "b")] =
        [("id", .int 1), ("line_2", .text "b"), ("line2", .text "b")] ∧
      places.columnOf "line2" = .error (.unknownField "line2" "Place")) ∧
    (lamps.record [("id", .integer 1), ("isOn", .text "a"), ("is_on", .text "b")] =
        [("id", .int 1), ("isOn", .text "b"), ("is_on", .text "b")] ∧
      lamps.columnOf "isOn" = .ok ⟨"isOn", .string, false⟩) := by
  intro key places lamps
  refine ⟨⟨?_, ?_⟩, ?_, ?_⟩
  · decide +kernel
  · decide +kernel
  · decide +kernel
  · decide +kernel

end Model

end RecordApi.Table
