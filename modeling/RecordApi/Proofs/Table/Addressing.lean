import RecordApi.Proofs.Table.Calls
import RecordApi.Proofs.Table.Coercions

/-!
# Rows that operations address

Deletions and changes pick rows by the identifier column, and a row that is created or inserted
holds its identifier there. Searches go by the key of the table, whichever column that is, and so
does the decision whether a record is changed or inserted. Where the identifier column is the key
these are the same rows. Where it is not, the rows that are found are those whose key is the
identifier.
-/

namespace RecordApi.Table

open RecordApi.Action Std

/-! ## Identifiers of a column -/

namespace ColumnType

/-- A text that does not read as a value of the type is stored, if at all, as it is compared. -/
theorem compare_stored_text {type : ColumnType} {s : String} (hread : type.read? s = none)
    {given : Datum} (hgiven : type.form (.text s) = .ok given) :
    given = .text s ∧
      (type.affinity.stored (.text s)).compare (type.affinity.compared (.text s)) = .eq ∧
      type.affinity.compared (.text s) ≠ .null := by
  have hnumbered :
      (Affinity.numeric.stored (.text s)).compare (Affinity.numeric.compared (.text s)) = .eq ∧
        Affinity.numeric.compared (.text s) ≠ .null := by
    simp only [Affinity.stored, Affinity.compared, Cell.numbered]
    cases Number.Numeral.read? s.toList with
    | none => exact ⟨Cell.compare_self _, by simp⟩
    | some n =>
        simp only [Cell.ofNumeral]
        split
        · exact ⟨Cell.compare_self _, by simp⟩
        · exact ⟨Cell.compare_compact _, by simp⟩
  cases type with
  | integer | bigInteger =>
      simp only [form, Except.ok.injEq] at hgiven
      exact ⟨hgiven.symm, hnumbered⟩
  | string | text =>
      simp only [form, Except.ok.injEq] at hgiven
      refine ⟨hgiven.symm, ?_⟩
      simp [affinity, Affinity.stored, Affinity.compared, Cell.lettered, Cell.compare_self]
  | float | numeric places =>
      simp only [read?, Option.map_eq_none_iff] at hread
      have hdouble : double? (.text s) = none := hread
      simp only [form, hdouble, reduceCtorEq] at hgiven
  | boolean => simp [form, truth?] at hgiven
  | dateTime zoned => cases hgiven

end ColumnType

/-- An identifier can stand for rows in a column if it is sent as a text or is a value of the
column's type. What is no number stands for nothing. -/
def Column.Designates (column : Column) (id : Datum) : Prop :=
  let value := coerce (some column.type) id
  (∃ s, value = .text s) ∨ column.type.Owned value ∧ Cell.ofValue value ≠ .null

namespace Model

variable {model : Model} {session : Session} {idColumn : Column} {id : Datum}

theorem keyValue_designated (h : idColumn.Designates id) :
    model.keyValue (coerce (some idColumn.type) id) = .ok (coerce (some idColumn.type) id) := by
  rcases h with ⟨s, hs⟩ | ⟨howned, -⟩
  · rw [hs]
    rfl
  · exact keyValue_owned howned

/-- Where an identifier can be stored in its column, rows are compared with a cell that is alike to
what is stored. -/
theorem idTest_designated (h : idColumn.Designates id) {form : Datum} {cell : Cell}
    (hform : idColumn.type.form (coerce (some idColumn.type) id) = .ok form)
    (hcell : Cell.ofDatum form = .ok cell) :
    idTest idColumn id = .ok (idColumn.holds (idColumn.type.affinity.compared cell)) ∧
      (idColumn.type.affinity.stored cell).compare (idColumn.type.affinity.compared cell) = .eq ∧
      idColumn.type.affinity.compared cell ≠ .null := by
  rcases h with ⟨s, hs⟩ | ⟨howned, hpresent⟩
  · have hread := ColumnType.read?_of_coerce_eq_text hs
    rw [hs] at hform
    obtain ⟨rfl, hcompare, hne⟩ := ColumnType.compare_stored_text hread hform
    cases hcell
    refine ⟨?_, hcompare, hne⟩
    rw [idTest, hs]
    show Except.ok _ = Except.ok _
    congr 1
    funext row
    exact between_equal hne _
  · obtain ⟨other, hother, hvalue⟩ := ColumnType.form_of_takes (.inr howned)
    obtain rfl : form = other := Except.ok.inj (hform.symm.trans hother)
    obtain rfl : cell = Cell.ofValue (coerce (some idColumn.type) id) :=
      Except.ok.inj (hcell.symm.trans hvalue)
    rw [ColumnType.compared_comparand (ColumnType.comparand?_of_owned howned)]
    exact ⟨idTest_owned howned rfl hpresent, ColumnType.compare_stored (.inr howned), hpresent⟩

/-- The test of the key is made of a cell. -/
theorem keyTest_eq_ok {key : Datum} {byKey : Row → Bool} :
    model.keyTest key = .ok byKey ↔ ∃ value cell, model.keyValue key = .ok value ∧
      model.key.type.cell value = .ok cell ∧
      byKey = fun row => !(model.key.type.affinity.compared cell).isNull &&
        model.hasKey (model.key.type.affinity.compared cell) row := by
  simp only [keyTest, bind_eq_ok, pure, Except.pure, Except.ok.injEq]
  constructor
  · rintro ⟨value, hvalue, cell, hcell, rfl⟩
    exact ⟨value, cell, hvalue, hcell, rfl⟩
  · rintro ⟨value, cell, hvalue, hcell, rfl⟩
    exact ⟨value, hvalue, cell, hcell, rfl⟩

/-- In the key column both tests pick the same rows. -/
theorem idTest_key (h : model.key.Designates id) {byKey : Row → Bool}
    (hkey : model.keyTest (coerce (some model.key.type) id) = .ok byKey) :
    idTest model.key id = .ok byKey := by
  obtain ⟨value, cell, hvalue, hcell, rfl⟩ := keyTest_eq_ok.mp hkey
  rw [keyValue_designated h, Except.ok.injEq] at hvalue
  subst hvalue
  obtain ⟨form, hform, hcell⟩ := bind_eq_ok.mp hcell
  obtain ⟨htest, -, hpresent⟩ := idTest_designated h hform hcell
  rw [htest]
  congr 1
  funext row
  rw [Cell.isNull_eq_false.mpr hpresent, Bool.not_false, Bool.true_and]
  rfl

/-- The rows with the key of a row that the test of a key picks are those that the test picks. -/
theorem keyTest_of_found {key : Datum} {byKey : Row → Bool} (hkey : model.keyTest key = .ok byKey)
    {row : Row} (hrow : byKey row = true) :
    (fun other => (model.keyOf other).compare (model.keyOf row) == .eq) = byKey := by
  obtain ⟨value, cell, -, -, rfl⟩ := keyTest_eq_ok.mp hkey
  obtain ⟨hpresent, hrow⟩ := Bool.and_eq_true_iff.mp hrow
  funext other
  rw [hpresent, Bool.true_and]
  exact congrFun (hasKey_congr (hasKey_iff.mp hrow)) other

/-! ## Searches -/

/-- The record of the first row that a test picks, missing if there is none. -/
def firstRecord (model : Model) (rows : List Row) (picked : Row → Bool) : Datum :=
  Datum.ofOption (((model.inOrder rows).find? picked).map fun row => .record (model.record row))

theorem exec_find_eq (hready : session.waiting = false) :
    exec (model.find idColumn id) session =
      ((model.keyTest (coerce (some idColumn.type) id)).map
        (model.firstRecord (session.rows model)), session) := by
  rw [find, exec_bind, exec_findRow_eq hready]
  cases model.keyTest (coerce (some idColumn.type) id) <;> rfl

theorem firstRecord_eq_null {rows : List Row} {picked : Row → Bool} :
    model.firstRecord rows picked = .null ↔ rows.any picked = false := by
  rw [← (model.inOrder_perm rows).any_eq, firstRecord]
  cases hfound : (model.inOrder rows).find? picked with
  | none => simpa [Datum.ofOption] using hfound
  | some row =>
      have hany := List.any_eq_true.mpr
        ⟨row, List.mem_of_find?_eq_some hfound, List.find?_some hfound⟩
      simp [Datum.ofOption, hany]

/-- A search by the key of rows with different keys finds the same row in any order of the rows. -/
theorem find?_inOrder {rows : List Row} (hrows : model.DistinctKeys rows) (cell : Cell) :
    (model.inOrder rows).find? (model.hasKey cell) = rows.find? (model.hasKey cell) := by
  have hperm := model.inOrder_perm rows
  cases hfound : rows.find? (model.hasKey cell) with
  | none =>
      rw [List.find?_eq_none] at hfound ⊢
      intro row hrow
      exact hfound row (hperm.mem_iff.mp hrow)
  | some row =>
      exact find?_hasKey (hrows.perm hperm.symm)
        (hperm.mem_iff.mpr (List.mem_of_find?_eq_some hfound)) (List.find?_some hfound)

/-- A row that is added is found if the search picks it, and otherwise what was found before. -/
theorem firstRecord_append {rows : List Row} {row : Row}
    (hrows : model.DistinctKeys (rows ++ [row]))
    {key : Datum} {byKey : Row → Bool} (hkey : model.keyTest key = .ok byKey) :
    model.firstRecord (rows ++ [row]) byKey =
      if byKey row then .record (model.record row) else model.firstRecord rows byKey := by
  obtain ⟨value, cell, -, -, rfl⟩ := keyTest_eq_ok.mp hkey
  generalize model.key.type.affinity.compared cell = wanted
  have hold : model.DistinctKeys rows := (List.pairwise_append.mp hrows).1
  cases hwanted : wanted.isNull with
  | true =>
      have hnone (found : List Row) : found.find? (fun _ => false) = none :=
        List.find?_eq_none.mpr (by simp)
      simp [firstRecord, hnone]
  | false =>
      simp only [firstRecord, Bool.not_false, Bool.true_and, find?_inOrder hrows,
        find?_inOrder hold]
      cases hrow : model.hasKey wanted row with
      | true =>
          rw [find?_hasKey hrows (by simp) hrow]
          rfl
      | false =>
          rw [List.find?_append, List.find?_singleton, hrow]
          simp

/-! ## Rows that are added and changed -/

theorem addRow_eq_ok {values : Datum.Entries} {rows left : List Row} {row : Row} :
    model.addRow values rows = .ok (left, row) ↔
      ∃ cells, model.cells values = .ok cells ∧ row = model.withKey rows cells ∧
        left = rows ++ [row] ∧ model.accepts left = true := by
  simp only [addRow, bind_eq_ok, accepted_eq_ok, pure, Except.pure, Except.ok.injEq, Prod.mk.injEq]
  constructor
  · rintro ⟨cells, hcells, _, ⟨haccepts, rfl⟩, rfl, rfl⟩
    exact ⟨cells, hcells, rfl, rfl, haccepts⟩
  · rintro ⟨cells, hcells, rfl, rfl, haccepts⟩
    exact ⟨cells, hcells, _, ⟨haccepts, rfl⟩, rfl, rfl⟩

theorem changeRows_eq_ok {picked : Row → Bool} {values : Datum.Entries} {rows left : List Row}
    {found : Bool} :
    model.changeRows picked values rows = .ok (left, found) ↔
      ∃ changes, model.cells values = .ok changes ∧
        left = (rows.map fun row => if picked row then overlaid changes row else row) ∧
        model.accepts left = true ∧ found = rows.any picked := by
  simp only [changeRows, bind_eq_ok, accepted_eq_ok, pure, Except.pure, Except.ok.injEq,
    Prod.mk.injEq]
  constructor
  · rintro ⟨changes, hchanges, _, ⟨haccepts, rfl⟩, rfl, rfl⟩
    exact ⟨changes, hchanges, rfl, haccepts, rfl⟩
  · rintro ⟨changes, hchanges, rfl, haccepts, rfl⟩
    exact ⟨changes, hchanges, _, ⟨haccepts, rfl⟩, rfl, rfl⟩

/-- A row that is given a key keeps what it holds elsewhere, and the key that it has. -/
theorem cellAt_withKey {rows : List Row} {row : Row} {name : String}
    (h : name = model.key.name → cellAt row name ≠ .null) :
    cellAt (model.withKey rows row) name = cellAt row name := by
  rw [withKey]
  split
  · next hmissing =>
    have hother : name ≠ model.key.name := by
      rintro rfl
      have hnull : (model.keyOf row).isNull = true := (Bool.and_eq_true_iff.mp hmissing).2
      have hpresent := Cell.isNull_eq_false.mpr (h rfl)
      rw [keyOf, hpresent] at hnull
      cases hnull
    rw [cellAt, Association.lookup_cons, if_neg hother,
      lookup_filter_names (· != model.key.name) row name (by simpa using hother)]
    rfl
  · rfl

/-- A row that is added with an identifier is picked by it. -/
theorem holds_withKey (hmodel : model.WellFormed) (hcolumn : idColumn ∈ model.columns)
    (h : idColumn.Designates id) {given : Datum.Entries} {cells : Row}
    (hcells : model.cells (Entries.set idColumn.name (coerce (some idColumn.type) id) given) =
      .ok cells) (rows : List Row) :
    ∃ byId, idTest idColumn id = .ok byId ∧ byId (model.withKey rows cells) = true := by
  obtain ⟨column, form, cell, hfound, hform, hcell, hlookup⟩ :=
    lookup_cells hcells (Association.lookup_put_self idColumn.name _ given)
  obtain rfl : idColumn = column := Option.some.inj ((hmodel.column? hcolumn).symm.trans hfound)
  obtain ⟨htest, hcompare, hpresent⟩ := idTest_designated h hform hcell
  have hstored : cellAt cells idColumn.name = idColumn.type.affinity.stored cell := by
    rw [cellAt, hlookup]
    rfl
  have hne : cellAt cells idColumn.name ≠ .null := by
    intro hnull
    rw [hstored] at hnull
    rw [hnull] at hcompare
    cases hcompared : idColumn.type.affinity.compared cell <;> simp_all [Cell.compare]
  refine ⟨_, htest, ?_⟩
  rw [Column.holds, cellAt_withKey fun _ => hne, hstored, hcompare]
  rfl

/-- Data that is not empty has values. -/
theorem values_ne_nil {data values : Datum.Entries} (hdata : data ≠ [])
    (h : model.values data = .ok values) : values ≠ [] := by
  have hset (name : String) (value : Datum) (done : Datum.Entries) :
      Entries.set name value done ≠ [] := by
    cases done with
    | nil => simp [Entries.set, Association.put]
    | cons first done =>
        simp only [Entries.set, Association.put]
        split <;> simp
  have hfold (data done : Datum.Entries) (hne : data ≠ [] ∨ done ≠ [])
      (h : data.foldlM (fun done entry => do
        let column ← model.columnOf entry.1
        return Entries.set column.name entry.2 done) done = .ok values) : values ≠ [] := by
    induction data generalizing done with
    | nil =>
        cases h
        simpa using hne
    | cons entry data ih =>
        rw [List.foldlM_cons] at h
        obtain ⟨next, hnext, h⟩ := bind_eq_ok.mp h
        obtain ⟨column, -, hnext⟩ := bind_eq_ok.mp hnext
        cases hnext
        exact ih _ (.inr (hset _ _ _)) h
  exact hfold data [] (.inl hdata) h

/-! ## What operations do -/

/-- What the operations on an identifier do to a session. Deletions and changes go by `idTest`,
which compares the identifier column with the identifier; searches, and the decision of an update or
insertion, go by `keyTest`, which compares the key of the table with it. -/
structure Addresses (model : Model) (idColumn : Column) (session : Session) (id : Datum) :
    Prop where
  /-- A deletion removes the rows that hold the identifier, and answers whether there were any. -/
  delete : exec (model.delete idColumn id) session =
    match idTest idColumn id with
    | .ok byId => (.ok (.bool ((session.rows model).any byId)),
        session.withRows model ((session.rows model).filter fun row => !byId row))
    | .error failure => (.error failure, session)
  /-- A change of something, where it is accepted, is made in the same rows with the same answer. -/
  update : ∀ data answer left, data ≠ [] →
    exec (model.update idColumn id data) session = (.ok answer, left) →
    ∃ byId values changes, idTest idColumn id = .ok byId ∧ model.values data = .ok values ∧
      model.cells values = .ok changes ∧ answer = .bool ((session.rows model).any byId) ∧
      left = session.withRows model
        ((session.rows model).map fun row => if byId row then overlaid changes row else row)
  /-- A search answers the record of the row with the key, -/
  find : exec (model.find idColumn id) session =
    ((model.keyTest (coerce (some idColumn.type) id)).map (model.firstRecord (session.rows model)),
      session)
  /-- and the missing one just if there is no such row. -/
  missing : ∀ byKey, model.firstRecord (session.rows model) byKey = .null ↔
    (session.rows model).any byKey = false
  /-- A creation adds one row, which holds the identifier. Afterwards the search finds that row if
  it has the key, and otherwise what it found before. -/
  create : ∀ data answer left, exec (model.create idColumn id data) session = (.ok answer, left) →
    answer = coerce (some idColumn.type) id ∧
    ∃ row, left = session.withRows model (session.rows model ++ [row]) ∧
      (idColumn.Designates id → ∃ byId, idTest idColumn id = .ok byId ∧ byId row = true) ∧
      ∀ byKey, model.keyTest (coerce (some idColumn.type) id) = .ok byKey →
        exec (model.find idColumn id) left =
          (.ok (if byKey row then .record (model.record row)
            else model.firstRecord (session.rows model) byKey), left)
  /-- An update or insertion changes the rows with the key if there are any, and otherwise adds a
  row, which holds the identifier. -/
  upsert : ∀ data answer left, exec (model.upsert idColumn id data) session = (.ok answer, left) →
    answer = .bool true ∧
    ∃ byKey, model.keyTest (coerce (some idColumn.type) id) = .ok byKey ∧
      if (session.rows model).any byKey then
        ∃ values changes, model.values data = .ok values ∧ model.cells values = .ok changes ∧
          left = session.withRows model
            ((session.rows model).map fun row => if byKey row then overlaid changes row else row)
      else
        ∃ row, left = session.withRows model (session.rows model ++ [row]) ∧
          (idColumn.Designates id → ∃ byId, idTest idColumn id = .ok byId ∧ byId row = true)
  /-- If the identifier column is the key, the row that holds the identifier is the one with the
  key. -/
  alike : idColumn = model.key → idColumn.Designates id →
    ∀ byKey, model.keyTest (coerce (some idColumn.type) id) = .ok byKey →
      idTest idColumn id = .ok byKey

theorem exec_delete_eq (hready : session.waiting = false) :
    exec (model.delete idColumn id) session =
      match idTest idColumn id with
      | .ok byId => (.ok (.bool ((session.rows model).any byId)),
          session.withRows model ((session.rows model).filter fun row => !byId row))
      | .error failure => (.error failure, session) := by
  rw [delete, Session.exec_write, hready, if_neg (by simp)]
  cases idTest idColumn id <;> rfl

theorem exec_update_eq_ok {data : Datum.Entries} (hdata : data ≠ []) {answer : Datum}
    {left : Session} (h : exec (model.update idColumn id data) session = (.ok answer, left)) :
    ∃ byId values changes, idTest idColumn id = .ok byId ∧ model.values data = .ok values ∧
      model.cells values = .ok changes ∧ answer = .bool ((session.rows model).any byId) ∧
      left = session.withRows model
        ((session.rows model).map fun row => if byId row then overlaid changes row else row) := by
  obtain ⟨values, middle, hlift, hwrite⟩ := exec_bind_eq_ok.mp h
  obtain ⟨hvalues, rfl⟩ := Session.exec_lift_eq_ok.mp hlift
  rw [if_neg (by simpa using values_ne_nil hdata hvalues)] at hwrite
  obtain ⟨-, rows, hrows, rfl⟩ := Session.exec_write_eq_ok.mp hwrite
  obtain ⟨byId, htest, hrows⟩ := bind_eq_ok.mp hrows
  obtain ⟨⟨changed, found⟩, hchange, hanswer⟩ := bind_eq_ok.mp hrows
  cases hanswer
  obtain ⟨changes, hchanges, rfl, -, rfl⟩ := changeRows_eq_ok.mp hchange
  exact ⟨byId, values, changes, htest, hvalues, hchanges, rfl, rfl⟩

theorem coerce_ne_null {type : ColumnType} (h : id.isNull = false) :
    coerce (some type) id ≠ .null := by
  cases id with
  | null => cases h
  | text s =>
      have hread : type.read? s ≠ some .null := by cases type <;> simp [ColumnType.read?]
      simp only [coerce]
      cases hs : type.read? s with
      | none => simp
      | some value => exact fun hnull => hread (hs.trans (congrArg some hnull))
  | _ => simp [coerce]

/-- A creation that answers has added one row of its values. -/
theorem exec_create_eq_ok (hid : id.isNull = false) {data : Datum.Entries} {answer : Datum}
    {left : Session} (h : exec (model.create idColumn id data) session = (.ok answer, left)) :
    answer = coerce (some idColumn.type) id ∧
    ∃ given cells, model.cells (Entries.set idColumn.name (coerce (some idColumn.type) id) given) =
        .ok cells ∧
      model.accepts (session.rows model ++ [model.withKey (session.rows model) cells]) = true ∧
      left = session.withRows model
        (session.rows model ++ [model.withKey (session.rows model) cells]) := by
  obtain ⟨given, middle, hlift, hrest⟩ := exec_bind_eq_ok.mp h
  obtain ⟨-, rfl⟩ := Session.exec_lift_eq_ok.mp hlift
  simp only [hid, Bool.not_false, if_true, pure_bind] at hrest
  obtain ⟨row, flushed, hflush, hanswer⟩ := exec_bind_eq_ok.mp hrest
  obtain ⟨-, rows, hadd, rfl⟩ := Session.exec_flush_eq_ok.mp hflush
  obtain ⟨cells, hcells, rfl, rfl, haccepts⟩ := addRow_eq_ok.mp hadd
  cases hanswer.symm.trans (exec_answer (coerce_ne_null hid) given _ _)
  exact ⟨rfl, given, cells, hcells, haccepts, rfl⟩

/-- An update or insertion that answers has changed the rows with the key or added one row. -/
theorem exec_upsert_eq_ok (hready : session.waiting = false) {data : Datum.Entries} {answer : Datum}
    {left : Session} (h : exec (model.upsert idColumn id data) session = (.ok answer, left)) :
    answer = .bool true ∧
    ∃ byKey values, model.keyTest (coerce (some idColumn.type) id) = .ok byKey ∧
      model.values data = .ok values ∧
      if (session.rows model).any byKey then
        ∃ changes, model.cells values = .ok changes ∧ left = session.withRows model
          ((session.rows model).map fun row => if byKey row then overlaid changes row else row)
      else
        ∃ cells, model.cells (Entries.set idColumn.name (coerce (some idColumn.type) id) values) =
            .ok cells ∧
          left = session.withRows model
            (session.rows model ++ [model.withKey (session.rows model) cells]) := by
  obtain ⟨values, middle, hlift, hrest⟩ := exec_bind_eq_ok.mp h
  obtain ⟨hvalues, rfl⟩ := Session.exec_lift_eq_ok.mp hlift
  obtain ⟨found, middle, hfind, hrest⟩ := exec_bind_eq_ok.mp hrest
  rw [exec_findRow_eq hready, Prod.mk.injEq] at hfind
  obtain ⟨hfound, rfl⟩ := hfind
  obtain ⟨byKey, hkey, hfound⟩ : ∃ byKey,
      model.keyTest (coerce (some idColumn.type) id) = .ok byKey ∧
        (model.inOrder (session.rows model)).find? byKey = found := by
    cases hkey : model.keyTest (coerce (some idColumn.type) id) with
    | error failure =>
        rw [hkey] at hfound
        cases hfound
    | ok byKey =>
        rw [hkey] at hfound
        exact ⟨byKey, rfl, Except.ok.inj hfound⟩
  have hany : (session.rows model).any byKey = found.isSome := by
    rw [← hfound, List.isSome_find?, (model.inOrder_perm (session.rows model)).any_eq]
  cases found with
  | none =>
      obtain ⟨row, flushed, hflush, hanswer⟩ := exec_bind_eq_ok.mp hrest
      obtain ⟨-, rows, hadd, rfl⟩ := Session.exec_flush_eq_ok.mp hflush
      obtain ⟨cells, hcells, rfl, rfl, -⟩ := addRow_eq_ok.mp hadd
      cases hanswer
      refine ⟨rfl, byKey, values, hkey, hvalues, ?_⟩
      rw [hany]
      exact ⟨cells, hcells, rfl⟩
  | some row =>
      obtain ⟨used, flushed, hflush, hanswer⟩ := exec_bind_eq_ok.mp hrest
      obtain ⟨-, rows, hchange, rfl⟩ := Session.exec_flush_eq_ok.mp hflush
      obtain ⟨changes, hchanges, rfl, -, -⟩ := changeRows_eq_ok.mp hchange
      cases hanswer
      refine ⟨rfl, byKey, values, hkey, hvalues, ?_⟩
      rw [hany, ← keyTest_of_found hkey (List.find?_some hfound)]
      exact ⟨changes, hchanges, rfl⟩

/-- Operations that go by the identifier column and those that go by the key of the table, in any
ready session and for any identifier. -/
theorem operations_address (model : Model) (hmodel : model.WellFormed) (idColumn : Column)
    (hcolumn : idColumn ∈ model.columns) (session : Session) (hready : session.waiting = false)
    (id : Datum) (hid : id.isNull = false) : model.Addresses idColumn session id where
  delete := exec_delete_eq hready
  update _ _ _ hdata h := exec_update_eq_ok hdata h
  find := exec_find_eq hready
  missing _ := firstRecord_eq_null
  create data answer left h := by
    obtain ⟨hanswer, given, cells, hcells, haccepts, rfl⟩ := exec_create_eq_ok hid h
    refine ⟨hanswer, _, rfl, fun hdesignates => ?_, fun byKey hkey => ?_⟩
    · exact holds_withKey hmodel hcolumn hdesignates hcells _
    · have hready' : (session.withRows model (session.rows model ++
          [model.withKey (session.rows model) cells])).waiting = false := hready
      rw [exec_find_eq hready', hkey, Session.rows_withRows,
        ← firstRecord_append ((accepts_iff _).mp haccepts).2 hkey]
      rfl
  upsert data answer left h := by
    obtain ⟨hanswer, byKey, values, hkey, hvalues, hdone⟩ := exec_upsert_eq_ok hready h
    refine ⟨hanswer, byKey, hkey, ?_⟩
    split at hdone
    · next hany =>
      obtain ⟨changes, hchanges, rfl⟩ := hdone
      rw [if_pos hany]
      exact ⟨values, changes, hvalues, hchanges, rfl⟩
    · next hnone =>
      obtain ⟨cells, hcells, rfl⟩ := hdone
      rw [if_neg hnone]
      exact ⟨_, rfl, fun hdesignates => holds_withKey hmodel hcolumn hdesignates hcells _⟩
  alike hkeyed hdesignates byKey hkey := by
    subst hkeyed
    exact idTest_key hdesignates hkey

/-- A gadget under its serial number is deleted but not found. -/
theorem operations_address_gadgets :
    let gadgets : Model := ⟨"Gadget", [⟨"id", .integer, false⟩, ⟨"label", .string, true⟩,
      ⟨"serial_number", .string, false⟩], ⟨"id", .integer, false⟩⟩
    let serial : Column := ⟨"serial_number", .string, false⟩
    let session : Session := { tables := [("Gadget",
      [[("id", .integer 1), ("label", .text "a"), ("serial_number", .text "s1")]])] }
    (exec (gadgets.delete serial (.text "s1")) session).1 = .ok (.bool true) ∧
      (exec (gadgets.find serial (.text "s1")) session).1 = .ok .null := by
  intro gadgets serial session
  have h := operations_address gadgets ⟨by decide, by decide⟩ serial (by decide) session rfl
    (.text "s1") rfl
  rw [h.delete, h.find]
  exact ⟨by decide +kernel, by decide +kernel⟩

/-- Where serial numbers are identifiers, a gadget that is created is not found, though it can be
changed and deleted, and an update or insertion adds another one. A serial number that no gadget has
leads to the gadget whose key it is. -/
theorem operations_disagree_gadgets :
    let gadgets : Model := ⟨"Gadget", [⟨"id", .integer, false⟩, ⟨"label", .string, true⟩,
      ⟨"serial_number", .string, false⟩], ⟨"id", .integer, false⟩⟩
    let collection := gadgets.collection ⟨"serial_number", .string, false⟩
    let created := exec (collection.create (.text "s1") [("label", .text "a")]) {}
    let twice := exec (collection.upsert (.text "s1") [("label", .text "b")]) created.2
    let other := (exec (collection.create (.text "2") [("label", .text "a")]) {}).2
    created.1 = .ok (.text "s1") ∧
      (exec (collection.find (.text "s1")) created.2).1 = .ok .null ∧
      (exec (collection.update (.text "s1") [("label", .text "b")]) created.2).1 =
        .ok (.bool true) ∧
      (exec (collection.delete (.text "s1")) created.2).1 = .ok (.bool true) ∧
      twice.1 = .ok (.bool true) ∧ (twice.2.rows gadgets).length = 2 ∧
      (exec (collection.find (.text "1")) other).1 = .ok (.record [("id", .int 1),
        ("label", .text "a"), ("serial_number", .text "2"), ("serialNumber", .text "2")]) ∧
      (exec (collection.delete (.text "1")) other).1 = .ok (.bool false) := by
  decide +kernel

end Model

end RecordApi.Table
