import RecordApi.Proofs.Table.Identifiers

/-!
# Sound tables

A table is sound if the model accepts its rows and every key, read back, identifies its own row.
What the operations do to rows keeps a table sound: changing rows of a key without their key,
removing them, and adding a row whose key is not in use.
-/

namespace RecordApi.Table

open Std

namespace Model

variable {model : Model} {rows : List Row} {cell : Cell}

/-- A content with something in every column that must hold something. -/
def Whole (model : Model) (content : Content) : Prop :=
  ∀ column ∈ model.columns, column.required = true → column.name ≠ model.key.name →
    content column.name ≠ .null

/-- Rows that are accepted, and whose keys identify them when they are read back. -/
structure Sound (model : Model) (rows : List Row) : Prop where
  accepted : model.accepts rows = true
  keyed : ∀ row ∈ rows, ∃ cell,
    model.key.type.Identifies (model.content row model.key.name) cell ∧
      cell.compare (model.keyOf row) = .eq

theorem Sound.distinct (h : model.Sound rows) : model.DistinctKeys rows :=
  (accepts_iff rows).mp h.accepted |>.2

theorem content_key (hmodel : model.WellFormed) (row : Row) :
    model.content row model.key.name = model.key.type.value (model.keyOf row) := by
  simp only [content, hmodel.column? hmodel.key]
  rfl

/-- A row is complete if it has a key of the right kind and its content is whole. -/
theorem complete_iff_whole (hmodel : model.WellFormed) (row : Row) :
    model.complete row = true ↔
      (model.keyOf row ≠ .null ∧
        (model.numbersRows = true → ∃ n, model.keyOf row = .integer n)) ∧
      model.Whole (model.content row) := by
  rw [complete_iff hmodel]
  refine and_congr_right fun hkey => ?_
  constructor
  · exact fun h column hcolumn hrequired _ => h column hcolumn hrequired
  · intro h column hcolumn hrequired
    by_cases hname : column.name = model.key.name
    · rw [hname, content_key hmodel, Ne, ColumnType.value_eq_null]
      exact hkey.1
    · exact h column hcolumn hrequired hname

/-- Rows of a key are changed and keep their key. -/
theorem Sound.map (hmodel : model.WellFormed) (h : model.Sound rows) (cell : Cell) {f : Row → Row}
    (hkeys : ∀ row, model.keyOf (f row) = model.keyOf row)
    (hwhole : ∀ row ∈ rows, model.hasKey cell row = true → model.Whole (model.content (f row))) :
    model.Sound (rows.map fun row => if model.hasKey cell row then f row else row) := by
  have hsame (row : Row) :
      model.keyOf (if model.hasKey cell row then f row else row) = model.keyOf row := by
    split
    · exact hkeys row
    · rfl
  obtain ⟨hcomplete, hdistinct⟩ := (accepts_iff rows).mp h.accepted
  constructor
  · rw [accepts_iff, List.pairwise_map]
    simp only [hsame]
    refine ⟨?_, hdistinct⟩
    intro row hrow
    obtain ⟨old, hold, rfl⟩ := List.mem_map.mp hrow
    have hkey := ((complete_iff_whole hmodel old).mp (hcomplete old hold)).1
    split
    · next hpicked =>
      rw [complete_iff_whole hmodel, hkeys]
      exact ⟨hkey, hwhole old hold hpicked⟩
    · exact hcomplete old hold
  · intro row hrow
    obtain ⟨old, hold, rfl⟩ := List.mem_map.mp hrow
    rw [content_key hmodel, hsame, ← content_key hmodel]
    exact h.keyed old hold

/-- Rows of a key are removed. -/
theorem Sound.filter (h : model.Sound rows) (keep : Row → Bool) :
    model.Sound (rows.filter keep) := by
  obtain ⟨hcomplete, hdistinct⟩ := (accepts_iff rows).mp h.accepted
  constructor
  · rw [accepts_iff]
    exact ⟨fun row hrow => hcomplete row (List.mem_of_mem_filter hrow), hdistinct.filter keep⟩
  · exact fun row hrow => h.keyed row (List.mem_of_mem_filter hrow)

/-- A row is added whose key is not in use. -/
theorem Sound.append (hmodel : model.WellFormed) (h : model.Sound rows) {row : Row}
    (hkey : (model.keyOf row).compare cell = .eq) (hunused : model.view rows cell = none)
    (hpresent : model.keyOf row ≠ .null)
    (hnumbered : model.numbersRows = true → ∃ n, model.keyOf row = .integer n)
    (hwhole : model.Whole (model.content row))
    (hkeyed : ∃ again, model.key.type.Identifies (model.content row model.key.name) again ∧
      again.compare (model.keyOf row) = .eq) :
    model.Sound (rows ++ [row]) := by
  obtain ⟨hcomplete, hdistinct⟩ := (accepts_iff rows).mp h.accepted
  have hmem {other : Row} (hother : other ∈ rows ++ [row]) : other ∈ rows ∨ other = row := by
    simpa using hother
  constructor
  · rw [accepts_iff, List.pairwise_append]
    refine ⟨?_, hdistinct, List.pairwise_singleton _ _, ?_⟩
    · intro other hother
      rcases hmem hother with hother | rfl
      · exact hcomplete other hother
      · exact (complete_iff_whole hmodel _).mpr ⟨⟨hpresent, hnumbered⟩, hwhole⟩
    · intro other hother added hadded hsame
      obtain rfl := List.mem_singleton.mp hadded
      have hfree := view_eq_none.mp hunused other hother
      have hused : model.hasKey cell other = true :=
        hasKey_iff.mpr (TransCmp.eq_trans (OrientedCmp.eq_symm hsame) hkey)
      rw [hfree] at hused
      cases hused
  · intro other hother
    rcases hmem hother with hother | rfl
    · exact h.keyed other hother
    · exact hkeyed

/-! ## Writing into a sound table -/

/-- The content of a row that nothing has been written into. -/
def blank : Content := fun _ => .null

/-- A content with an identifier under the name of the key. -/
def keyedWith (model : Model) (given : Datum) (content : Content) : Content :=
  Function.update content model.key.name (model.key.type.kept given)

theorem whole_keyedWith {given : Datum} {content : Content} (h : model.Whole content) :
    model.Whole (model.keyedWith given content) := by
  intro column hcolumn hrequired hname
  rw [keyedWith, Function.update_of_ne hname]
  exact h column hcolumn hrequired hname

/-- Where rows are numbered, an identifier is stored as a number. -/
theorem stored_of_numbersRows {given : Datum} (hnumbers : model.numbersRows = true)
    (hgiven : model.key.type.Identifies given cell) :
    ∃ n, given = .int n ∧ model.key.type.affinity.stored cell = .integer n := by
  have htype : model.key.type = .integer := by simpa [numbersRows] using hnumbers
  obtain ⟨howned, hcell, -, -⟩ := hgiven
  rw [htype] at howned ⊢
  cases howned with
  | @int _ n _ hword =>
      refine ⟨n, rfl, ?_⟩
      rw [← hcell, Cell.ofValue_int hword]
      rfl
  | text haffinity => cases haffinity

/-- A row is added whose key is what is stored for an identifier that is not in use. -/
theorem Sound.added (hmodel : model.WellFormed) (h : model.Sound rows) {given : Datum}
    {content : Content} {row : Row} (hgiven : model.key.type.Identifies given cell)
    (hunused : model.view rows cell = none) (hwhole : model.Whole content)
    (hkey : model.keyOf row = model.key.type.affinity.stored cell)
    (hcontent : model.content row = model.keyedWith given content) :
    model.Sound (rows ++ [row]) ∧
      model.view (rows ++ [row]) = (model.view rows).put cell (model.keyedWith given content) := by
  have hcompare : (model.keyOf row).compare cell = .eq := by
    have hstored := ColumnType.compare_stored (.inr hgiven.owned)
    rwa [hgiven.cell_eq, ← hkey] at hstored
  refine ⟨h.append hmodel hcompare hunused ?_ ?_ ?_ ?_, ?_⟩
  · rw [hkey]
    exact hgiven.stored_ne_null
  · intro hnumbers
    obtain ⟨n, -, hn⟩ := stored_of_numbersRows hnumbers hgiven
    exact ⟨n, hkey.trans hn⟩
  · rw [hcontent]
    exact whole_keyedWith hwhole
  · obtain ⟨again, hagain, hsame⟩ := hgiven.kept
    refine ⟨again, ?_, TransCmp.eq_trans hsame (OrientedCmp.eq_symm hcompare)⟩
    rwa [hcontent, keyedWith, Function.update_self]
  · rw [view_append hcompare hunused, hcontent]

theorem storedUnder_key (hmodel : model.WellFormed) {given : Datum}
    (hgiven : model.key.type.Identifies given cell) :
    model.storedUnder model.key.name given = model.key.type.affinity.stored cell := by
  simp [storedUnder, hmodel.column? hmodel.key, hgiven.cell_eq]

/-- Values without an identifier leave the key of a row as it is. -/
theorem keyOf_overlaid {values : Datum.Entries}
    (hkeyless : ∀ entry ∈ values, entry.1 ≠ model.key.name) (row : Row) :
    model.keyOf (overlaid (model.storedRow values) row) = model.keyOf row := by
  have hlookup : List.lookup model.key.name (model.storedRow values) = none := by
    refine (lookup_map_values model.storedUnder values model.key.name).trans ?_
    rw [List.lookup_eq_none_iff.mpr fun entry hentry => by simpa using (hkeyless entry hentry).symm]
    rfl
  rw [keyOf, cellAt_overlaid, hlookup]
  rfl

/-- A row without a key is given the next number by writing it under the name of the key. -/
theorem withKey_storedRow (hmodel : model.WellFormed) {values : Datum.Entries}
    (hnumbers : model.numbersRows = true)
    (hgiven : model.key.type.Identifies (.int (model.nextKey rows)) cell)
    (hkeyless : ∀ entry ∈ values, entry.1 ≠ model.key.name) :
    model.withKey rows (model.storedRow values) =
      overlaid (model.storedRow [(model.key.name, .int (model.nextKey rows))])
        (model.storedRow values) := by
  obtain ⟨n, hn, hstored⟩ := stored_of_numbersRows hnumbers hgiven
  obtain rfl := Datum.int.inj hn
  have hnumber : model.storedRow [(model.key.name, .int (model.nextKey rows))] =
      [(model.key.name, .integer (model.nextKey rows))] := by
    rw [storedRow, List.map_singleton, storedUnder_key hmodel hgiven, hstored]
  have hnull : model.keyOf (model.storedRow values) = .null := by
    have hnil := keyOf_overlaid hkeyless []
    rwa [overlaid, List.filter_nil, List.append_nil] at hnil
  have hlookup (name : String) :
      (List.lookup name [(model.key.name, Cell.integer (model.nextKey rows))]).isNone =
        (name != model.key.name) := by
    rw [Association.lookup_cons]
    by_cases hname : name = model.key.name <;> simp [hname]
  rw [hnumber, overlaid]
  simp only [withKey, hnumbers, hnull, Cell.isNull, Bool.and_self, if_true, hlookup]
  rfl

theorem addRow_of_accepts {values : Datum.Entries} {row : Row} (hvalues : model.Fits values)
    (hrow : model.withKey rows (model.storedRow values) = row)
    (haccepted : model.accepts (rows ++ [row]) = true) :
    model.addRow values rows = .ok (rows ++ [row], row) := by
  simp only [Model.addRow, cells_of_fits hvalues, bind, Except.bind, pure, Except.pure]
  rw [hrow, accepted_of_accepts haccepted]

/-- A row is added of values and an identifier under the name of the key. -/
theorem Sound.addRow (hmodel : model.WellFormed) (h : model.Sound rows) {given : Datum}
    {values : Datum.Entries} (hgiven : model.key.type.Identifies given cell)
    (hunused : model.view rows cell = none) (hvalues : model.Fits values)
    (hwhole : model.Whole (model.written values blank)) :
    ∃ left row, model.addRow (Entries.set model.key.name given values) rows = .ok (left, row) ∧
      model.Sound left ∧
      model.view left =
        (model.view rows).put cell (model.keyedWith given (model.written values blank)) := by
  have hcolumn := hmodel.column? hmodel.key
  let keyed := Entries.set model.key.name given values
  have hfits : model.Fits keyed := fits_set hvalues hcolumn (.inr hgiven.owned)
  let row := model.storedRow keyed
  have hkey : model.keyOf row = model.key.type.affinity.stored cell := by
    calc model.keyOf row
        = ((List.lookup model.key.name keyed).map (model.storedUnder model.key.name)).getD .null :=
          congrArg (·.getD .null) (lookup_map_values model.storedUnder keyed model.key.name)
      _ = model.storedUnder model.key.name given := by simp [keyed, Entries.set]
      _ = model.key.type.affinity.stored cell := storedUnder_key hmodel hgiven
  have hcontent : model.content row = model.keyedWith given (model.written values blank) := by
    calc model.content row
        = model.written keyed blank := content_storedRow hfits
      _ = model.keyedWith given (model.written values blank) := written_set values hcolumn blank
  have hrow : model.withKey rows row = row := by
    have hpresent : (model.keyOf row).isNull = false :=
      Cell.isNull_eq_false.mpr (hkey ▸ hgiven.stored_ne_null)
    simp [withKey, hpresent]
  obtain ⟨hsound, hview⟩ := h.added hmodel hgiven hunused hwhole hkey hcontent
  exact ⟨_, row, addRow_of_accepts hfits hrow hsound.accepted, hsound, hview⟩

/-- A row is added of values without an identifier, and numbered. -/
theorem Sound.addRow_numbered (hmodel : model.WellFormed) (h : model.Sound rows)
    {values : Datum.Entries} (hnumbers : model.numbersRows = true)
    (hgiven : model.key.type.Identifies (.int (model.nextKey rows)) cell)
    (hunused : model.view rows cell = none) (hvalues : model.Fits values)
    (hkeyless : ∀ entry ∈ values, entry.1 ≠ model.key.name)
    (hwhole : model.Whole (model.written values blank)) :
    ∃ left row, model.addRow values rows = .ok (left, row) ∧
      model.key.type.value (model.keyOf row) = .int (model.nextKey rows) ∧
      model.Sound left ∧
      model.view left = (model.view rows).put cell
        (model.keyedWith (.int (model.nextKey rows)) (model.written values blank)) := by
  have hcolumn := hmodel.column? hmodel.key
  let number : Datum.Entries := [(model.key.name, .int (model.nextKey rows))]
  have hnumber : model.Fits number := by
    intro entry hentry
    obtain rfl := List.mem_singleton.mp hentry
    exact ⟨model.key, hcolumn, .inr hgiven.owned⟩
  let row := overlaid (model.storedRow number) (model.storedRow values)
  have hkey : model.keyOf row = model.key.type.affinity.stored cell := by
    rw [keyOf, cellAt_overlaid]
    simp [number, storedRow, storedUnder_key hmodel hgiven]
  have hcontent : model.content row =
      model.keyedWith (.int (model.nextKey rows)) (model.written values blank) := by
    calc model.content row
        = model.written number (model.content (model.storedRow values)) :=
          content_overlaid hnumber _
      _ = model.written number (model.written values blank) := by
          rw [content_storedRow hvalues]
          rfl
      _ = model.keyedWith (.int (model.nextKey rows)) (model.written values blank) :=
          written_set [] hcolumn _
  have hrow := withKey_storedRow hmodel hnumbers hgiven hkeyless
  obtain ⟨hsound, hview⟩ := h.added hmodel hgiven hunused hwhole hkey hcontent
  refine ⟨_, row, addRow_of_accepts hvalues hrow hsound.accepted, ?_, hsound, hview⟩
  obtain ⟨n, hn, hstored⟩ := stored_of_numbersRows hnumbers hgiven
  have htype : model.key.type = .integer := by simpa [numbersRows] using hnumbers
  rw [hkey, hstored, hn, htype]
  rfl

/-- Rows of a key are changed by values without an identifier. -/
theorem Sound.changeRows (hmodel : model.WellFormed) (h : model.Sound rows) (cell : Cell)
    {values : Datum.Entries} (hvalues : model.Fits values)
    (hkeyless : ∀ entry ∈ values, entry.1 ≠ model.key.name)
    (hwhole : ∀ content, model.view rows cell = some content →
      model.Whole (model.written values content)) :
    ∃ left, model.changeRows (model.hasKey cell) values rows =
        .ok (left, (model.view rows cell).isSome) ∧
      model.Sound left ∧
      model.view left = (model.view rows).change cell (model.written values) := by
  have hkeys : ∀ row, model.keyOf (overlaid (model.storedRow values) row) = model.keyOf row :=
    keyOf_overlaid hkeyless
  have hcontents := content_overlaid hvalues
  have hsound := h.map hmodel cell hkeys fun row hrow hhas => by
    rw [hcontents]
    exact hwhole _ ((view_eq_some h.distinct).mpr ⟨row, hrow, hhas, rfl⟩)
  refine ⟨_, ?_, hsound, view_map hkeys hcontents⟩
  simp only [Model.changeRows, cells_of_fits hvalues, bind, Except.bind, pure, Except.pure]
  rw [accepted_of_accepts hsound.accepted, any_hasKey]

/-- Rows of a key are removed. -/
theorem Sound.removeRows (h : model.Sound rows) (cell : Cell) :
    ∃ left, Model.removeRows (model.hasKey cell) rows =
        .ok (left, (model.view rows cell).isSome) ∧
      model.Sound left ∧ model.view left = (model.view rows).remove cell :=
  ⟨_, by rw [Model.removeRows, any_hasKey], h.filter _, view_filter⟩

/-- The order in which rows are read does not matter. -/
theorem Sound.view_inOrder (h : model.Sound rows) :
    model.view (model.inOrder rows) = model.view rows := by
  have hperm := model.inOrder_perm rows
  exact view_perm (h.distinct.perm hperm.symm) h.distinct hperm

end Model

end RecordApi.Table
