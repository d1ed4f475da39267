import RecordApi.Proofs.Table.Coercions
import RecordApi.Proofs.Table.Pages
import RecordApi.Proofs.Table.Rows
import RecordApi.Proofs.Time.Instants

/-!
# Offsets of filter values

A column without time zone is compared with the date and time that a filter value shows: its offset
is dropped, and nothing is converted. So two values that say one instant select the same rows just
if they have the same offset. Where they have not, any comparison tells apart one of the two dates
and times that are left.
-/

namespace RecordApi.Table

open RecordApi.Action RecordApi.Time Std

/-! ## Two cells -/

/-- Each comparison tells two different cells apart by one of the two. -/
theorem between_apart {how : Comparison} (hhow : how ≠ .different) {a b : Cell} (ha : a ≠ .null)
    (hb : b ≠ .null) (h : a.compare b ≠ .eq) :
    ∃ own, own ≠ .null ∧ how.between own a ≠ how.between own b := by
  have hnull {cell : Cell} (hcell : cell ≠ .null) : cell.isNull = false :=
    Cell.isNull_eq_false.mpr hcell
  have hself (cell : Cell) : cell.compare cell = .eq := ReflCmp.compare_self
  have hswap : b.compare a = (a.compare b).swap := OrientedCmp.eq_swap
  suffices hhow : how.between a a ≠ how.between a b ∨ how.between b a ≠ how.between b b by
    rcases hhow with hown | hown
    · exact ⟨a, ha, hown⟩
    · exact ⟨b, hb, hown⟩
  simp only [Comparison.between, hnull ha, hnull hb, hself, hswap, Bool.not_false, Bool.true_and]
  cases horder : a.compare b with
  | eq => exact absurd horder h
  | lt | gt => cases how <;> simp_all [Comparison.holds]

theorem eq_of_compare_text {s t : String} (h : (Cell.text s).compare (.text t) = .eq) : s = t :=
  Std.compare_eq_iff_eq.mp h

/-- Valid dates and times are stored as texts that compare as equal only if they show the same. -/
theorem compare_storedText {t u : DateTime} (ht : t.isValid = true) (hu : u.isValid = true)
    (h : (Cell.text t.storedText).compare (.text u.storedText) = .eq) :
    t.dropOffset = u.dropOffset := by
  have htext : t.storedText = u.storedText := eq_of_compare_text h
  have hread := readDateTime?_storedText ht
  rw [htext, readDateTime?_storedText hu] at hread
  exact (Option.some.inj hread).symm

/-! ## Filters by a text -/

/-- A filter names a column and, in capitals or not, an operation, and its value is a text. -/
structure Asks (model : Model) (spec : Datum) (column : Column) (name text : String) : Prop where
  named : specColumn model spec = .ok column
  operation : ∃ given, specEntry spec "op" = .ok given ∧
    String.ofList (Text.upper given.plainText.toList) = name
  value : specEntry spec "value" = .ok (.text text)

theorem filterCondition_of_asks {model : Model} {spec : Datum} {column : Column}
    {name text : String} (h : Asks model spec column name text) (operators : OperatorTable) :
    filterCondition operators model spec =
      match operators.lookup name with
      | none => .error (.unknownOperation name)
      | some operator => operator column (coerce (some column.type) (.text text)) := by
  obtain ⟨hnamed, ⟨given, hgiven, rfl⟩, hvalue⟩ := h
  simp only [filterCondition, hnamed, hgiven, hvalue, bind, Except.bind]
  cases operators.lookup (String.ofList (Text.upper given.plainText.toList)) <;> rfl

theorem mem_of_specColumn {model : Model} {spec : Datum} {column : Column}
    (h : specColumn model spec = .ok column) : column ∈ model.columns := by
  obtain ⟨field, -, hfield⟩ := bind_eq_ok.mp h
  cases field with
  | text field => exact (Model.mem_of_column? (Model.column?_of_columnOf hfield)).1
  | _ => cases hfield

theorem ne_different_of_lookup {name : String} {how : Comparison}
    (h : comparisons.lookup name = some how) : how ≠ .different := by
  rintro rfl
  have hmem : (name, Comparison.different) ∈ comparisons := Association.mem_of_lookup h
  simp [comparisons] at hmem

theorem coerce_of_readDateTime? {text : String} {t : DateTime} (h : readDateTime? text = some t) :
    coerce (some (.dateTime false)) (.text text) = .dateTime t.dropOffset :=
  coerce_of_read (by rw [ColumnType.read?, h]; rfl)

/-- The condition of a comparison with a date and time that is read from a text, for a column
without time zone. -/
theorem condition_of_readDateTime? {model : Model} {spec : Datum} {column : Column}
    {how : Comparison} {name text : String} {t : DateTime} {operators : OperatorTable}
    (htype : column.type = .dateTime false) (hoperators : Comparing operators)
    (hasks : Asks model spec column name text) (hhow : comparisons.lookup name = some how)
    (ht : readDateTime? text = some t) :
    ∃ condition, filterCondition operators model spec = .ok condition ∧
      condition.test =
        .ok fun row => how.between (cellAt row column.name) (.text t.storedText) := by
  have hcell : column.type.comparand? (.dateTime t.dropOffset) = some (.text t.storedText) := by
    rw [htype]
    exact ColumnType.comparand?_eq_some.mpr ⟨rfl, rfl⟩
  obtain ⟨condition, hcondition, htest⟩ := compare_comparand how hcell (by simp [htype])
  refine ⟨condition, ?_, htest⟩
  rw [filterCondition_of_asks hasks, hoperators _ _ hhow, htype, coerce_of_readDateTime? ht]
  exact hcondition

namespace Model

variable {model : Model}

/-! ## One row -/

/-- A row with a cell under one name, and with zeros under the names of all other columns. -/
def rowWith (model : Model) (name : String) (cell : Cell) : Row :=
  overlaid [(name, cell)] (model.columns.map fun column => (column.name, .integer 0))

theorem cellAt_rowWith_self (name : String) (cell : Cell) :
    cellAt (model.rowWith name cell) name = cell := by
  simp [rowWith, cellAt_overlaid]

theorem cellAt_rowWith_of_ne {name : String} {cell : Cell} {column : Column}
    (hcolumn : column ∈ model.columns) (hname : column.name ≠ name) :
    cellAt (model.rowWith name cell) column.name = .integer 0 := by
  have hother : (column.name == name) = false := by simpa using hname
  rw [rowWith, cellAt_overlaid, List.lookup_cons, hother, List.lookup_nil, Option.getD_none, cellAt]
  cases hlookup : (model.columns.map fun column => (column.name, Cell.integer 0)).lookup
      column.name with
  | none =>
      have hmem := List.mem_map_of_mem (f := fun column => (column.name, Cell.integer 0)) hcolumn
      have := List.lookup_eq_none_iff.mp hlookup _ hmem
      simp at this
  | some zero =>
      obtain ⟨_, _, hzero⟩ := List.mem_map.mp (Association.mem_of_lookup hlookup)
      exact (Prod.mk.inj hzero).2.symm

/-- A table may hold nothing but a row that has no number under the name of its key only if rows
are not numbered. -/
theorem accepts_rowWith (hmodel : model.WellFormed) {column : Column}
    (hcolumn : column ∈ model.columns) (htype : column.type ≠ .integer) {cell : Cell}
    (hcell : cell ≠ .null) : model.accepts [model.rowWith column.name cell] = true := by
  have hpresent {other : Column} (hother : other ∈ model.columns) :
      cellAt (model.rowWith column.name cell) other.name ≠ .null := by
    by_cases hname : other.name = column.name
    · rwa [hname, cellAt_rowWith_self]
    · rw [cellAt_rowWith_of_ne hother hname]
      simp
  rw [accepts, accepts, List.all_nil, Bool.and_true, Bool.and_true, complete, Bool.and_eq_true]
  constructor
  · rw [keyOf]
    by_cases hkey : model.key.name = column.name
    · have hunnumbered : model.numbersRows = false := by
        have hsame : model.key = column :=
          List.inj_on_of_nodup_map hmodel.names hmodel.key hcolumn hkey
        simpa [numbersRows, hsame] using htype
      rw [hkey, cellAt_rowWith_self]
      cases cell <;> simp_all
    · rw [cellAt_rowWith_of_ne hmodel.key hkey]
  · rw [List.all_eq_true]
    intro other hother
    simp [Cell.isNull_eq_false.mpr (hpresent hother)]

/-- What is listed of one row that alone is in a table. -/
theorem exec_list_alone (idColumn : Column) (row : Row) {spec : Datum} {condition : Condition}
    {test : Row → Bool}
    (hcondition : filterCondition standardOperators model spec = .ok condition)
    (htest : condition.test = .ok test) :
    let session : Session := { tables := [(model.name, [row])] }
    ∃ page, exec (model.list idColumn { filter := .list [spec] }) session = (.ok page, session) ∧
      (edgesOf page).length = if test row then 1 else 0 := by
  intro session
  have hrows : model.inOrder (session.rows model) = [row] := by
    rw [show session.rows model = [row] by simp [session, Session.rows]]
    exact List.perm_singleton.mp (model.inOrder_perm [row])
  have hmatching : model.matching session (.list [spec]) = .ok ([row].filter test) := by
    have hconditions : [spec].mapM (filterCondition session.operators model) = .ok [condition] := by
      simp [session, hcondition, bind, Except.bind, pure, Except.pure]
    have htests : [condition].mapM Condition.test = .ok [test] := by
      simp [htest, bind, Except.bind, pure, Except.pure]
    rw [matching_of_tests rfl (.inl rfl) hconditions htests, hrows]
    simp [passesAll, List.filter_cons]
  have hlisted : model.listed idColumn session (.list [spec]) .null = .ok ([row].filter test) := by
    refine model.listed_eq_ok.mpr ⟨_, _, hmatching, rfl, ?_⟩
    cases hpasses : test row <;> simp [hpasses]
  cases hpasses : test row with
  | false =>
      rw [List.filter_cons, hpasses] at hlisted
      refine ⟨_, exec_list_page hlisted rfl rfl rfl, ?_⟩
      rfl
  | true =>
      rw [List.filter_cons, hpasses] at hlisted
      refine ⟨_, exec_list_page hlisted rfl rfl rfl, ?_⟩
      rfl

/-- One of the filters may be exchanged for another from which every table of operators makes the
same condition. -/
theorem exec_list_congr (idColumn : Column) {first second : Datum}
    (h : ∀ operators, filterCondition operators model first =
      filterCondition operators model second)
    (front behind : List Datum) (options : ListOptions) (session : Session) :
    exec (model.list idColumn { options with filter := .list (front ++ first :: behind) }) session =
      exec (model.list idColumn { options with filter := .list (front ++ second :: behind) })
        session := by
  have hmatching : model.matching session (.list (front ++ first :: behind)) =
      model.matching session (.list (front ++ second :: behind)) := by
    simp only [matching, specItems_of_lists (.inl rfl), bind, Except.bind, List.mapM_append,
      List.mapM_cons, h]
  rw [exec_list, exec_list]
  simp only [listed, hmatching]
  rfl

end Model

/-! ## Values of one instant -/

/-- Two texts are read as dates and times of one instant, each with an offset. -/
structure OneInstant (first second : String) (t u : DateTime) (offset other : Int) : Prop where
  first : readDateTime? first = some t
  second : readDateTime? second = some u
  firstOffset : t.offset = some offset
  secondOffset : u.offset = some other
  same : t.instant? = u.instant?

theorem OneInstant.dropOffset_eq_iff {first second : String} {t u : DateTime} {offset other : Int}
    (h : OneInstant first second t u offset other) : t.dropOffset = u.dropOffset ↔ offset = other :=
  DateTime.dropOffset_eq_iff_of_instant? (isValid_of_readDateTime? h.first)
    (isValid_of_readDateTime? h.second) h.firstOffset h.secondOffset h.same

namespace Model

variable {model : Model} {column : Column} {name first second : String}
  {t u : DateTime} {offset other : Int} {a b : Datum}

/-- Values of one instant with one offset are the same to every filter. -/
theorem filterCondition_of_oneInstant (h : OneInstant first second t u offset other)
    (htype : column.type = .dateTime false) (ha : Asks model a column name first)
    (hb : Asks model b column name second) (hoffset : offset = other) (operators : OperatorTable) :
    filterCondition operators model a = filterCondition operators model b := by
  rw [filterCondition_of_asks ha, filterCondition_of_asks hb, htype,
    coerce_of_readDateTime? h.first, coerce_of_readDateTime? h.second,
    h.dropOffset_eq_iff.mpr hoffset]

/-- Where offsets differ, there is a table of one row that one comparison lists and the other does
not. -/
theorem exec_list_apart (idColumn : Column) (h : OneInstant first second t u offset other)
    (hmodel : model.WellFormed)
    (htype : column.type = .dateTime false) (ha : Asks model a column name first)
    (hb : Asks model b column name second) {how : Comparison}
    (hhow : comparisons.lookup name = some how) (hoffset : offset ≠ other) :
    ∃ session : Session, model.accepts (session.rows model) = true ∧
      exec (model.list idColumn { filter := .list [a] }) session ≠
        exec (model.list idColumn { filter := .list [b] }) session := by
  -- One of the two dates and times that are compared with makes up the row.
  have hcells : (Cell.text t.storedText).compare (.text u.storedText) ≠ .eq := fun heq =>
    hoffset (h.dropOffset_eq_iff.mp (compare_storedText (isValid_of_readDateTime? h.first)
      (isValid_of_readDateTime? h.second) heq))
  obtain ⟨own, hown, hbetween⟩ :=
    between_apart (ne_different_of_lookup hhow) (by simp) (by simp) hcells
  obtain ⟨condition, hcondition, htest⟩ :=
    condition_of_readDateTime? htype comparing_standard ha hhow h.first
  obtain ⟨condition', hcondition', htest'⟩ :=
    condition_of_readDateTime? htype comparing_standard hb hhow h.second
  obtain ⟨page, hpage, hlength⟩ :=
    exec_list_alone idColumn (model.rowWith column.name own) hcondition htest
  obtain ⟨page', hpage', hlength'⟩ :=
    exec_list_alone idColumn (model.rowWith column.name own) hcondition' htest'
  refine ⟨{ tables := [(model.name, [model.rowWith column.name own])] }, ?_, ?_⟩
  · have haccepts := accepts_rowWith hmodel (mem_of_specColumn ha.named) (by simp [htype]) hown
    simpa [Session.rows] using haccepts
  · rw [hpage, hpage']
    intro hsame
    have hpages : page = page' := Except.ok.inj (Prod.mk.inj hsame).1
    rw [hpages, hlength'] at hlength
    rw [cellAt_rowWith_self] at hlength hlength'
    cases hfirst : how.between own (.text t.storedText) <;>
      cases hsecond : how.between own (.text u.storedText) <;> simp_all

/-- What becomes of offsets in filters by a column without time zone. A text that spells a date and
time with its offset is read as what it spells, and without its offset it is what the column is
compared with. Two texts that are read as dates and times of one instant are left apart by just the
difference of their offsets. If they have one offset, they can stand for one another in any filter;
and a comparison lists the same of every table with both if and only if they have. -/
theorem list_drops_offsets :
    (∀ (t : DateTime) (text : String), t.Spells text →
      readDateTime? text = some t ∧
      coerce (some (.dateTime false)) (.text text) = .dateTime t.dropOffset) ∧
    ∀ (first second : String) (t u : DateTime) (offset other : Int),
      OneInstant first second t u offset other →
      coerce (some (.dateTime false)) (.text first) = .dateTime t.dropOffset ∧
      coerce (some (.dateTime false)) (.text second) = .dateTime u.dropOffset ∧
      t.dropOffset.reading - u.dropOffset.reading = offset - other ∧
      (t.dropOffset = u.dropOffset ↔ offset = other) ∧
      ∀ (model : Model) (idColumn column : Column) (name : String) (a b : Datum),
        column.type = .dateTime false → Asks model a column name first →
        Asks model b column name second →
        (offset = other →
          ∀ (front behind : List Datum) (options : ListOptions) (session : Session),
            exec (model.list idColumn { options with filter := .list (front ++ a :: behind) })
                session =
              exec (model.list idColumn { options with filter := .list (front ++ b :: behind) })
                session) ∧
        ∀ how, model.WellFormed → comparisons.lookup name = some how →
          ((∀ session : Session, model.accepts (session.rows model) = true →
              exec (model.list idColumn { filter := .list [a] }) session =
                exec (model.list idColumn { filter := .list [b] }) session) ↔
            offset = other) := by
  refine ⟨fun t text hspells => ⟨hspells.read, coerce_of_readDateTime? hspells.read⟩, ?_⟩
  intro first second t u offset other h
  refine ⟨coerce_of_readDateTime? h.first, coerce_of_readDateTime? h.second,
    (DateTime.instant?_eq_iff h.firstOffset h.secondOffset).mp h.same, h.dropOffset_eq_iff, ?_⟩
  intro model idColumn column name a b htype ha hb
  have hsame (hoffset : offset = other) :=
    exec_list_congr idColumn (filterCondition_of_oneInstant h htype ha hb hoffset)
  refine ⟨hsame, fun how hmodel hhow => ⟨fun hlists => ?_, fun hoffset session _ => ?_⟩⟩
  · by_contra hoffset
    obtain ⟨session, haccepts, hapart⟩ :=
      exec_list_apart idColumn h hmodel htype ha hb hhow hoffset
    exact hapart (hlists session haccepts)
  · exact hsame hoffset [] [] {} session

/-- Midnight of a new year, as it is said two hours ahead of universal time and as it is said in
universal time. -/
theorem list_drops_offsets_newYear :
    let model : Model := ⟨"Event",
      [⟨"event_id", .integer, false⟩, ⟨"starts_at", .dateTime false, false⟩],
      ⟨"event_id", .integer, false⟩⟩
    let spec (value : String) : Datum := .record [("field", .text "startsAt"), ("op", .text "lte"),
      ("value", .text value)]
    coerce (some (.dateTime false)) (.text "2024-01-01T00:00:00+02:00") =
      .dateTime ⟨2024, 1, 1, 0, 0, 0, 0, none⟩ ∧
    coerce (some (.dateTime false)) (.text "2023-12-31T22:00:00Z") =
      .dateTime ⟨2023, 12, 31, 22, 0, 0, 0, none⟩ ∧
    ¬ ∀ session : Session, model.accepts (session.rows model) = true →
      exec (model.list model.key { filter := .list [spec "2024-01-01T00:00:00+02:00"] }) session =
        exec (model.list model.key { filter := .list [spec "2023-12-31T22:00:00Z"] }) session := by
  intro model spec
  have hinstant : OneInstant "2024-01-01T00:00:00+02:00" "2023-12-31T22:00:00Z"
      ⟨2024, 1, 1, 0, 0, 0, 0, some (60000000 * 120)⟩ ⟨2023, 12, 31, 22, 0, 0, 0, some 0⟩
      (60000000 * 120) 0 :=
    ⟨by decide +kernel, by decide +kernel, rfl, rfl, by decide⟩
  obtain ⟨hfirst, hsecond, -, -, hlists⟩ := list_drops_offsets.2 _ _ _ _ _ _ hinstant
  have hlte := (hlists model model.key ⟨"starts_at", .dateTime false, false⟩ "LTE"
    (spec "2024-01-01T00:00:00+02:00") (spec "2023-12-31T22:00:00Z") rfl
    ⟨rfl, ⟨_, rfl, rfl⟩, rfl⟩ ⟨rfl, ⟨_, rfl, rfl⟩, rfl⟩).2 .atMost ⟨by decide, by decide⟩ rfl
  refine ⟨hfirst, hsecond, ?_⟩
  rw [hlte]
  decide

/-- An event that starts at an instant is listed by a filter for that instant in universal time, and
not by a filter for it two hours ahead of universal time. -/
theorem list_misses_newYear :
    let model : Model := ⟨"Event",
      [⟨"event_id", .integer, false⟩, ⟨"starts_at", .dateTime false, false⟩],
      ⟨"event_id", .integer, false⟩⟩
    let spec (value : String) : Datum := .record [("field", .text "startsAt"), ("op", .text "EQ"),
      ("value", .text value)]
    let session : Session := { tables := [("Event",
      [[("event_id", .integer 1), ("starts_at", .text "2023-12-31 22:00:00.000000")]])] }
    OneInstant "2023-12-31T22:00:00Z" "2024-01-01T00:00:00+02:00"
      ⟨2023, 12, 31, 22, 0, 0, 0, some 0⟩ ⟨2024, 1, 1, 0, 0, 0, 0, some 7200000000⟩ 0 7200000000 ∧
    coerce (some (.dateTime false)) (.text "2023-12-31T22:00:00Z") ≠
      coerce (some (.dateTime false)) (.text "2024-01-01T00:00:00+02:00") ∧
    (∃ page, exec (model.list model.key { filter := .list [spec "2023-12-31T22:00:00Z"] }) session =
      (.ok page, session) ∧ (edgesOf page).length = 1) ∧
    ∃ page, exec (model.list model.key { filter := .list [spec "2024-01-01T00:00:00+02:00"] })
      session = (.ok page, session) ∧ (edgesOf page).length = 0 := by
  intro model spec session
  have hinstant : OneInstant "2023-12-31T22:00:00Z" "2024-01-01T00:00:00+02:00"
      ⟨2023, 12, 31, 22, 0, 0, 0, some 0⟩ ⟨2024, 1, 1, 0, 0, 0, 0, some 7200000000⟩
      0 7200000000 := ⟨by decide +kernel, by decide +kernel, rfl, rfl, by decide⟩
  have hasks (value : String) :
      Asks model (spec value) ⟨"starts_at", .dateTime false, false⟩ "EQ" value :=
    ⟨rfl, ⟨_, rfl, rfl⟩, rfl⟩
  obtain ⟨_, hcondition, htest⟩ :=
    condition_of_readDateTime? rfl comparing_standard (hasks _) rfl hinstant.first
  obtain ⟨_, hcondition', htest'⟩ :=
    condition_of_readDateTime? rfl comparing_standard (hasks _) rfl hinstant.second
  refine ⟨hinstant, ?_, ?_, ?_⟩
  · rw [coerce_of_readDateTime? hinstant.first, coerce_of_readDateTime? hinstant.second]
    decide
  · obtain ⟨page, hpage, hlength⟩ := exec_list_alone model.key
      [("event_id", .integer 1), ("starts_at", .text "2023-12-31 22:00:00.000000")]
      hcondition htest
    exact ⟨page, hpage, hlength.trans (by decide)⟩
  · obtain ⟨page, hpage, hlength⟩ := exec_list_alone model.key
      [("event_id", .integer 1), ("starts_at", .text "2023-12-31 22:00:00.000000")]
      hcondition' htest'
    exact ⟨page, hpage, hlength.trans (by decide)⟩

end Model

end RecordApi.Table
