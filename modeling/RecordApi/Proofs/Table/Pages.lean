import RecordApi.Binding.Operation
import RecordApi.Proofs.Table.Comparands
import RecordApi.Proofs.Table.Walks

/-!
# What a page shows

Filters and orders say which rows are listed and how they are sorted. Cursors and page sizes say
which part of the sorted rows is shown. The rows are settled before the part is, so the same rows
stand behind every page.
-/

namespace RecordApi.Table

open RecordApi.Action Paging Std

/-! ## Filters and orders as they are meant -/

/-- The comparisons that filters can name. -/
def comparisons : List (String × Comparison) :=
  [("LT", .less), ("LTE", .atMost), ("EQ", .equal), ("GTE", .atLeast), ("GT", .greater)]

/-- The orders in which two values compare so. -/
def Comparison.orders : Comparison → List Ordering
  | .less => [.lt]
  | .atMost => [.lt, .eq]
  | .equal => [.eq]
  | .different => [.lt, .gt]
  | .atLeast => [.eq, .gt]
  | .greater => [.gt]

/-- A filter: the cell of a column compares so with a cell. -/
structure Filter where
  column : Column
  how : Comparison
  cell : Cell

/-- Whether a row satisfies a filter. Where nothing is stored nothing is satisfied. -/
def Filter.Holds (filter : Filter) (row : Row) : Prop :=
  let own := cellAt row filter.column.name
  own ≠ .null ∧ filter.cell ≠ .null ∧ own.compare filter.cell ∈ filter.how.orders

instance (filter : Filter) (row : Row) : Decidable (filter.Holds row) :=
  inferInstanceAs (Decidable (_ ∧ _ ∧ _))

/-- The filter that a spec means: it names a column and a comparison, and its value reads as one of
the column's type. Truth values can only be compared for equality. -/
def readFilter? (model : Model) (spec : Datum) : Option Filter := do
  let entries ← spec.entries?
  let field ← (← Entries.get? entries "field").text?
  let column ← (model.columnOf field).toOption
  let how ← comparisons.lookup
    (String.ofList (Text.upper (← Entries.get? entries "op").plainText.toList))
  let cell ← column.type.comparand? (coerce (some column.type) (← Entries.get? entries "value"))
  if column.type = .boolean ∧ how ≠ .equal then none else some ⟨column, how, cell⟩

/-- The order that a spec means: it names a column, and it may ask for descending order. -/
def readOrder? (model : Model) (spec : Datum) : Option SortKey := do
  let entries ← spec.entries?
  let field ← (← Entries.get? entries "field").text?
  let column ← (model.columnOf field).toOption
  return ⟨column, isTrue (Entries.get entries "desc")⟩

/-- A list of specs; a missing one is as good as an empty one. -/
def Lists (option : Datum) (specs : List Datum) : Prop :=
  option = .list specs ∨ option = .null ∧ specs = []

/-- A row comes before another: of the columns that tell them apart, the first does so in the
direction that is asked for. -/
def Precedes (keys : List SortKey) (a b : Row) : Prop :=
  ∃ front key behind, keys = front ++ key :: behind ∧
    (∀ other ∈ front,
      (cellAt a other.column.name).compare (cellAt b other.column.name) = .eq) ∧
    (cellAt a key.column.name).compare (cellAt b key.column.name) =
      if key.descending then .gt else .lt

/-! ## Reading them -/

theorem between_eq_decide (filter : Filter) (row : Row) :
    filter.how.between (cellAt row filter.column.name) filter.cell = decide (filter.Holds row) := by
  have hnull (cell : Cell) : (!cell.isNull) = decide (cell ≠ .null) := by
    simp [← Cell.isNull_eq_false]
  have horders (o : Ordering) : filter.how.holds o = decide (o ∈ filter.how.orders) := by
    cases filter.how <;> cases o <;> rfl
  rw [Bool.eq_iff_iff, decide_eq_true_iff]
  simp [Comparison.between, Filter.Holds, hnull, horders, and_assoc]

/-- Operators under which the named comparisons are kept. -/
def Comparing (operators : OperatorTable) : Prop :=
  ∀ name how, comparisons.lookup name = some how →
    operators.lookup name = some (Operator.compare how)

theorem comparing_standard : Comparing standardOperators := by
  intro name how h
  simp only [comparisons, standardOperators, List.lookup_cons, List.lookup_nil] at h ⊢
  repeat' split at h
  all_goals simp_all

theorem eq_record {spec : Datum} {entries : Datum.Entries} (h : spec.entries? = some entries) :
    spec = .record entries := by
  cases spec with
  | record more =>
      cases h
      rfl
  | _ => cases h

theorem specEntry_record {entries : Datum.Entries} {name : String} {value : Datum}
    (h : Entries.get? entries name = some value) :
    specEntry (.record entries) name = .ok value := by
  simp [specEntry, h]

theorem toOption_eq_some {α : Type} {outcome : Except Failure α} {a : α}
    (h : outcome.toOption = some a) : outcome = .ok a := by
  cases outcome with
  | error failure => cases h
  | ok b =>
      cases h
      rfl

/-- The column that a spec names. -/
theorem specColumn_record {model : Model} {entries : Datum.Entries} {value : Datum} {field : String}
    {column : Column} (hvalue : Entries.get? entries "field" = some value)
    (hfield : value.text? = some field) (hcolumn : (model.columnOf field).toOption = some column) :
    specColumn model (.record entries) = .ok column := by
  obtain rfl : value = .text field := by
    cases value with
    | text s =>
        cases hfield
        rfl
    | _ => cases hfield
  rw [specColumn, specEntry_record hvalue]
  exact toOption_eq_some hcolumn

/-- A filter that means something is a condition that tests for what it means. -/
theorem filterCondition_of_read {operators : OperatorTable} {model : Model} {spec : Datum}
    {filter : Filter} (hoperators : Comparing operators)
    (h : readFilter? model spec = some filter) :
    ∃ condition, filterCondition operators model spec = .ok condition ∧
      condition.test = .ok fun row => decide (filter.Holds row) := by
  simp only [readFilter?, Option.bind_eq_bind, Option.bind_eq_some_iff] at h
  obtain ⟨entries, hentries, named, hnamed, field, hfield, column, hcolumn, op, hop, how, hhow,
    value, hvalue, cell, hcell, h⟩ := h
  obtain rfl := eq_record hentries
  split at h
  · cases h
  · next hboolean =>
    cases h
    obtain ⟨condition, hcondition, htest⟩ := compare_comparand how hcell
      fun ht => Classical.not_not.mp fun hne => hboolean ⟨ht, hne⟩
    refine ⟨condition, ?_, ?_⟩
    · simp only [filterCondition, specColumn_record hnamed hfield hcolumn,
        specEntry_record hop, specEntry_record hvalue, bind, Except.bind,
        hoperators _ _ hhow, hcondition]
    · rw [htest]
      congr 1
      funext row
      exact between_eq_decide ⟨column, how, cell⟩ row

/-- The tests of filters that mean something. -/
theorem conditions_of_read {operators : OperatorTable} {model : Model} {specs : List Datum}
    {filters : List Filter} (hoperators : Comparing operators)
    (h : specs.mapM (readFilter? model) = some filters) :
    ∃ conditions, specs.mapM (filterCondition operators model) = .ok conditions ∧
      conditions.mapM Condition.test =
        .ok (filters.map fun filter row => decide (filter.Holds row)) := by
  induction specs generalizing filters with
  | nil =>
      cases h
      exact ⟨[], rfl, rfl⟩
  | cons spec specs ih =>
      rw [List.mapM_cons] at h
      simp only [Option.bind_eq_bind, Option.bind_eq_some_iff] at h
      obtain ⟨filter, hfilter, more, hmore, hfilters⟩ := h
      cases hfilters
      obtain ⟨condition, hcondition, htest⟩ := filterCondition_of_read hoperators hfilter
      obtain ⟨conditions, hconditions, htests⟩ := ih hmore
      refine ⟨condition :: conditions, ?_, ?_⟩
      · simp [List.mapM_cons, hcondition, hconditions, bind, Except.bind, pure, Except.pure]
      · simp [List.mapM_cons, htest, htests, bind, Except.bind, pure, Except.pure]

theorem specItems_of_lists {option : Datum} {specs : List Datum} (h : Lists option specs) :
    specItems option = .ok specs := by
  rcases h with rfl | ⟨rfl, rfl⟩
  · cases specs <;> rfl
  · rfl

/-- The matching rows are those of the table that pass the tests of all filters. -/
theorem matching_of_tests {model : Model} {session : Session} {option : Datum} {specs : List Datum}
    {conditions : List Condition} {tests : List (Row → Bool)} (hready : session.waiting = false)
    (hlists : Lists option specs)
    (hconditions : specs.mapM (filterCondition session.operators model) = .ok conditions)
    (htests : conditions.mapM Condition.test = .ok tests) :
    model.matching session option =
      .ok ((model.inOrder (session.rows model)).filter (Model.passesAll tests)) := by
  have hreadable : session.readable model = .ok (model.inOrder (session.rows model)) := by
    simp [Session.readable, hready]
  simp only [Model.matching, specItems_of_lists hlists, hconditions, htests, hreadable, bind,
    Except.bind, pure, Except.pure]

/-- The matching rows are those of the table that satisfy all filters. -/
theorem matching_of_read {model : Model} {session : Session} {option : Datum} {specs : List Datum}
    {filters : List Filter} (hready : session.waiting = false)
    (hoperators : Comparing session.operators) (hlists : Lists option specs)
    (h : specs.mapM (readFilter? model) = some filters) :
    model.matching session option =
      .ok ((model.inOrder (session.rows model)).filter fun row =>
        filters.all fun filter => filter.Holds row) := by
  obtain ⟨conditions, hconditions, htests⟩ := conditions_of_read hoperators h
  rw [matching_of_tests hready hlists hconditions htests]
  congr 2
  funext row
  simp [Model.passesAll, Function.comp_def]

theorem sortKey_of_read {model : Model} {spec : Datum} {key : SortKey}
    (h : readOrder? model spec = some key) : sortKey model spec = .ok key := by
  simp only [readOrder?, Option.bind_eq_bind, Option.bind_eq_some_iff] at h
  obtain ⟨entries, hentries, named, hnamed, field, hfield, column, hcolumn, h⟩ := h
  obtain rfl := eq_record hentries
  cases h
  rw [sortKey, specColumn_record hnamed hfield hcolumn]
  rfl

theorem listKeys_of_read {model : Model} {idColumn : Column} {option : Datum} {specs : List Datum}
    {keys : List SortKey} (hlists : Lists option specs)
    (h : specs.mapM (readOrder? model) = some keys) :
    model.listKeys idColumn option = .ok (keys ++ [⟨idColumn, false⟩]) := by
  have hkeys : specs.mapM (sortKey model) = .ok keys := by
    induction specs generalizing keys option with
    | nil =>
        cases h
        rfl
    | cons spec specs ih =>
        rw [List.mapM_cons] at h
        simp only [Option.bind_eq_bind, Option.bind_eq_some_iff] at h
        obtain ⟨key, hkey, more, hmore, hkeys⟩ := h
        cases hkeys
        simp [List.mapM_cons, sortKey_of_read hkey, ih (.inl rfl) hmore, bind, Except.bind, pure,
          Except.pure]
  simp only [Model.listKeys, specItems_of_lists hlists, hkeys, bind, Except.bind]
  rfl

/-! ## Order -/

theorem not_precedes_nil (a b : Row) : ¬ Precedes [] a b := by
  rintro ⟨front, key, behind, hkeys, -⟩
  simp at hkeys

theorem precedes_cons (key : SortKey) (keys : List SortKey) (a b : Row) :
    Precedes (key :: keys) a b ↔
      (cellAt a key.column.name).compare (cellAt b key.column.name) =
          (if key.descending then .gt else .lt) ∨
        (cellAt a key.column.name).compare (cellAt b key.column.name) = .eq ∧
          Precedes keys a b := by
  constructor
  · rintro ⟨front, other, behind, hkeys, hfront, hother⟩
    cases front with
    | nil =>
        cases hkeys
        exact .inl hother
    | cons first front =>
        cases hkeys
        exact .inr ⟨hfront _ List.mem_cons_self,
          front, other, behind, rfl, fun k hk => hfront k (List.mem_cons_of_mem _ hk), hother⟩
  · rintro (hkey | ⟨hkey, front, other, behind, rfl, hfront, hother⟩)
    · exact ⟨[], key, keys, rfl, by simp, hkey⟩
    · refine ⟨key :: front, other, behind, rfl, ?_, hother⟩
      intro k hk
      rcases List.mem_cons.mp hk with rfl | hk
      · exact hkey
      · exact hfront k hk

/-- Rows are compared by columns as they are meant to be. -/
theorem compareBy_eq_lt_iff (keys : List SortKey) (a b : Row) :
    SortKey.compareBy keys a b = .lt ↔ Precedes keys a b := by
  induction keys with
  | nil => simp [not_precedes_nil]
  | cons key keys ih =>
      rw [SortKey.compareBy_cons, precedes_cons, ← ih, Ordering.then_eq_lt]
      cases hdesc : key.descending with
      | false => simp [SortKey.compare, hdesc]
      | true => simp [SortKey.compare, hdesc]

/-- Rows are sorted just if none precedes a row before it. -/
theorem sorted_iff (keys : List SortKey) (rows : List Row) :
    SortKey.Sorted keys rows ↔ rows.Pairwise fun a b => ¬ Precedes keys b a := by
  have hle (a b : Row) : (SortKey.compareBy keys a b).isLE = true ↔ ¬ Precedes keys b a := by
    rw [← compareBy_eq_lt_iff, ← OrientedCmp.gt_iff_lt]
    cases SortKey.compareBy keys a b <;> simp
  simp only [SortKey.Sorted, hle]

/-! ## Windows -/

theorem start_windowBetween_le {total bound : Int} {after before first last : Option Int}
    (htotal : total ≤ bound) (hafter : ∀ n, after = some n → n < bound) (hbound : 0 ≤ bound)
    (hlast : ∀ n, last = some n → 0 ≤ n) :
    (windowBetween total after before first last).start ≤ bound := by
  unfold windowBetween
  cases after <;> cases before <;> cases first <;> cases last <;> grind

/-- A window is no larger than either page size. -/
theorem size_windowBetween_le (total : Int) (after before : Option Int) {most : Int}
    {first last : Option Int} (hmost : 0 ≤ most)
    (h : (∃ n, first = some n ∧ n ≤ most) ∨ ∃ n, last = some n ∧ n ≤ most) :
    (windowBetween total after before first last).stop -
      (windowBetween total after before first last).start ≤ most := by
  unfold windowBetween
  cases after <;> cases before <;> cases first <;> cases last <;> grind

theorem clampSize_eq_some {size : Option Int} {most n : Int} (hmost : 1 ≤ most)
    (h : clampSize size most = some n) : 1 ≤ n ∧ n ≤ most := by
  cases size with
  | none => cases h
  | some k =>
      simp only [clampSize] at h
      split at h
      · cases h
      · cases h
        omega

theorem clampSize_of_pos {k most : Int} (hk : 0 < k) :
    clampSize (some k) most = some (min k most) := by
  simp [clampSize, show ¬ k ≤ 0 by omega]

/-- Options whose cursors can be read, and the one to start after names an offset that has a next
one within a word. -/
structure ReadableCursors (options : ListOptions) : Prop where
  before : ∃ offset, Model.Points options.before offset
  after : ∃ offset, Model.Points (Model.afterOf options) offset ∧
    ∀ n, offset = some n → n < mostWord

/-- A page shows the rows of a list from one offset up to but not including another: for each of
them there is an edge with its record and a cursor that names its offset, and the flags say whether
there are rows behind and before them. -/
structure Shows (model : Model) (rows : List Row) (start stop : Nat) (page : Datum) : Prop where
  count : (edgesOf page).length = (between start stop rows).length
  edge : ∀ i row, (between start stop rows)[i]? = some row → ∃ cursor,
    (edgesOf page)[i]? =
      some (.record [("node", .record (model.record row)), ("cursor", .text cursor)]) ∧
    decodeCursor cursor = .ok (start + i)
  next : flagOf page "hasNextPage" = .bool (decide (stop < rows.length))
  previous : flagOf page "hasPreviousPage" = .bool (decide (0 < start))

theorem shows_page (model : Model) {rows : List Row} (hsize : (rows.length : Int) ≤ mostWord)
    (start stop : Nat) : Shows model rows start stop (model.page rows ⟨start, stop⟩) where
  count := by
    rw [Model.edgesOf_page, length_between, length_between, Model.length_edges]
  edge i row hrow := by
    rw [getElem?_between] at hrow
    split at hrow
    · next hstop =>
      have hlt : start + i < rows.length := (List.getElem?_eq_some_iff.mp hrow).1
      refine ⟨encodeCursor ((start + i : Nat) : Int), ?_, decodeCursor_encodeCursor_of_lt ?_⟩
      · rw [Model.edgesOf_page, getElem?_between, if_pos hstop, Model.getElem?_edges, hrow]
        rfl
      · simp only [mostWord] at hsize
        omega
    · cases hrow
  next := Model.flagOf_page_next model rows start stop
  previous := Model.flagOf_page_previous model rows start stop

namespace Model

/-- The window of a list, and the page that is shown for it. The offset that a window starts at goes
to the database, which takes no more than one word. -/
theorem exec_list_windowed {model : Model} {idColumn : Column} {session : Session}
    {options : ListOptions} {after before : Option Int} {rows : List Row}
    (hlisted : model.listed idColumn session options.filter options.order = .ok rows)
    (hafter : Points (afterOf options) after) (hbefore : Points options.before before) :
    ∃ start stop : Nat,
      windowBetween rows.length after before (options.first.or options.limit) options.last =
        ⟨start, stop⟩ ∧
      exec (model.list idColumn options) session =
        (if (start : Int) ≤ mostWord then .ok (model.page rows ⟨start, stop⟩)
          else .error .tooLarge, session) := by
  obtain ⟨⟨start, stop⟩, hwindow⟩ : ∃ window, windowBetween rows.length after before
    (options.first.or options.limit) options.last = window := ⟨_, rfl⟩
  have hnonneg := start_windowBetween_nonneg rows.length after before
    (options.first.or options.limit) options.last
  have hle := start_le_stop_windowBetween rows.length after before
    (options.first.or options.limit) options.last
  rw [hwindow] at hnonneg hle
  obtain ⟨start, rfl⟩ := Int.eq_ofNat_of_zero_le hnonneg
  obtain ⟨stop, rfl⟩ := Int.eq_ofNat_of_zero_le (Int.le_trans hnonneg hle)
  refine ⟨start, stop, hwindow, ?_⟩
  by_cases hword : (start : Int) ≤ mostWord
  · rw [if_pos hword]
    exact exec_list_page hlisted rfl rfl (window_of_between hafter hbefore hwindow hword)
  · have hfits : fitsWord (start : Int) = false := by simp [fitsWord, hword]
    rw [if_neg hword, exec_list, hlisted]
    simp [window_eq hafter hbefore rows.length hwindow, hfits, bind, Except.bind]

/-- The page of rows that are listed, for options that are valid. -/
theorem exec_list_valid {model : Model} {idColumn : Column} {session : Session}
    (options : ListOptions) {rows : List Row}
    (hlisted : model.listed idColumn session options.filter options.order = .ok rows)
    (hsize : (rows.length : Int) ≤ mostWord) (hcursors : ReadableCursors options)
    (hlast : ∀ n, options.last = some n → 0 ≤ n) :
    ∃ (start stop : Nat) (after before : Option Int),
      windowBetween rows.length after before (options.first.or options.limit) options.last =
        ⟨start, stop⟩ ∧
      pageWindow rows.length (boundsOf options) = .ok ⟨start, stop⟩ ∧
      exec (model.list idColumn options) session =
        (.ok (model.page rows ⟨start, stop⟩), session) := by
  obtain ⟨before, hbefore⟩ := hcursors.before
  obtain ⟨after, hafter, hmost⟩ := hcursors.after
  obtain ⟨start, stop, hwindow, hexec⟩ := exec_list_windowed hlisted hafter hbefore
  have hword : (windowBetween rows.length after before (options.first.or options.limit)
      options.last).start ≤ mostWord :=
    start_windowBetween_le hsize hmost (by unfold mostWord; omega) hlast
  rw [hwindow] at hword
  rw [if_pos hword] at hexec
  exact ⟨start, stop, after, before, hwindow,
    (pageWindow_boundsOf hafter hbefore rows.length).trans (congrArg _ hwindow), hexec⟩

/-- A positive page size is kept by the bound, so that the window is no larger than the bound. -/
theorem size_of_clamp {asked : ListOptions} {most : Int} (hmost : 1 ≤ most)
    (h : ∃ n, 0 < n ∧ (asked.first = some n ∨ asked.last = some n ∨ asked.limit = some n)) :
    (∃ n, (asked.clamp most).first.or (asked.clamp most).limit = some n ∧ n ≤ most) ∨
      ∃ n, (asked.clamp most).last = some n ∧ n ≤ most := by
  obtain ⟨n, hn, hfirst | hlast | hlimit⟩ := h
  · left
    have hclamp : (asked.clamp most).first = some (min n most) := by
      simp [ListOptions.clamp, hfirst, clampSize_of_pos hn]
    exact ⟨min n most, by simp [hclamp], by omega⟩
  · right
    have hclamp : (asked.clamp most).last = some (min n most) := by
      simp [ListOptions.clamp, hlast, clampSize_of_pos hn]
    exact ⟨min n most, hclamp, by omega⟩
  · left
    have hclamp : (asked.clamp most).limit = some (min n most) := by
      simp [ListOptions.clamp, hlimit, clampSize_of_pos hn]
    cases hfirst : (asked.clamp most).first with
    | none => exact ⟨min n most, by simp [hclamp], by omega⟩
    | some k => exact ⟨k, by simp, (clampSize_eq_some hmost hfirst).2⟩

/-- A list through a binding shows no more rows than the binding allows. -/
theorem exec_binding_list {model : Model} {idColumn : Column} {session : Session} {κ : Type}
    {binding : RecordBinding Session κ} {request : Option κ} {arguments : Datum.Entries}
    {asked : ListOptions} {rows : List Row}
    (hcollection : exec (binding.handle.collection request) session =
      (.ok (model.collection idColumn), session))
    (hmost : 1 ≤ binding.mostPerPage) (hasked : asked = ListOptions.ofArguments arguments)
    (hlisted : model.listed idColumn session asked.filter asked.order = .ok rows)
    (hsize : (rows.length : Int) ≤ mostWord) (hcursors : ReadableCursors asked)
    (hpositive : ∃ n, 0 < n ∧
      (asked.first = some n ∨ asked.last = some n ∨ asked.limit = some n)) :
    ∃ page, exec (binding.list request arguments) session = (.ok page, session) ∧
      ((edgesOf page).length : Int) ≤ binding.mostPerPage := by
  have hcursors' : ReadableCursors (asked.clamp binding.mostPerPage) :=
    ⟨hcursors.before, hcursors.after⟩
  obtain ⟨start, stop, after, before, hwindow, -, hexec⟩ :=
    exec_list_valid (asked.clamp binding.mostPerPage) hlisted hsize hcursors'
      fun n hn => by have := (clampSize_eq_some hmost hn).1; omega
  refine ⟨model.page rows ⟨start, stop⟩, ?_, ?_⟩
  · rw [RecordBinding.list, exec_bind, hcollection, after_ok, ← hasked]
    exact hexec
  · have hbound := size_windowBetween_le rows.length after before (by omega)
      (size_of_clamp hmost hpositive)
    rw [hwindow] at hbound
    simp only at hbound
    rw [edgesOf_page, length_between]
    omega

/-- What a list shows, in a session that can work, with the comparisons under their names, and of a
table with no more rows than one word counts. Filters name known columns and comparisons, and their
values read as values of the columns' types; orders name known columns. Then there are rows, all
those of the table that satisfy every filter, in the order that is asked for and by identifier where
it leaves a choice, such that every page is the part of these rows that its window selects, and such
that a list that is asked for through a binding with any positive page size shows no more rows than
the binding allows. -/
theorem list_shows_window (model : Model) (idColumn : Column) (session : Session)
    {filters orders : List Datum} {wanted : List Filter} {keys : List SortKey}
    (hready : session.waiting = false) (hoperators : Comparing session.operators)
    (hsize : ((session.rows model).length : Int) ≤ mostWord)
    (hwanted : filters.mapM (readFilter? model) = some wanted)
    (hkeys : orders.mapM (readOrder? model) = some keys) :
    ∃ rows : List Row,
      rows.Perm ((session.rows model).filter fun row =>
        wanted.all fun filter => filter.Holds row) ∧
      (rows.Pairwise fun a b => ¬ Precedes (keys ++ [⟨idColumn, false⟩]) b a) ∧
      (∀ options : ListOptions, Lists options.filter filters → Lists options.order orders →
        ReadableCursors options → (∀ n, options.last = some n → 0 ≤ n) →
        ∃ (start stop : Nat) (page : Datum),
          pageWindow rows.length (boundsOf options) = .ok ⟨start, stop⟩ ∧
          exec (model.list idColumn options) session = (.ok page, session) ∧
          Shows model rows start stop page) ∧
      (∀ (κ : Type) (binding : RecordBinding Session κ) (request : Option κ)
        (arguments : Datum.Entries) (asked : ListOptions),
        exec (binding.handle.collection request) session =
          (.ok (model.collection idColumn), session) →
        1 ≤ binding.mostPerPage →
        asked = ListOptions.ofArguments arguments →
        Lists asked.filter filters → Lists asked.order orders → ReadableCursors asked →
        (∃ n, 0 < n ∧ (asked.first = some n ∨ asked.last = some n ∨ asked.limit = some n)) →
        ∃ page, exec (binding.list request arguments) session = (.ok page, session) ∧
          ((edgesOf page).length : Int) ≤ binding.mostPerPage) := by
  let satisfies : Row → Bool := fun row => wanted.all fun filter => filter.Holds row
  have hfound : ∀ option, Lists option filters →
      model.matching session option =
        .ok ((model.inOrder (session.rows model)).filter satisfies) :=
    fun option hlists => matching_of_read hready hoperators hlists hwanted
  obtain ⟨rows, hrows⟩ : ∃ rows, rows =
      ((model.inOrder (session.rows model)).filter satisfies).mergeSort fun a b =>
        (SortKey.compareBy (keys ++ [⟨idColumn, false⟩]) a b).isLE := ⟨_, rfl⟩
  have hperm : rows.Perm ((session.rows model).filter satisfies) := by
    rw [hrows]
    exact (List.mergeSort_perm _ _).trans ((model.inOrder_perm _).filter satisfies)
  have hlisted : ∀ options : ListOptions, Lists options.filter filters →
      Lists options.order orders →
      model.listed idColumn session options.filter options.order = .ok rows :=
    fun options hfilter horder => model.listed_eq_ok.mpr
      ⟨_, _, hfound _ hfilter, listKeys_of_read horder hkeys, hrows⟩
  have hcount : (rows.length : Int) ≤ mostWord := by
    have hle := List.length_filter_le satisfies (session.rows model)
    rw [← hperm.length_eq] at hle
    omega
  refine ⟨rows, hperm, ?_, ?_, ?_⟩
  · rw [← sorted_iff, hrows]
    exact SortKey.sorted_mergeSort _ _
  · intro options hfilter horder hcursors hlast
    obtain ⟨start, stop, _, _, _, hpage, hexec⟩ :=
      exec_list_valid options (hlisted options hfilter horder) hcount hcursors hlast
    exact ⟨start, stop, _, hpage, hexec, shows_page model hcount start stop⟩
  · intro κ binding request arguments asked hcollection hmost hasked hfilter horder hcursors
    exact exec_binding_list hcollection hmost hasked (hlisted asked hfilter horder) hcount hcursors

/-- Three gadgets, of which those with a number of at least two are listed one at a time. -/
theorem list_shows_window_gadgets :
    let model : Model := ⟨"Gadget", [⟨"id", .integer, false⟩, ⟨"label", .string, true⟩],
      ⟨"id", .integer, false⟩⟩
    let session : Session := { tables := [("Gadget", [[("id", .integer 3), ("label", .text "c")],
      [("id", .integer 1), ("label", .text "a")], [("id", .integer 2), ("label", .text "b")]])] }
    let filters : List Datum := [.record [("field", .text "id"), ("op", .text "gte"),
      ("value", .text "2")]]
    let orders : List Datum := [.record [("field", .text "label"), ("desc", .bool true)]]
    ∃ page, exec (model.list model.key
        { filter := .list filters, order := .list orders, first := some 1 }) session =
          (.ok page, session) ∧ (edgesOf page).length = 1 := by
  intro model session filters orders
  have hwanted : filters.mapM (readFilter? model) =
      some [⟨⟨"id", .integer, false⟩, .atLeast, .integer 2⟩] := by rfl
  have hkeys : orders.mapM (readOrder? model) = some [⟨⟨"label", .string, true⟩, true⟩] := by rfl
  obtain ⟨rows, hperm, -, hpages, -⟩ := list_shows_window model model.key session rfl
    comparing_standard (by decide) hwanted hkeys
  have htwo : rows.length = 2 := by
    rw [hperm.length_eq]
    decide +kernel
  obtain ⟨start, stop, page, hwindow, hexec, hshows⟩ := hpages
    { filter := .list filters, order := .list orders, first := some 1 } (.inl rfl) (.inl rfl)
    ⟨⟨none, points_null⟩, ⟨none, points_null, by simp⟩⟩ (by simp)
  refine ⟨page, hexec, ?_⟩
  rw [hshows.count, length_between, htwo]
  have hbounds : (start : Int) = 0 ∧ (stop : Int) = 1 := by
    rw [htwo] at hwindow
    have hstarts : (⟨0, 1⟩ : Window) = ⟨start, stop⟩ := Except.ok.inj hwindow
    exact ⟨(Window.mk.inj hstarts).1.symm, (Window.mk.inj hstarts).2.symm⟩
  omega

/-- Not every value of a column's type can be filtered by, and not every offset of one word can be
started after. Truth values are refused in comparisons other than for equality, and the offset after
the greatest one is too large. -/
theorem list_refuses_booleans_and_last_offset :
    let model : Model := ⟨"Event", [⟨"id", .integer, false⟩, ⟨"active", .boolean, false⟩],
      ⟨"id", .integer, false⟩⟩
    let session : Session := { tables := [("Event", [[("id", .integer 1), ("active", .integer 1)],
      [("id", .integer 2), ("active", .integer 0)]])] }
    let filter : Datum := .record [("field", .text "active"), ("op", .text "LT"),
      ("value", .text "true")]
    let cursor := "b2Zmc2V0OjkyMjMzNzIwMzY4NTQ3NzU4MDc="
    coerce (some .boolean) (.text "true") = .bool true ∧
      exec (model.list model.key { filter := .list [filter] }) session =
        (.error .incomparable, session) ∧
      decodeCursor cursor = .ok 9223372036854775807 ∧
      exec (model.list model.key { after := .text cursor }) session =
        (.error .tooLarge, session) := by
  refine ⟨rfl, ?_, ?_, ?_⟩
  · rfl
  · rfl
  · rfl

end Model

end RecordApi.Table
