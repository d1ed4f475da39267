import RecordApi.Proofs.Outcomes
import RecordApi.Proofs.Table.CellOrder
import RecordApi.Proofs.Table.Sessions

/-!
# Lists and their pages

A list is made in two stages. The rows that satisfy the filters are sorted, which has nothing to do
with what page is asked for; and of the sorted rows a window is shown. The edges of a page are the
edges of all sorted rows between the two ends of its window, cursors included.
-/

namespace RecordApi.Table

open RecordApi.Action

/-! ## Parts of a list -/

section Between

variable {α β : Type} {items : List α} {low middle high : Nat}

/-- The items from one offset up to but not including another. -/
def between (low high : Nat) (items : List α) : List α :=
  (items.drop low).take (high - low)

theorem length_between (low high : Nat) (items : List α) :
    (between low high items).length = min (high - low) (items.length - low) := by
  simp [between]

theorem getElem?_between (low high i : Nat) (items : List α) :
    (between low high items)[i]? = if low + i < high then items[low + i]? else none := by
  rw [between, List.getElem?_take, List.getElem?_drop]
  by_cases h : low + i < high
  · rw [if_pos h, if_pos (by omega)]
  · rw [if_neg h, if_neg (by omega)]

theorem between_append (hlow : low ≤ middle) (hhigh : middle ≤ high) :
    between low middle items ++ between middle high items = between low high items := by
  have hsplit : high - low = (middle - low) + (high - middle) := by omega
  have hdrop : items.drop middle = (items.drop low).drop (middle - low) := by
    rw [List.drop_drop]
    congr 1
    omega
  rw [between, between, between, hsplit, hdrop, List.take_add]

theorem between_all : between 0 items.length items = items := by
  simp [between]

end Between

/-! ## The answer of a list -/

/-- The entry of a record under a name. -/
def entryOf (record : Datum) (name : String) : Datum :=
  Entries.get (record.entries?.getD []) name

/-- The edges of a page. -/
def edgesOf (page : Datum) : List Datum :=
  match entryOf page "edges" with
  | .list edges => edges
  | _ => []

/-- What a page says under a name about the list that it is a part of. -/
def flagOf (page : Datum) (name : String) : Datum :=
  entryOf (entryOf page "pageInfo") name

namespace Model

variable (model : Model)

/-- The edge of a row at an offset. -/
def edge (row : Row) (offset : Nat) : Datum :=
  .record
    [("node", .record (model.record row)), ("cursor", .text (Paging.encodeCursor offset))]

/-- The edges of all rows of a list. -/
def edges (rows : List Row) : List Datum :=
  rows.zipIdx.map fun (row, offset) => model.edge row offset

@[simp] theorem length_edges (rows : List Row) : (model.edges rows).length = rows.length := by
  simp [edges]

theorem getElem?_edges (rows : List Row) (i : Nat) :
    (model.edges rows)[i]? = rows[i]?.map fun row => model.edge row i := by
  simp [edges, List.getElem?_zipIdx, Function.comp_def]

/-- The edges of a page are those of the whole list inside its window. -/
theorem edgesOf_page (rows : List Row) (low high : Nat) :
    edgesOf (model.page rows ⟨low, high⟩) = between low high (model.edges rows) := by
  have hcount : ((high : Int) - low).toNat = high - low := by omega
  apply List.ext_getElem?
  intro i
  have hpage : (edgesOf (model.page rows ⟨low, high⟩))[i]? =
      (between low high rows)[i]?.map fun row => model.edge row (low + i) := by
    simp [page, edgesOf, entryOf, Datum.entries?, Entries.get, hcount, edge, between,
      List.getElem?_zipIdx, Function.comp_def]
  rw [hpage, getElem?_between, getElem?_between, getElem?_edges]
  split <;> rfl

theorem flagOf_page_next (rows : List Row) (low high : Nat) :
    flagOf (model.page rows ⟨low, high⟩) "hasNextPage" = .bool (decide (high < rows.length)) := by
  simp [flagOf, entryOf, page, Datum.entries?, Entries.get, Association.lookup_cons]

theorem flagOf_page_previous (rows : List Row) (low high : Nat) :
    flagOf (model.page rows ⟨low, high⟩) "hasPreviousPage" = .bool (decide (0 < low)) := by
  simp [flagOf, entryOf, page, Datum.entries?, Entries.get, Association.lookup_cons]

/-! ## Windows -/

/-- An option that is no cursor, or the cursor of an offset. -/
def Points (option : Datum) (offset : Option Int) : Prop :=
  (option = .null ∧ offset = none) ∨
    ∃ s n, option = .text s ∧ Paging.decodeCursor s = .ok n ∧ offset = some (n : Int)

/-- The bounds that options ask for. `after` wins over the plain cursor, and `first` over the
limit. -/
def boundsOf (options : ListOptions) : Paging.Bounds :=
  { before := options.before.text?
    after := options.after.text?.or options.cursor.text?
    first := options.first.or options.limit
    last := options.last }

theorem Points.decode {option : Datum} {offset : Option Int} (h : Points option offset) :
    cursorOf option = .ok option.text? ∧ Paging.decodeCursor? option.text? = .ok offset := by
  rcases h with ⟨rfl, rfl⟩ | ⟨s, n, rfl, hs, rfl⟩
  · exact ⟨rfl, rfl⟩
  · refine ⟨rfl, ?_⟩
    simp only [Datum.text?, Paging.decodeCursor?, hs]
    rfl

/-- The one cursor that counts as the one to start after. -/
def afterOf (options : ListOptions) : Datum :=
  if options.after.isNull then options.cursor else options.after

theorem boundsOf_after {options : ListOptions} {offset : Option Int}
    (h : Points (afterOf options) offset) :
    (boundsOf options).after = (afterOf options).text? := by
  cases ha : options.after with
  | null => simp [boundsOf, afterOf, ha, Datum.isNull, Datum.text?]
  | text s => simp [boundsOf, afterOf, ha, Datum.isNull, Datum.text?]
  | _ => simp [afterOf, ha, Datum.isNull, Points] at h

/-- The window that bounds select, for cursors that can be read. -/
theorem pageWindow_boundsOf {options : ListOptions} {after before : Option Int}
    (hafter : Points (afterOf options) after) (hbefore : Points options.before before)
    (total : Int) :
    Paging.pageWindow total (boundsOf options) =
      .ok (Paging.windowBetween total after before (options.first.or options.limit)
        options.last) := by
  rw [Paging.pageWindow, boundsOf_after hafter, hafter.decode.2]
  simp [boundsOf, hbefore.decode.2, bind, Except.bind, pure, Except.pure]

/-- The window of a list is the one that its bounds select, if it starts within a word. -/
theorem window_eq {options : ListOptions} {after before : Option Int}
    (hafter : Points (afterOf options) after) (hbefore : Points options.before before)
    (total : Nat) {window : Paging.Window}
    (hwindow : Paging.windowBetween total after before (options.first.or options.limit)
      options.last = window) :
    Model.window options total =
      if fitsWord window.start then .ok window else .error .tooLarge := by
  have hcursor : cursorOf (if options.after.isNull then options.cursor else options.after) =
      .ok (boundsOf options).after := by
    rw [boundsOf_after hafter]
    exact hafter.decode.1
  have hbounds : Paging.pageWindow total
      { before := options.before.text?, after := (boundsOf options).after,
        first := options.first.or options.limit, last := options.last } = .ok window := by
    rw [← hwindow]
    exact pageWindow_boundsOf hafter hbefore total
  simp only [Model.window, hbefore.decode.1, hcursor, bind, Except.bind, hbounds]

/-! ## The two stages -/

/-- The rows that satisfy all filters. -/
def matching (session : Session) (filter : Datum) : Except Failure (List Row) := do
  let filters ← specItems filter
  let conditions ← filters.mapM (filterCondition session.operators model)
  let rows ← session.readable model
  let tests ← conditions.mapM Condition.test
  return rows.filter (passesAll tests)

/-- The columns by which a list is sorted, of which the identifier is the last. -/
def listKeys (idColumn : Column) (order : Datum) : Except Failure (List SortKey) := do
  let orders ← specItems order
  let given ← orders.mapM (sortKey model)
  return given ++ [⟨idColumn, false⟩]

/-- The rows of a list in their order, whatever page of them is asked for. -/
def listed (idColumn : Column) (session : Session) (filter order : Datum) :
    Except Failure (List Row) := do
  let rows ← model.matching session filter
  let keys ← model.listKeys idColumn order
  return rows.mergeSort fun a b => (SortKey.compareBy keys a b).isLE

/-- A list is a page of the rows that are listed, and it changes nothing. -/
theorem exec_list (idColumn : Column) (options : ListOptions) (session : Session) :
    exec (model.list idColumn options) session =
      (do
        let rows ← model.listed idColumn session options.filter options.order
        return model.page rows (← window options rows.length), session) := by
  have hlisted :
      (do
        let rows ← model.listed idColumn session options.filter options.order
        return model.page rows (← window options rows.length)) = do
        let filters ← specItems options.filter
        let conditions ← filters.mapM (filterCondition session.operators model)
        let rows ← session.readable model
        let tests ← conditions.mapM Condition.test
        let orders ← specItems options.order
        let given ← orders.mapM (sortKey model)
        let window ← window options (rows.filter (passesAll tests)).length
        return model.page ((rows.filter (passesAll tests)).mergeSort fun a b =>
          (SortKey.compareBy (given ++ [⟨idColumn, false⟩]) a b).isLE) window := by
    simp only [listed, matching, listKeys, bind_assoc, pure_bind, List.length_mergeSort]
  simp only [list, exec_bind, exec_get, after_ok, Session.exec_lift]
  rw [hlisted]
  refine after_eq_bind fun filters => ?_
  rw [exec_bind, Session.exec_lift]
  refine after_eq_bind fun conditions => ?_
  rw [exec_bind, Session.exec_read]
  refine after_eq_bind fun rows => ?_
  rw [exec_bind, Session.exec_lift]
  refine after_eq_bind fun tests => ?_
  rw [exec_bind, Session.exec_lift]
  refine after_eq_bind fun orders => ?_
  rw [exec_bind, Session.exec_lift]
  refine after_eq_bind fun given => ?_
  rw [exec_bind, Session.exec_lift]
  exact after_eq_bind fun window => rfl

theorem listed_eq_ok {idColumn : Column} {session : Session} {filter order : Datum}
    {rows : List Row} :
    model.listed idColumn session filter order = .ok rows ↔
      ∃ found keys, model.matching session filter = .ok found ∧
        model.listKeys idColumn order = .ok keys ∧
        rows = found.mergeSort fun a b => (SortKey.compareBy keys a b).isLE := by
  simp only [listed, bind_eq_ok]
  constructor
  · rintro ⟨found, hfound, keys, hkeys, hrows⟩
    exact ⟨found, keys, hfound, hkeys, (Except.ok.inj hrows).symm⟩
  · rintro ⟨found, keys, hfound, hkeys, rfl⟩
    exact ⟨found, hfound, keys, hkeys, rfl⟩

/-- What satisfies the filters is some of the rows of the table. -/
theorem subperm_of_matching {session : Session} {filter : Datum} {found : List Row}
    (h : model.matching session filter = .ok found) :
    ∃ test, found.Perm ((session.rows model).filter test) := by
  simp only [matching, bind_eq_ok] at h
  obtain ⟨filters, -, conditions, -, read, hread, tests, -, hfound⟩ := h
  have hperm : read.Perm (session.rows model) := by
    unfold Session.readable at hread
    split at hread
    · cases hread
    · rw [← Except.ok.inj hread]
      exact model.inOrder_perm (session.rows model)
  rw [← Except.ok.inj hfound]
  exact ⟨passesAll tests, hperm.filter _⟩

/-- The identifier is the last column by which a list is sorted. -/
theorem listKeys_eq_ok {idColumn : Column} {order : Datum} {keys : List SortKey}
    (h : model.listKeys idColumn order = .ok keys) :
    ∃ given, keys = given ++ [⟨idColumn, false⟩] := by
  simp only [listKeys, bind_eq_ok] at h
  obtain ⟨orders, -, given, -, hkeys⟩ := h
  exact ⟨given, (Except.ok.inj hkeys).symm⟩

/-- No two rows have the same identifier. -/
def DistinctIds (idColumn : Column) (rows : List Row) : Prop :=
  rows.Pairwise fun a b =>
    (cellAt a idColumn.name).compare (cellAt b idColumn.name) ≠ .eq

theorem DistinctIds.perm {idColumn : Column} {first second : List Row}
    (h : DistinctIds idColumn first) (hperm : first.Perm second) : DistinctIds idColumn second :=
  List.Pairwise.perm h hperm fun hab hba => hab (Std.OrientedCmp.eq_symm hba)

/-- Rows with distinct identifiers are told apart by the columns of any list. -/
theorem DistinctIds.apart {idColumn : Column} {rows : List Row} (h : DistinctIds idColumn rows)
    (given : List SortKey) :
    rows.Pairwise fun a b => SortKey.compareBy (given ++ [⟨idColumn, false⟩]) a b ≠ .eq := by
  refine h.imp fun {a b} hab heq => hab ?_
  rw [SortKey.compareBy_append, Ordering.then_eq_eq] at heq
  simpa [SortKey.compare] using heq.2

/-- The rows of a list are the only list of all matching rows that is in order. -/
theorem listed_unique {idColumn : Column} {session : Session} {found rows : List Row}
    {keys : List SortKey} {filter order : Datum}
    (hfound : model.matching session filter = .ok found)
    (hkeys : model.listKeys idColumn order = .ok keys)
    (hrows : rows = found.mergeSort fun a b => (SortKey.compareBy keys a b).isLE)
    (hids : DistinctIds idColumn (session.rows model)) (other : List Row) :
    other.Perm found ∧ SortKey.Sorted keys other ↔ other = rows := by
  have hperm : rows.Perm found := by
    rw [hrows]
    exact List.mergeSort_perm found _
  have hsorted : SortKey.Sorted keys rows := by
    rw [hrows]
    exact SortKey.sorted_mergeSort keys found
  constructor
  · rintro ⟨hother, hsortedOther⟩
    obtain ⟨given, rfl⟩ := model.listKeys_eq_ok hkeys
    obtain ⟨test, htest⟩ := model.subperm_of_matching hfound
    have hdistinct : DistinctIds idColumn other :=
      DistinctIds.perm (List.Pairwise.filter test hids) (htest.symm.trans hother.symm)
    exact hsortedOther.unique hsorted (hother.trans hperm.symm) (hdistinct.apart given)
  · rintro rfl
    exact ⟨hperm, hsorted⟩

end Model

end RecordApi.Table
