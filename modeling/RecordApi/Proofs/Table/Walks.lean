import RecordApi.Proofs.Paging.Cursors
import RecordApi.Proofs.Table.Listing

/-!
# Walks through a list

A list can be walked through in pages of one size: forward from its start, backward from its end,
and forward by the older options. Each walk ends and visits every row that is listed just once. That
a walk ends is what `Walk` says, which relates it to finitely many pages; what it visits is proved
by induction on the number of rows that are left.
-/

namespace RecordApi.Table

open RecordApi.Action Paging

/-- A way to walk: the flag of a page by which it goes on, the edge it goes on from, and the options
for the page next to a cursor. -/
structure Stride where
  flag : String
  edge? : List Datum → Option Datum
  moved : Datum → ListOptions → ListOptions

namespace Stride

/-- Asks for what comes after the last edge. -/
def forward : Stride :=
  ⟨"hasNextPage", List.getLast?, fun cursor options => { options with after := cursor }⟩

/-- Asks for what comes before the first edge. -/
def backward : Stride :=
  ⟨"hasPreviousPage", List.head?, fun cursor options => { options with before := cursor }⟩

/-- Asks for what comes after the last edge by the older option. -/
def plain : Stride :=
  ⟨"hasNextPage", List.getLast?, fun cursor options => { options with cursor := cursor }⟩

end Stride

/-- The pages that a walk visits from some options on, until the flag of a page is false, and the
world that is left. -/
inductive Walk {σ : Type} (list : ListOptions → Action σ Datum) (stride : Stride) :
    σ → ListOptions → List Datum → σ → Prop where
  | last {world left options page} :
      exec (list options) world = (.ok page, left) →
      flagOf page stride.flag = .bool false →
      Walk list stride world options [page] left
  | more {world next left options page edge pages} :
      exec (list options) world = (.ok page, next) →
      flagOf page stride.flag = .bool true →
      stride.edge? (edgesOf page) = some edge →
      Walk list stride next (stride.moved (entryOf edge "cursor") options) pages left →
      Walk list stride world options (page :: pages) left

/-- There is only one walk from the same options. -/
theorem Walk.unique {σ : Type} {list : ListOptions → Action σ Datum} {stride : Stride}
    {world left other : σ} {options : ListOptions} {first second : List Datum}
    (hfirst : Walk list stride world options first left)
    (hsecond : Walk list stride world options second other) : first = second ∧ left = other := by
  induction hfirst generalizing second other with
  | last hpage hflag =>
      cases hsecond with
      | last hpage' _ =>
          rw [hpage] at hpage'
          cases hpage'
          exact ⟨rfl, rfl⟩
      | more hpage' hflag' _ _ =>
          rw [hpage] at hpage'
          cases hpage'
          rw [hflag] at hflag'
          cases hflag'
  | more hpage hflag hedge _ ih =>
      cases hsecond with
      | last hpage' hflag' =>
          rw [hpage] at hpage'
          cases hpage'
          rw [hflag] at hflag'
          cases hflag'
      | more hpage' _ hedge' hwalk' =>
          rw [hpage] at hpage'
          cases hpage'
          rw [hedge] at hedge'
          cases hedge'
          obtain ⟨rfl, rfl⟩ := ih hwalk'
          exact ⟨rfl, rfl⟩

section Between

variable {α : Type} {items : List α} {low high : Nat}

theorem head?_between (h : low < high) : (between low high items).head? = items[low]? := by
  rw [List.head?_eq_getElem?, getElem?_between]
  simp [h]

theorem getLast?_between (h : low < high) (hhigh : high ≤ items.length) :
    (between low high items).getLast? = items[high - 1]? := by
  rw [List.getLast?_eq_getElem?, getElem?_between, length_between]
  have hlast : low + (min (high - low) (items.length - low) - 1) = high - 1 := by omega
  rw [hlast, if_pos (by omega)]

end Between

namespace Model

variable {model : Model} {idColumn : Column} {session : Session} {filter order : Datum}
  {rows : List Row} {n : Nat}

/-- A page of the rows that are listed. -/
theorem exec_list_page (hlisted : model.listed idColumn session filter order = .ok rows)
    {options : ListOptions} (hfilter : options.filter = filter) (horder : options.order = order)
    {window : Window} (hwindow : Model.window options rows.length = .ok window) :
    exec (model.list idColumn options) session = (.ok (model.page rows window), session) := by
  rw [exec_list, hfilter, horder, hlisted]
  show ((do return model.page rows (← Model.window options rows.length) : Except Failure Datum),
    session) = _
  rw [hwindow]
  rfl

/-- Options that ask, from each offset on, for so many rows, and a stride from each of them to the
next. -/
structure Ahead (filter order : Datum) (n : Nat) (stride : Stride) (ask : Nat → ListOptions) :
    Prop where
  flag : stride.flag = "hasNextPage"
  edge? : stride.edge? = List.getLast?
  filter : ∀ start, (ask start).filter = filter
  order : ∀ start, (ask start).order = order
  window : ∀ {start total : Nat}, start ≤ total → (total : Int) ≤ mostWord →
    Model.window (ask start) total = .ok ⟨start, (min total (start + n) : Nat)⟩
  moved : ∀ start last, stride.moved (.text (encodeCursor (last : Nat))) (ask start) =
    ask (last + 1)

/-- Options that ask for so many rows after the first `start` of them. -/
def askForward (filter order : Datum) (n : Nat) : Nat → ListOptions
  | 0 => { filter, order, first := some (n : Int) }
  | last + 1 => { filter, order, first := some (n : Int), after := .text (encodeCursor last) }

/-- Options that ask for the same in the older way. -/
def askPlain (filter order : Datum) (n : Nat) : Nat → ListOptions
  | 0 => { filter, order, limit := some (n : Int) }
  | last + 1 => { filter, order, limit := some (n : Int), cursor := .text (encodeCursor last) }

/-- Options that ask for so many rows before an offset. -/
def askBackward (filter order : Datum) (n stop : Nat) : ListOptions :=
  { filter, order, last := some (n : Int), before := .text (encodeCursor stop) }

theorem points_encodeCursor {offset : Nat} (h : (offset : Int) ≤ mostWord) :
    Points (.text (encodeCursor offset)) (some (offset : Int)) := by
  refine .inr ⟨_, offset, rfl, decodeCursor_encodeCursor_of_lt ?_, rfl⟩
  simp only [mostWord] at h
  omega

theorem points_null : Points .null none :=
  .inl ⟨rfl, rfl⟩

theorem fitsWord_of_le {offset : Nat} (h : (offset : Int) ≤ mostWord) :
    fitsWord (offset : Int) = true := by
  have hleast : leastWord ≤ (offset : Int) := by
    unfold leastWord
    omega
  simp [fitsWord, hleast, h]

/-- A window that starts at a natural offset within a word is the window of the list. -/
theorem window_of_between {options : ListOptions} {after before : Option Int} {total low high : Nat}
    (hafter : Points (afterOf options) after) (hbefore : Points options.before before)
    (hwindow : windowBetween total after before (options.first.or options.limit) options.last =
      ⟨low, high⟩) (hlow : (low : Int) ≤ mostWord) :
    Model.window options total = .ok ⟨low, high⟩ := by
  rw [window_eq hafter hbefore total hwindow, if_pos (fitsWord_of_le hlow)]

theorem windowBetween_ahead {start total : Nat} (hstart : start + 1 ≤ total) :
    windowBetween total (some start) none (some n) none =
      ⟨(start + 1 : Nat), (min total (start + 1 + n) : Nat)⟩ := by
  simp only [windowBetween, Window.mk.injEq]
  omega

theorem windowBetween_start (total n : Nat) :
    windowBetween total none none (some n) none = ⟨(0 : Nat), (min total (0 + n) : Nat)⟩ := by
  simp only [windowBetween, Window.mk.injEq]
  omega

theorem windowBetween_back {stop total : Nat} (hstop : stop ≤ total) :
    windowBetween total none (some stop) none (some n) = ⟨(stop - n : Nat), stop⟩ := by
  simp only [windowBetween, Window.mk.injEq]
  omega

theorem windowBetween_end (total n : Nat) :
    windowBetween total none none none (some n) = ⟨(total - n : Nat), total⟩ := by
  simp only [windowBetween, Window.mk.injEq]
  omega

theorem windowBetween_whole (total : Nat) :
    windowBetween total none none none none = ⟨(0 : Nat), total⟩ := by
  simp only [windowBetween, Window.mk.injEq]
  omega

theorem ahead_forward (filter order : Datum) (n : Nat) :
    Ahead filter order n .forward (askForward filter order n) where
  flag := rfl
  edge? := rfl
  filter start := by cases start <;> rfl
  order start := by cases start <;> rfl
  moved start last := by cases start <;> rfl
  window {start total} hstart htotal := by
    cases start with
    | zero =>
        exact window_of_between points_null points_null (windowBetween_start total n) (by omega)
    | succ last =>
        exact window_of_between (points_encodeCursor (by omega)) points_null
          (windowBetween_ahead hstart) (by omega)

theorem ahead_plain (filter order : Datum) (n : Nat) :
    Ahead filter order n .plain (askPlain filter order n) where
  flag := rfl
  edge? := rfl
  filter start := by cases start <;> rfl
  order start := by cases start <;> rfl
  moved start last := by cases start <;> rfl
  window {start total} hstart htotal := by
    cases start with
    | zero =>
        exact window_of_between points_null points_null (windowBetween_start total n) (by omega)
    | succ last =>
        exact window_of_between (points_encodeCursor (by omega)) points_null
          (windowBetween_ahead hstart) (by omega)

theorem window_askBackward {stop total : Nat} (hstop : stop ≤ total)
    (htotal : (total : Int) ≤ mostWord) :
    Model.window (askBackward filter order n stop) total = .ok ⟨(stop - n : Nat), stop⟩ :=
  window_of_between points_null (points_encodeCursor (by omega)) (windowBetween_back hstop)
    (by omega)

theorem entryOf_edge_cursor (row : Row) (offset : Nat) :
    entryOf (model.edge row offset) "cursor" = .text (encodeCursor offset) := by
  simp [edge, entryOf, Datum.entries?, Entries.get, Association.lookup_cons]

/-- A walk ahead from an offset visits the edges of all rows from there on. The pages are the same
for all strides that ask for the same windows. -/
theorem walk_ahead (hn : 1 ≤ n) (hlisted : model.listed idColumn session filter order = .ok rows)
    (hsize : (rows.length : Int) ≤ mostWord) {left start : Nat}
    (hleft : start + left = rows.length) :
    ∃ pages, pages.flatMap edgesOf = between start rows.length (model.edges rows) ∧
      ∀ stride ask, Ahead filter order n stride ask →
        Walk (model.list idColumn) stride session (ask start) pages session := by
  induction left using Nat.strongRecOn generalizing start with
  | ind left ih =>
      have hpage : ∀ stride ask, Ahead filter order n stride ask →
          exec (model.list idColumn (ask start)) session =
            (.ok (model.page rows ⟨start, (min rows.length (start + n) : Nat)⟩), session) :=
        fun stride ask h => exec_list_page hlisted (h.filter start) (h.order start)
          (h.window (by omega) hsize)
      by_cases hend : rows.length ≤ start + n
      · -- the last page
        rw [Nat.min_eq_left hend] at hpage
        refine ⟨[model.page rows ⟨start, rows.length⟩], ?_, fun stride ask h => ?_⟩
        · simp [edgesOf_page]
        · refine .last (hpage stride ask h) ?_
          rw [h.flag, flagOf_page_next]
          simp
      · have hmin : min rows.length (start + n) = start + n := by omega
        rw [hmin] at hpage
        obtain ⟨pages, hedges, hwalk⟩ :=
          ih (left - n) (by omega) (show start + n + (left - n) = rows.length by omega)
        obtain ⟨row, hrow⟩ : ∃ row, rows[start + n - 1]? = some row :=
          ⟨rows[start + n - 1], List.getElem?_eq_getElem (by omega)⟩
        refine ⟨model.page rows ⟨start, (start + n : Nat)⟩ :: pages, ?_, fun stride ask h => ?_⟩
        · rw [List.flatMap_cons, hedges, edgesOf_page, between_append (by omega) (by omega)]
        · have hedge : stride.edge? (edgesOf (model.page rows ⟨start, (start + n : Nat)⟩)) =
              some (model.edge row (start + n - 1)) := by
            rw [h.edge?, edgesOf_page, getLast?_between (by omega) (by simp; omega),
              getElem?_edges, hrow]
            rfl
          refine .more (hpage stride ask h) ?_ hedge ?_
          · rw [h.flag, flagOf_page_next, decide_eq_true (by omega)]
          · rw [entryOf_edge_cursor, h.moved]
            have hnext : start + n - 1 + 1 = start + n := by omega
            rw [hnext]
            exact hwalk stride ask h

/-- A walk backward from an offset visits the edges of all rows before it, page by page. -/
theorem walk_back (hn : 1 ≤ n) (hlisted : model.listed idColumn session filter order = .ok rows)
    (hsize : (rows.length : Int) ≤ mostWord) {stop : Nat} (options : ListOptions)
    (hfilter : options.filter = filter) (horder : options.order = order)
    (hwindow : Model.window options rows.length = .ok ⟨(stop - n : Nat), stop⟩)
    (hmoved : ∀ offset, Stride.backward.moved (.text (encodeCursor (offset : Nat))) options =
      askBackward filter order n offset) (hstop : stop ≤ rows.length) :
    ∃ pages, pages.reverse.flatMap edgesOf = between 0 stop (model.edges rows) ∧
      Walk (model.list idColumn) .backward session options pages session := by
  induction stop using Nat.strongRecOn generalizing options with
  | ind stop ih =>
      have hpage := exec_list_page hlisted hfilter horder hwindow
      by_cases hend : stop ≤ n
      · -- the last page
        rw [Nat.sub_eq_zero_of_le hend] at hpage
        refine ⟨[model.page rows ⟨(0 : Nat), stop⟩], ?_, ?_⟩
        · rw [List.reverse_singleton, List.flatMap_singleton, edgesOf_page]
        · exact .last hpage (flagOf_page_previous model rows 0 stop)
      · obtain ⟨pages, hedges, hwalk⟩ := ih (stop - n) (by omega)
          (askBackward filter order n (stop - n)) rfl rfl
          (window_askBackward (by omega) hsize) (fun _ => rfl) (by omega)
        obtain ⟨row, hrow⟩ : ∃ row, rows[stop - n]? = some row :=
          ⟨rows[stop - n], List.getElem?_eq_getElem (by omega)⟩
        refine ⟨model.page rows ⟨(stop - n : Nat), stop⟩ :: pages, ?_, ?_⟩
        · rw [List.reverse_cons, List.flatMap_append, hedges, List.flatMap_singleton,
            edgesOf_page, between_append (by omega) (by omega)]
        · have hedge : Stride.backward.edge?
              (edgesOf (model.page rows ⟨(stop - n : Nat), stop⟩)) =
              some (model.edge row (stop - n)) := by
            rw [show Stride.backward.edge? = List.head? from rfl, edgesOf_page,
              head?_between (by omega), getElem?_edges, hrow]
            rfl
          refine .more hpage ?_ hedge ?_
          · rw [show Stride.backward.flag = "hasPreviousPage" from rfl, flagOf_page_previous,
              decide_eq_true (by omega)]
          · rw [entryOf_edge_cursor, hmoved]
            exact hwalk

/-- The unpaged list shows all rows that are listed. -/
theorem exec_list_whole (hlisted : model.listed idColumn session filter order = .ok rows) :
    exec (model.list idColumn { filter, order }) session =
      (.ok (model.page rows ⟨(0 : Nat), rows.length⟩), session) :=
  exec_list_page hlisted rfl rfl (window_of_between points_null points_null
    (windowBetween_whole rows.length) (by unfold mostWord; omega))

/-- Walks through a list, whatever its filters and orders are, as long as identifiers are unique and
there are no more rows than one word counts. Either the list is refused whatever page is asked for.
Or the unpaged list shows the matching rows in order, of which there is one arrangement only; the
walk forward ends and its pages put together are the unpaged list; the walk backward ends and its
pages put together in reverse are the unpaged list; and the walk by the older options visits the
same pages as the walk forward. No walk changes the session. -/
theorem walks_visit_listed (model : Model) (idColumn : Column) (session : Session)
    (filter order : Datum) {n : Nat} (hn : 1 ≤ n)
    (hids : DistinctIds idColumn (session.rows model))
    (hsize : ((session.rows model).length : Int) ≤ mostWord) :
    (∃ failure, ∀ options : ListOptions, options.filter = filter → options.order = order →
      exec (model.list idColumn options) session = (.error failure, session)) ∨
    ∃ found keys rows whole forward backward,
      model.matching session filter = .ok found ∧
      model.listKeys idColumn order = .ok keys ∧
      (∀ other : List Row, other.Perm found ∧ SortKey.Sorted keys other ↔ other = rows) ∧
      exec (model.list idColumn { filter, order }) session = (.ok whole, session) ∧
      edgesOf whole = model.edges rows ∧
      Walk (model.list idColumn) .forward session { filter, order, first := some (n : Int) }
        forward session ∧
      forward.flatMap edgesOf = edgesOf whole ∧
      Walk (model.list idColumn) .backward session { filter, order, last := some (n : Int) }
        backward session ∧
      backward.reverse.flatMap edgesOf = edgesOf whole ∧
      Walk (model.list idColumn) .plain session { filter, order, limit := some (n : Int) }
        forward session := by
  cases hlisted : model.listed idColumn session filter order with
  | error failure =>
      refine .inl ⟨failure, fun options hfilter horder => ?_⟩
      rw [exec_list, hfilter, horder, hlisted]
      rfl
  | ok rows =>
      right
      obtain ⟨found, keys, hfound, hkeys, hrows⟩ := model.listed_eq_ok.mp hlisted
      have hunique := model.listed_unique hfound hkeys hrows hids
      have hcount : (rows.length : Int) ≤ mostWord := by
        obtain ⟨test, htest⟩ := model.subperm_of_matching hfound
        have hperm := ((hunique rows).mpr rfl).1.trans htest
        have hle := List.length_filter_le test (session.rows model)
        rw [← hperm.length_eq] at hle
        omega
      have hwhole := exec_list_whole hlisted
      have hedges : edgesOf (model.page rows ⟨(0 : Nat), rows.length⟩) = model.edges rows := by
        rw [edgesOf_page, ← model.length_edges rows, between_all]
      obtain ⟨forward, hforward, hahead⟩ :=
        walk_ahead hn hlisted hcount (Nat.zero_add rows.length)
      obtain ⟨backward, hbackward, hback⟩ := walk_back hn hlisted hcount
        { filter, order, last := some (n : Int) } rfl rfl
        (window_of_between points_null points_null (windowBetween_end rows.length n) (by omega))
        (fun _ => rfl) (Nat.le_refl rows.length)
      rw [← model.length_edges rows, between_all] at hforward hbackward
      exact ⟨found, keys, rows, _, forward, backward, hfound, hkeys, hunique, hwhole, hedges,
        hahead _ _ (ahead_forward filter order n), hforward.trans hedges.symm, hback,
        hbackward.trans hedges.symm, hahead _ _ (ahead_plain filter order n)⟩

/-- Three gadgets, listed two at a time. -/
theorem walks_visit_listed_gadgets :
    let model : Model := ⟨"Gadget", [⟨"id", .integer, false⟩, ⟨"label", .string, true⟩],
      ⟨"id", .integer, false⟩⟩
    let session : Session := { tables := [("Gadget", [[("id", .integer 3), ("label", .text "c")],
      [("id", .integer 1), ("label", .text "a")], [("id", .integer 2), ("label", .text "b")]])] }
    ∃ whole forward,
      exec (model.list model.key { }) session = (.ok whole, session) ∧
      Walk (model.list model.key) .forward session { first := some 2 } forward session ∧
      forward.flatMap edgesOf = edgesOf whole := by
  intro model session
  have hids : DistinctIds model.key (session.rows model) := by
    unfold DistinctIds
    decide +kernel
  have hsize : ((session.rows model).length : Int) ≤ mostWord := by decide
  rcases walks_visit_listed model model.key session .null .null (n := 2) (by decide) hids hsize with
    ⟨failure, hrefused⟩ | ⟨_, _, _, whole, forward, _, _, _, _, hwhole, _, hforward, hedges, _⟩
  · have hanswer := hrefused {} rfl rfl
    rw [exec_list] at hanswer
    cases congrArg Prod.fst hanswer
  · exact ⟨whole, forward, hwhole, hforward, hedges⟩

end Model

end RecordApi.Table
