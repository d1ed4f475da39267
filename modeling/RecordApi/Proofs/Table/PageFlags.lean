import RecordApi.Proofs.Table.Pages

/-!
# What the flags of a page tell

A page says whether the list goes on behind it and before it. Its window may lie outside of the
list: a cursor may be older than the list, two cursors may cross each other, and there may be no
rows at all. What a page says of the rows behind it is right for every window. What it says of the
rows before it is right unless there are no rows and the page starts after a cursor.
-/

namespace RecordApi.Table

open RecordApi.Action Paging

section Between

variable {α : Type} {items : List α}

theorem exists_from_iff {stop : Nat} :
    (∃ offset item, stop ≤ offset ∧ items[offset]? = some item) ↔ stop < items.length := by
  constructor
  · rintro ⟨offset, item, hstop, hitem⟩
    exact Nat.lt_of_le_of_lt hstop (List.getElem?_eq_some_iff.mp hitem).1
  · intro h
    exact ⟨stop, items[stop], Nat.le_refl stop, List.getElem?_eq_getElem h⟩

theorem exists_before_iff {start : Nat} :
    (∃ offset item, offset < start ∧ items[offset]? = some item) ↔ 0 < start ∧ items ≠ [] := by
  constructor
  · rintro ⟨offset, item, hstart, hitem⟩
    refine ⟨by omega, ?_⟩
    rintro rfl
    cases hitem
  · rintro ⟨hstart, hne⟩
    exact ⟨0, items.head hne, hstart, by rw [← List.head?_eq_getElem?, List.head?_eq_some_head hne]⟩

end Between

namespace Model

/-- Of no rows, a window starts past the first offset just if it starts after a cursor. -/
theorem start_windowBetween_zero_pos {options : ListOptions} {after : Option Int}
    (before first : Option Int) (hafter : Points (afterOf options) after)
    (hlast : ∀ n, options.last = some n → 0 ≤ n) :
    0 < (windowBetween 0 after before first options.last).start ↔ afterOf options ≠ .null := by
  -- the end is at most 0, from where no last rows are counted back past the start
  rcases hafter with ⟨hnull, rfl⟩ | ⟨s, n, htext, -, rfl⟩
  · have hstart : (windowBetween 0 none before first options.last).start = 0 := by
      unfold windowBetween
      cases before <;> cases first <;> cases hsize : options.last <;> grind
    simp [hstart, hnull]
  · have hstart : (windowBetween 0 (some (n : Int)) before first options.last).start = n + 1 := by
      unfold windowBetween
      cases before <;> cases first <;> cases hsize : options.last <;> grind
    simp only [hstart, htext]
    simp

/-- The flags of a page, whatever the filters and orders are. Either the list is refused whatever
page is asked for. Or there are the matching rows in order, such that for all options whose cursors
can be read and whose last rows are not negatively many there is a window: a page is shown unless
the window starts at an offset that is more than one word, its rows are those of the window, and

* it says that there is a next page if and only if there is a row at the end of the window or behind
  it;
* it says that there is a previous page if and only if there is a row before the start of the
  window, or there is no row at all and the window starts after a cursor. -/
theorem flags_tell (model : Model) (idColumn : Column) (session : Session)
    (filter order : Datum) :
    (∃ failure, ∀ options : ListOptions, options.filter = filter → options.order = order →
      exec (model.list idColumn options) session = (.error failure, session)) ∨
    ∃ found keys rows,
      model.matching session filter = .ok found ∧
      model.listKeys idColumn order = .ok keys ∧
      rows.Perm found ∧ (rows.Pairwise fun a b => ¬ Precedes keys b a) ∧
      ∀ (options : ListOptions) (after before : Option Int),
        options.filter = filter → options.order = order →
        Points (afterOf options) after → Points options.before before →
        (∀ n, options.last = some n → 0 ≤ n) →
        ∃ start stop : Nat,
          pageWindow rows.length (boundsOf options) = .ok ⟨start, stop⟩ ∧
          (mostWord < start →
            exec (model.list idColumn options) session = (.error .tooLarge, session)) ∧
          (start ≤ mostWord → ∃ page next previous,
            exec (model.list idColumn options) session = (.ok page, session) ∧
            edgesOf page = between start stop (model.edges rows) ∧
            flagOf page "hasNextPage" = .bool next ∧
            flagOf page "hasPreviousPage" = .bool previous ∧
            (next = true ↔ ∃ offset row, stop ≤ offset ∧ rows[offset]? = some row) ∧
            (previous = true ↔ (∃ offset row, offset < start ∧ rows[offset]? = some row) ∨
              rows = [] ∧ afterOf options ≠ .null)) := by
  cases hlisted : model.listed idColumn session filter order with
  | error failure =>
      refine .inl ⟨failure, fun options hfilter horder => ?_⟩
      rw [exec_list, hfilter, horder, hlisted]
      rfl
  | ok rows =>
      right
      obtain ⟨found, keys, hfound, hkeys, hrows⟩ := model.listed_eq_ok.mp hlisted
      refine ⟨found, keys, rows, hfound, hkeys, ?_, ?_, ?_⟩
      · rw [hrows]
        exact List.mergeSort_perm _ _
      · rw [← sorted_iff, hrows]
        exact SortKey.sorted_mergeSort _ _
      intro options after before hfilter horder hafter hbefore hlast
      rw [← hfilter, ← horder] at hlisted
      obtain ⟨start, stop, hwindow, hexec⟩ := exec_list_windowed hlisted hafter hbefore
      refine ⟨start, stop,
        (pageWindow_boundsOf hafter hbefore rows.length).trans (congrArg _ hwindow), ?_, ?_⟩
      · intro hword
        rw [hexec, if_neg (by omega)]
      intro hword
      refine ⟨model.page rows ⟨start, stop⟩, decide (stop < rows.length), decide (0 < start),
        ?_, edgesOf_page model rows start stop, flagOf_page_next model rows start stop,
        flagOf_page_previous model rows start stop, ?_, ?_⟩
      · rw [hexec, if_pos hword]
      · rw [exists_from_iff, decide_eq_true_iff]
      · rw [exists_before_iff, decide_eq_true_iff]
        by_cases hnone : rows = []
        · have hstart := start_windowBetween_zero_pos before (options.first.or options.limit)
            hafter hlast
          rw [hnone, List.length_nil, Int.natCast_zero] at hwindow
          rw [hwindow] at hstart
          simpa [hnone] using hstart
        · simp [hnone]

/-- Three gadgets, of which those after the first are shown. -/
theorem flags_tell_gadgets :
    let model : Model := ⟨"Gadget", [⟨"id", .integer, false⟩, ⟨"label", .string, true⟩],
      ⟨"id", .integer, false⟩⟩
    let session : Session := { tables := [("Gadget", [[("id", .integer 3), ("label", .text "c")],
      [("id", .integer 1), ("label", .text "a")], [("id", .integer 2), ("label", .text "b")]])] }
    let options : ListOptions := { after := .text (encodeCursor 0) }
    ∃ page, exec (model.list model.key options) session = (.ok page, session) ∧
      (edgesOf page).length = 2 ∧
      flagOf page "hasNextPage" = .bool false ∧ flagOf page "hasPreviousPage" = .bool true := by
  intro model session options
  have hafter : Points (afterOf options) (some 0) := points_encodeCursor (by decide)
  rcases flags_tell model model.key session .null .null with
    ⟨failure, hrefused⟩ | ⟨found, keys, rows, hfound, -, hperm, -, hpages⟩
  · have hanswer := hrefused {} rfl rfl
    rw [exec_list] at hanswer
    cases congrArg Prod.fst hanswer
  have hcount : rows.length = 3 := by
    rw [matching_of_read rfl comparing_standard (.inr ⟨rfl, rfl⟩) rfl] at hfound
    rw [hperm.length_eq, ← Except.ok.inj hfound, ((model.inOrder_perm _).filter _).length_eq]
    rfl
  obtain ⟨start, stop, hwindow, -, hpage⟩ :=
    hpages options _ _ rfl rfl hafter points_null (by simp [options])
  have hbounds : (start : Int) = 1 ∧ (stop : Int) = 3 := by
    rw [hcount] at hwindow
    have hstarts : (⟨1, 3⟩ : Window) = ⟨start, stop⟩ := Except.ok.inj hwindow
    exact ⟨(Window.mk.inj hstarts).1.symm, (Window.mk.inj hstarts).2.symm⟩
  obtain ⟨page, next, previous, hexec, hedges, hnext, hprevious, hnextIff, hpreviousIff⟩ :=
    hpage (by unfold mostWord; omega)
  refine ⟨page, hexec, ?_, ?_, ?_⟩
  · rw [hedges, length_between, length_edges]
    omega
  · have hno : ¬ next = true := fun h => by
      have := exists_from_iff.mp (hnextIff.mp h)
      omega
    rw [hnext, Bool.eq_false_iff.mpr hno]
  · rw [hprevious, hpreviousIff.mpr (.inl (exists_before_iff.mpr ⟨by omega, ?_⟩))]
    rintro rfl
    cases hcount

/-- After the last gadget has been deleted, a page that starts after its cursor has no rows and says
that there is a previous page, which has none either. -/
theorem flags_mistell_gadgets :
    let model : Model := ⟨"Gadget", [⟨"id", .integer, false⟩, ⟨"label", .string, true⟩],
      ⟨"id", .integer, false⟩⟩
    let session : Session := { tables := [("Gadget", [])] }
    ∃ page, exec (model.list model.key { after := .text (encodeCursor 0) }) session =
        (.ok page, session) ∧
      model.matching session .null = .ok [] ∧
      edgesOf page = [] ∧ flagOf page "hasPreviousPage" = .bool true := by
  intro model session
  have hrows : model.inOrder (session.rows model) = [] := (model.inOrder_perm []).eq_nil
  have hmatching : model.matching session .null = .ok [] := by
    rw [matching_of_read rfl comparing_standard (.inr ⟨rfl, rfl⟩) rfl, hrows]
    rfl
  have hlisted : model.listed model.key session .null .null = .ok [] :=
    model.listed_eq_ok.mpr ⟨[], _, hmatching, rfl, List.mergeSort_nil.symm⟩
  exact ⟨model.page [] ⟨1, 1⟩, exec_list_page hlisted rfl rfl rfl, hmatching, rfl, rfl⟩

end Model

end RecordApi.Table
