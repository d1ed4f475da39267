import RecordApi.Proofs.Table.Pages

/-!
# Texts that hold a value

A filter for texts that hold a value makes a pattern of the value and hands it to the database. The
value is not protected: the signs of patterns keep their meaning in it, and it ends at a null
character. So the filter selects more than the texts that hold the value, unless the value has
neither signs nor null characters.
-/

namespace RecordApi.Table

open RecordApi.Action Paging

/-! ## What patterns stand for -/

namespace Pattern

/-- A pattern stands for a text: the percent sign for any part of it, the low line for any one
character, and any other character for itself, ASCII letters in either case. -/
inductive Stands : List Char → List Char → Prop where
  | done : Stands [] []
  | part {pattern rest cs : List Char} :
      rest <:+ cs → Stands pattern rest → Stands ('%' :: pattern) cs
  | one (c : Char) {pattern cs : List Char} :
      Stands pattern cs → Stands ('_' :: pattern) (c :: cs)
  | letter {p c : Char} {pattern cs : List Char} :
      p ≠ '%' → p.toLower = c.toLower → Stands pattern cs → Stands (p :: pattern) (c :: cs)

/-- The test of a pattern is what the pattern stands for. -/
theorem fits_iff_stands (pattern cs : List Char) : fits pattern cs = true ↔ Stands pattern cs := by
  induction pattern generalizing cs with
  | nil =>
      constructor
      · intro h
        rw [fits, List.isEmpty_iff] at h
        exact h ▸ .done
      · rintro ⟨⟩
        rfl
  | cons p pattern ih =>
      by_cases hpercent : p = '%'
      · subst hpercent
        rw [fits_percent_iff]
        constructor
        · rintro ⟨rest, hsuffix, hrest⟩
          exact .part hsuffix ((ih rest).mp hrest)
        · intro h
          cases h with
          | part hsuffix hrest => exact ⟨_, hsuffix, (ih _).mpr hrest⟩
          | letter hne => exact absurd rfl hne
      · cases cs with
        | nil =>
            rw [fits.eq_3 _ _ hpercent]
            constructor
            · intro h
              cases h
            · intro h
              cases h with
              | part => exact absurd rfl hpercent
        | cons c cs =>
            rw [fits.eq_4 _ _ _ _ hpercent, Bool.and_eq_true, Bool.or_eq_true, beq_iff_eq,
              sameLetter, beq_iff_eq, ih]
            constructor
            · rintro ⟨rfl | hletter, hrest⟩
              · exact .one c hrest
              · exact .letter hpercent hletter hrest
            · intro h
              cases h with
              | part => exact absurd rfl hpercent
              | one _ hrest => exact ⟨.inl rfl, hrest⟩
              | letter _ hletter hrest => exact ⟨.inr hletter, hrest⟩

/-- A pattern stands for what its parts stand for, one after the other. -/
theorem stands_append_iff {front behind cs : List Char} :
    Stands (front ++ behind) cs ↔
      ∃ first second, cs = first ++ second ∧ Stands front first ∧ Stands behind second := by
  constructor
  · intro h
    induction front generalizing cs with
    | nil => exact ⟨[], cs, rfl, .done, h⟩
    | cons p front ih =>
        cases h with
        | part hsuffix hrest =>
            obtain ⟨first, second, rfl, hfirst, hsecond⟩ := ih hrest
            obtain ⟨skipped, rfl⟩ := hsuffix
            exact ⟨skipped ++ first, second, by simp, .part (List.suffix_append _ _) hfirst,
              hsecond⟩
        | one c hrest =>
            obtain ⟨first, second, rfl, hfirst, hsecond⟩ := ih hrest
            exact ⟨c :: first, second, rfl, .one c hfirst, hsecond⟩
        | letter hne hletter hrest =>
            obtain ⟨first, second, rfl, hfirst, hsecond⟩ := ih hrest
            exact ⟨_ :: first, second, rfl, .letter hne hletter hfirst, hsecond⟩
  · rintro ⟨first, second, rfl, hfirst, hsecond⟩
    induction hfirst with
    | done => exact hsecond
    | part hsuffix _ ih =>
        obtain ⟨skipped, rfl⟩ := hsuffix
        exact .part ⟨skipped, (List.append_assoc skipped _ second).symm⟩ ih
    | one c _ ih => exact .one c ih
    | letter hne hletter _ ih => exact .letter hne hletter ih

theorem stands_percent (cs : List Char) : Stands ['%'] cs :=
  .part (List.nil_suffix) .done

/-- Whatever else a pattern stands for, it stands for its own text. -/
theorem stands_of_letters {pattern cs : List Char}
    (h : pattern.map Char.toLower = cs.map Char.toLower) : Stands pattern cs := by
  induction pattern generalizing cs with
  | nil =>
      rw [List.map_eq_nil_iff.mp h.symm]
      exact .done
  | cons p pattern ih =>
      obtain ⟨c, cs, rfl, hc, hcs⟩ := List.map_eq_cons_iff.mp h.symm
      have hrest := ih hcs.symm
      by_cases hpercent : p = '%'
      · subst hpercent
        exact .part (List.suffix_cons c cs) hrest
      · exact .letter hpercent hc.symm hrest

/-- A text that a pattern stands for and that has none of its signs. -/
def unsigned (pattern : List Char) : List Char :=
  pattern.map fun c => if c = '%' ∨ c = '_' then 'x' else c

theorem stands_unsigned (pattern : List Char) : Stands pattern (unsigned pattern) := by
  induction pattern with
  | nil => exact .done
  | cons p pattern ih =>
      by_cases hpercent : p = '%'
      · subst hpercent
        exact .part (List.suffix_cons 'x' _) ih
      by_cases hline : p = '_'
      · subst hline
        exact .one 'x' ih
      · have hp : unsigned (p :: pattern) = p :: unsigned pattern := by
          simp [unsigned, hpercent, hline]
        rw [hp]
        exact .letter hpercent rfl ih

end Pattern

open Pattern Condition

/-! ## Likeness -/

/-- A text contains a value, but for the case of ASCII letters. -/
def Contains (value own : List Char) : Prop :=
  value.map Char.toLower <:+: own.map Char.toLower

/-- A text is like a value: in front of its first null character it has a part that the value
stands for, up to the value's own first null character. If there is one, that part is the last. -/
def Alike (value own : List Char) : Prop :=
  ∃ front middle behind, beforeNull own = front ++ middle ++ behind ∧
    Stands (beforeNull value) middle ∧ ('\x00' ∈ value → behind = [])

theorem beforeNull_eq_self {cs : List Char} (h : '\x00' ∉ cs) : beforeNull cs = cs := by
  rw [beforeNull, List.takeWhile_eq_self_iff]
  intro c hc
  rw [bne_iff_ne]
  rintro rfl
  exact h hc

theorem null_not_mem_beforeNull (cs : List Char) : '\x00' ∉ beforeNull cs := by
  intro h
  simpa using List.mem_takeWhile_imp h

theorem length_beforeNull_lt {cs : List Char} (h : '\x00' ∈ cs) :
    (beforeNull cs).length < cs.length := by
  have hsub : (beforeNull cs).Sublist cs := (List.takeWhile_prefix _).sublist
  refine Nat.lt_of_le_of_ne hsub.length_le fun hlength => ?_
  rw [← hsub.eq_of_length hlength] at h
  exact null_not_mem_beforeNull cs h

theorem beforeNull_append (cs more : List Char) :
    beforeNull (cs ++ more) = beforeNull cs ++ if '\x00' ∈ cs then [] else beforeNull more := by
  induction cs with
  | nil => simp [beforeNull]
  | cons c cs ih =>
      by_cases hc : c = '\x00'
      · simp [beforeNull, hc]
      · simp only [beforeNull] at ih
        simp [beforeNull, hc, Ne.symm hc, ih]

/-- The pattern of a filter tests for likeness. -/
theorem fits_pattern_iff (value own : String) :
    fits (beforeNull (Condition.pattern false value)) (beforeNull own.toList) = true ↔
      Alike value.toList own.toList := by
  have hpattern : beforeNull (Condition.pattern false value) =
      ['%'] ++ (beforeNull value.toList ++ if '\x00' ∈ value.toList then [] else ['%']) := by
    rw [Condition.pattern, List.append_assoc, beforeNull_append, beforeNull_append]
    simp [beforeNull]
  rw [fits_iff_stands, hpattern, stands_append_iff]
  constructor
  · rintro ⟨front, rest, hown, -, hrest⟩
    obtain ⟨middle, behind, rfl, hmiddle, hbehind⟩ := stands_append_iff.mp hrest
    refine ⟨front, middle, behind, by rw [hown, List.append_assoc], hmiddle, fun hnull => ?_⟩
    rw [if_pos hnull] at hbehind
    cases hbehind
    rfl
  · rintro ⟨front, middle, behind, hown, hmiddle, hnull⟩
    refine ⟨front, middle ++ behind, by rw [hown, List.append_assoc], stands_percent front,
      stands_append_iff.mpr ⟨middle, behind, rfl, hmiddle, ?_⟩⟩
    split
    · next hmem =>
      rw [hnull hmem]
      exact .done
    · exact stands_percent behind

instance (value own : List Char) : Decidable (Alike value own) :=
  decidable_of_iff
    (fits (beforeNull (Condition.pattern false (String.ofList value)))
      (beforeNull (String.ofList own).toList) = true)
    (by rw [fits_pattern_iff, String.toList_ofList, String.toList_ofList])

/-- A text that contains a value is like it. -/
theorem Contains.alike {value own : List Char} (hvalue : '\x00' ∉ value) (hown : '\x00' ∉ own)
    (h : Contains value own) : Alike value own := by
  obtain ⟨first, last, hletters⟩ := h
  obtain ⟨rest, behind, hrest, hfirst, -⟩ := List.map_eq_append_iff.mp hletters.symm
  obtain ⟨front, middle, rfl, -, hmiddle⟩ := List.map_eq_append_iff.mp hfirst
  refine ⟨front, middle, behind, ?_, ?_, fun hnull => absurd hnull hvalue⟩
  · rw [beforeNull_eq_self hown, hrest]
  · rw [beforeNull_eq_self hvalue]
    exact stands_of_letters hmiddle.symm

/-- A value without signs and null characters is like no texts but those that contain it. -/
theorem alike_iff_contains {value own : List Char}
    (hplain : ∀ c ∈ value, c ≠ '%' ∧ c ≠ '_' ∧ c ≠ '\x00') (hown : '\x00' ∉ own) :
    Alike value own ↔ Contains value own := by
  have hvalue : '\x00' ∉ value := fun h => (hplain _ h).2.2 rfl
  constructor
  · rintro ⟨front, middle, behind, hparts, hmiddle, -⟩
    rw [beforeNull_eq_self hown] at hparts
    rw [beforeNull_eq_self hvalue, ← fits_iff_stands,
      fits_iff_of_plain _ _ fun c hc => ⟨(hplain c hc).1, (hplain c hc).2.1⟩] at hmiddle
    exact ⟨front.map Char.toLower, behind.map Char.toLower, by simp [hparts, hmiddle]⟩
  · exact Contains.alike hvalue hown

/-- Of any other value there is a text that is like it and does not contain it. -/
theorem exists_alike_of_sign {value : List Char}
    (hsign : ∃ c ∈ value, c = '%' ∨ c = '_' ∨ c = '\x00') :
    ∃ own, '\x00' ∉ own ∧ Alike value own ∧ ¬ Contains value own := by
  have hown : '\x00' ∉ unsigned (beforeNull value) := by
    intro h
    obtain ⟨c, hc, hx⟩ := List.mem_map.mp h
    split at hx
    · cases hx
    · exact null_not_mem_beforeNull value (hx ▸ hc)
  refine ⟨unsigned (beforeNull value), hown, ⟨[], _, [], ?_, stands_unsigned _, fun _ => rfl⟩, ?_⟩
  · rw [beforeNull_eq_self hown, List.append_nil, List.nil_append]
  intro hcontains
  have hlength : value.length ≤ (beforeNull value).length := by
    simpa [unsigned] using hcontains.length_le
  have hnull : '\x00' ∉ value := fun h => by
    have := length_beforeNull_lt h
    omega
  -- what is contained is the whole text, and its signs have been replaced
  rw [Contains, beforeNull_eq_self hnull] at hcontains
  have hletters := hcontains.eq_of_length (by simp [unsigned])
  rw [unsigned, List.map_map, List.map_inj_left] at hletters
  obtain ⟨c, hc, rfl | rfl | rfl⟩ := hsign
  · exact absurd (hletters _ hc) (by decide)
  · exact absurd (hletters _ hc) (by decide)
  · exact hnull hc

/-! ## The filter -/

/-- A filter for texts like a value. -/
structure Likeness where
  column : Column
  value : List Char

/-- Whether a row satisfies a filter for texts like a value. Where nothing is stored nothing is. -/
def Likeness.Selects (likeness : Likeness) (row : Row) : Prop :=
  ∃ own, (cellAt row likeness.column.name).text? = some own ∧ Alike likeness.value own.toList

instance (likeness : Likeness) (row : Row) : Decidable (likeness.Selects row) :=
  match h : (cellAt row likeness.column.name).text? with
  | none => isFalse (by simp [Likeness.Selects, h])
  | some own => decidable_of_iff (Alike likeness.value own.toList) (by simp [Likeness.Selects, h])

/-- The filter for texts that a spec asks for: it names a column of texts, and its value is a
text. -/
def readLikeness? (model : Model) (spec : Datum) : Option Likeness := do
  let entries ← spec.entries?
  let field ← (← Entries.get? entries "field").text?
  let column ← (model.columnOf field).toOption
  let op := String.ofList (Text.upper (← Entries.get? entries "op").plainText.toList)
  let value ← (← Entries.get? entries "value").text?
  if op = "CONTAINS" ∧ (column.type = .string ∨ column.type = .text) then
    some ⟨column, value.toList⟩
  else
    none

/-- The condition of a filter for texts. -/
theorem filterCondition_of_likeness {operators : OperatorTable} {model : Model} {spec : Datum}
    {likeness : Likeness} (hcontains : operators.lookup "CONTAINS" = some Operator.contains)
    (h : readLikeness? model spec = some likeness) :
    ∃ condition, filterCondition operators model spec = .ok condition ∧
      condition.test = .ok fun row => decide (likeness.Selects row) := by
  simp only [readLikeness?, Option.bind_eq_bind, Option.bind_eq_some_iff] at h
  obtain ⟨entries, hentries, named, hnamed, field, hfield, column, hcolumn, op, hop, given, hgiven,
    value, hvalue, h⟩ := h
  obtain rfl := eq_record hentries
  obtain ⟨⟨hname, htype⟩, hlikeness⟩ := Option.ite_none_right_eq_some.mp h
  cases hlikeness
  obtain rfl : given = .text value := by
    cases given <;> cases hvalue
    rfl
  have hcoerced : coerce (some column.type) (.text value) = .text value := by
    rcases htype with htype | htype <;> simp [coerce, htype, ColumnType.read?]
  refine ⟨.alike column false (.text value), ?_, ?_⟩
  · simp only [filterCondition, specColumn_record hnamed hfield hcolumn, specEntry_record hop,
      specEntry_record hgiven, bind, Except.bind, hname, hcontains, hcoerced]
    rfl
  · have hcell : column.type.operand (.text value) = .ok (.text value) := rfl
    have hvalue : (Cell.text value).text? = some value := rfl
    simp only [Condition.test, hcell, hvalue, bind, Except.bind, pure, Except.pure]
    congr 1
    funext row
    rw [Bool.eq_iff_iff, decide_eq_true_iff, Likeness.Selects]
    cases (cellAt row column.name).text? with
    | none => simp
    | some own => simp [fits_pattern_iff]

/-- The rows that a filter for texts selects. -/
theorem matching_of_likeness {model : Model} {session : Session} {spec : Datum}
    {likeness : Likeness} (hready : session.waiting = false)
    (hcontains : session.operators.lookup "CONTAINS" = some Operator.contains)
    (h : readLikeness? model spec = some likeness) :
    model.matching session (.list [spec]) =
      .ok ((model.inOrder (session.rows model)).filter fun row => likeness.Selects row) := by
  obtain ⟨condition, hcondition, htest⟩ := filterCondition_of_likeness hcontains h
  have hconditions : [spec].mapM (filterCondition session.operators model) = .ok [condition] := by
    simp [hcondition, bind, Except.bind, pure, Except.pure]
  have htests : [condition].mapM Condition.test =
      .ok [fun row => decide (likeness.Selects row)] := by
    simp [htest, bind, Except.bind, pure, Except.pure]
  rw [matching_of_tests hready (.inl rfl) hconditions htests]
  congr 2
  funext row
  simp [Model.passesAll]

namespace Model

/-- What a list shows whose filter asks for texts that contain a value, in a session that can work,
with the operator under its name, and of a table with no more rows than one word counts. There are
rows, all those of the table whose text in the column is like the value, in the order that is asked
for and by identifier where it leaves a choice, such that every page is the part of these rows that
its window selects. Of texts without null characters, none that contains the value is left out. And
the texts that are like the value are those that contain it, case of ASCII letters apart, if and
only if the value has none of the signs of patterns and no null character. -/
theorem contains_selects (model : Model) (idColumn : Column) (session : Session) {spec : Datum}
    {likeness : Likeness} {orders : List Datum} {keys : List SortKey}
    (hready : session.waiting = false)
    (hcontains : session.operators.lookup "CONTAINS" = some Operator.contains)
    (hsize : ((session.rows model).length : Int) ≤ mostWord)
    (hspec : readLikeness? model spec = some likeness)
    (hkeys : orders.mapM (readOrder? model) = some keys) :
    (∃ rows : List Row,
      rows.Perm ((session.rows model).filter fun row => likeness.Selects row) ∧
      (rows.Pairwise fun a b => ¬ Precedes (keys ++ [⟨idColumn, false⟩]) b a) ∧
      ∀ options : ListOptions, options.filter = .list [spec] → Lists options.order orders →
        ReadableCursors options → (∀ n, options.last = some n → 0 ≤ n) →
        ∃ (start stop : Nat) (page : Datum),
          pageWindow rows.length (boundsOf options) = .ok ⟨start, stop⟩ ∧
          exec (model.list idColumn options) session = (.ok page, session) ∧
          Shows model rows start stop page) ∧
    (∀ own, '\x00' ∉ likeness.value → '\x00' ∉ own → Contains likeness.value own →
      Alike likeness.value own) ∧
    ((∀ own, '\x00' ∉ own → (Alike likeness.value own ↔ Contains likeness.value own)) ↔
      ∀ c ∈ likeness.value, c ≠ '%' ∧ c ≠ '_' ∧ c ≠ '\x00') := by
  refine ⟨?_, fun own => Contains.alike, ?_, fun h own => alike_iff_contains h⟩
  · obtain ⟨rows, hrows⟩ : ∃ rows, rows =
        ((model.inOrder (session.rows model)).filter fun row =>
          likeness.Selects row).mergeSort fun a b =>
            (SortKey.compareBy (keys ++ [⟨idColumn, false⟩]) a b).isLE := ⟨_, rfl⟩
    have hperm : rows.Perm ((session.rows model).filter fun row => likeness.Selects row) := by
      rw [hrows]
      exact (List.mergeSort_perm _ _).trans ((model.inOrder_perm _).filter _)
    have hcount : (rows.length : Int) ≤ mostWord := by
      have hle := List.length_filter_le (fun row => decide (likeness.Selects row))
        (session.rows model)
      rw [← hperm.length_eq] at hle
      omega
    refine ⟨rows, hperm, ?_, fun options hfilter horder hcursors hlast => ?_⟩
    · rw [← sorted_iff, hrows]
      exact SortKey.sorted_mergeSort _ _
    · have hlisted : model.listed idColumn session options.filter options.order = .ok rows := by
        rw [hfilter]
        exact model.listed_eq_ok.mpr ⟨_, _, matching_of_likeness hready hcontains hspec,
          listKeys_of_read horder hkeys, hrows⟩
      obtain ⟨start, stop, _, _, _, hpage, hexec⟩ :=
        exec_list_valid options hlisted hcount hcursors hlast
      exact ⟨start, stop, _, hpage, hexec, shows_page model hcount start stop⟩
  · intro hexact c hc
    by_contra hsign
    obtain ⟨own, hown, halike, hnot⟩ := exists_alike_of_sign ⟨c, hc, by grind⟩
    exact hnot ((hexact own hown).mp halike)

/-- Three gadgets, of which one has a label that contains the value, in the other case. -/
theorem contains_selects_gadgets :
    let model : Model := ⟨"Gadget", [⟨"id", .integer, false⟩, ⟨"label", .string, true⟩],
      ⟨"id", .integer, false⟩⟩
    let session : Session := { tables := [("Gadget", [[("id", .integer 3), ("label", .text "cut")],
      [("id", .integer 1), ("label", .text "a")], [("id", .integer 2), ("label", .null)]])] }
    let spec : Datum := .record [("field", .text "label"), ("op", .text "contains"),
      ("value", .text "U")]
    ∃ page, exec (model.list model.key { filter := .list [spec] }) session = (.ok page, session) ∧
      (edgesOf page).length = 1 := by
  intro model session spec
  have hspec : readLikeness? model spec = some ⟨⟨"label", .string, true⟩, ['U']⟩ := by rfl
  have hkeys : [].mapM (readOrder? model) = some [] := rfl
  obtain ⟨⟨rows, hperm, -, hpages⟩, -, -⟩ :=
    contains_selects model model.key session rfl rfl (by decide) hspec hkeys
  have hcount : rows.length = 1 := by
    rw [hperm.length_eq]
    rfl
  obtain ⟨start, stop, page, hwindow, hexec, hshows⟩ := hpages { filter := .list [spec] } rfl
    (.inr ⟨rfl, rfl⟩) ⟨⟨none, points_null⟩, ⟨none, points_null, by simp⟩⟩ (by simp)
  refine ⟨page, hexec, ?_⟩
  rw [hshows.count, length_between, hcount]
  have hbounds : (start : Int) = 0 ∧ (stop : Int) = 1 := by
    rw [hcount] at hwindow
    have hstarts : (⟨0, 1⟩ : Window) = ⟨start, stop⟩ := Except.ok.inj hwindow
    exact ⟨(Window.mk.inj hstarts).1.symm, (Window.mk.inj hstarts).2.symm⟩
  omega

/-- A filter for labels that contain a percent sign selects a gadget whose label contains none. -/
theorem contains_selects_all_gadgets :
    let model : Model := ⟨"Gadget", [⟨"id", .integer, false⟩, ⟨"label", .string, true⟩],
      ⟨"id", .integer, false⟩⟩
    let row : Row := [("id", .integer 1), ("label", .text "plain")]
    let session : Session := { tables := [("Gadget", [row])] }
    let spec : Datum := .record [("field", .text "label"), ("op", .text "CONTAINS"),
      ("value", .text "%")]
    ∃ page, exec (model.list model.key { filter := .list [spec] }) session = (.ok page, session) ∧
      (edgesOf page).length = 1 ∧ ¬ Contains "%".toList "plain".toList := by
  intro model row session spec
  have hspec : readLikeness? model spec = some ⟨⟨"label", .string, true⟩, ['%']⟩ := by rfl
  have hrows : model.inOrder (session.rows model) = [row] :=
    List.perm_singleton.mp (model.inOrder_perm [row])
  have hmatching : model.matching session (.list [spec]) = .ok [row] := by
    rw [matching_of_likeness rfl rfl hspec, hrows]
    rfl
  have hlisted : model.listed model.key session (.list [spec]) .null = .ok [row] :=
    model.listed_eq_ok.mpr ⟨[row], _, hmatching, rfl, (List.mergeSort_singleton row).symm⟩
  refine ⟨model.page [row] ⟨0, 1⟩, exec_list_page hlisted rfl rfl rfl, rfl, ?_⟩
  rw [Contains]
  decide

end Model

end RecordApi.Table
