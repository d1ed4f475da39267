import RecordApi.Proofs.Table.Soundness
import RecordApi.Proofs.Table.Walks

/-!
# Calls of a collection

The collection of a model with its key as identifier column behaves as a ledger, whatever calls are
made of it one after the other. A call answers what the ledger holds and changes the ledger as it
says; that is proved for each call of a sound table, which it leaves sound, and from it for all
sequences of calls by induction.
-/

namespace RecordApi.Table

open RecordApi.Action Std

/-- A call of a collection. -/
inductive Call where
  | find (id : Datum)
  | list (options : ListOptions)
  | create (id : Datum) (data : Datum.Entries)
  | update (id : Datum) (data : Datum.Entries)
  | upsert (id : Datum) (data : Datum.Entries)
  | delete (id : Datum)

namespace Call

variable {σ : Type}

/-- The operation that a call asks for. -/
def run (collection : Collection σ) : Call → Action σ Datum
  | find id => collection.find id
  | list options => collection.list options
  | create id data => collection.create id data
  | update id data => collection.update id data
  | upsert id data => collection.upsert id data
  | delete id => collection.delete id

/-- The outcomes of calls that are made one after the other, and the world that is left. -/
def runAll (collection : Collection σ) : List Call → σ → List (Except Failure Datum) × σ
  | [], world => ([], world)
  | call :: calls, world =>
    let (outcome, next) := exec (call.run collection) world
    let (outcomes, left) := runAll collection calls next
    (outcome :: outcomes, left)

end Call

namespace Model

variable (model : Model)

/-! ## What calls answer -/

/-- The cell that an identifier, perhaps sent as text, stands for in the key column. -/
def Identified (id : Datum) (cell : Cell) : Prop :=
  model.key.type.Identifies (coerce (some model.key.type) id) cell

/-- The record under an identifier of a ledger, missing if there is none. -/
def recordIn (ledger : Ledger) (cell : Cell) : Datum :=
  Datum.ofOption ((ledger cell).map fun content => .record (model.recordOf content))

/-- A record, perhaps the missing one, is what a ledger has under an identifier. -/
def Found (ledger : Ledger) (id record : Datum) : Prop :=
  ∃ cell, model.Identified id cell ∧ record = model.recordIn ledger cell

/-- No other column goes by the name of the key. -/
def Unaliased : Prop :=
  ∀ column ∈ model.columns, Naming.snakeToCamel column.name false = model.key.name →
    column.name = model.key.name

/-- A page whose nodes are what a ledger has under their identifiers. The identifier of a node is
what its content has under the name of the key, and so has the node unless another column goes by
that name. -/
def ShowsFound (ledger : Ledger) (page : Datum) : Prop :=
  ∀ edge ∈ edgesOf page, ∃ content, entryOf edge "node" = .record (model.recordOf content) ∧
    model.Found ledger (content model.key.name) (entryOf edge "node") ∧
    (model.Unaliased → entryOf (entryOf edge "node") model.key.name = content model.key.name)

/-- A page with a node for everything that a ledger holds. -/
def ShowsAll (ledger : Ledger) (page : Datum) : Prop :=
  ∀ cell content, ledger cell = some content →
    ∃ edge ∈ edgesOf page, entryOf edge "node" = .record (model.recordOf content)

/-- What a call answers on a ledger, and the ledger that it leaves. A list shows what is found, and
all of it if nothing in particular is asked for. A creation puts a content under an identifier that
is not in use, and answers it; an update and a deletion answer whether there was something to change
or to remove; an update or insertion always answers yes. -/
def Answers (before : Ledger) : Call → Except Failure Datum → Ledger → Prop
  | .find id, outcome, after => after = before ∧
      ∃ record, outcome = .ok record ∧ model.Found before id record
  | .list options, outcome, after => after = before ∧
      (∀ page, outcome = .ok page → model.ShowsFound before page) ∧
      (options = {} → ∃ page, outcome = .ok page ∧ model.ShowsAll before page)
  | .create id data, outcome, after => ∃ given cell,
      outcome = .ok given ∧ model.key.type.Identifies given cell ∧
      (id ≠ .null → given = coerce (some model.key.type) id) ∧ before cell = none ∧
      after = before.put cell (model.keyedWith given (model.revised data blank))
  | .update id data, outcome, after => ∃ cell, model.Identified id cell ∧
      outcome = .ok (.bool (before cell).isSome) ∧
      after = before.change cell (model.revised data)
  | .upsert id data, outcome, after => ∃ cell, model.Identified id cell ∧
      outcome = .ok (.bool true) ∧
      after = if (before cell).isSome then before.change cell (model.revised data)
        else before.put cell (model.keyedWith (coerce (some model.key.type) id)
          (model.revised data blank))
  | .delete id, outcome, after => ∃ cell, model.Identified id cell ∧
      outcome = .ok (.bool (before cell).isSome) ∧ after = before.remove cell

/-- The outcomes of calls and the ledger they leave, each call as it answers on the ledger that the
calls before it have left. -/
inductive Conforms : Ledger → List Call → List (Except Failure Datum) → Ledger → Prop where
  | done {ledger} : Conforms ledger [] [] ledger
  | step {before between after call calls outcome outcomes} :
      model.Answers before call outcome between → Conforms between calls outcomes after →
      Conforms before (call :: calls) (outcome :: outcomes) after

/-! ## Which calls are made -/

/-- The identifier of a row that is created: the given one, or else the next number or a text that
is made up. -/
def givenId (session : Session) (id : Datum) : Datum :=
  if id.isNull then
    if model.numbersRows then .int (model.nextKey (session.rows model))
    else .text (String.ofList (Text.hexDigits 32 (session.drawn + 1)))
  else coerce (some model.key.type) id

/-- Calls that may be made. Identifiers are of the key column's type and those of creations are not
in use, data names columns other than the key with values that they can be given, and required
columns are given something. -/
def Legal (session : Session) : Call → Prop
  | .find id | .delete id => ∃ cell, model.Identified id cell
  | .list _ => True
  | .create id data => model.Names data ∧ model.Whole (model.revised data blank) ∧
      ∃ cell, model.key.type.Identifies (model.givenId session id) cell ∧
        model.view (session.rows model) cell = none
  | .update id data => model.Names data ∧ ∃ cell, model.Identified id cell ∧
      ∀ content, model.view (session.rows model) cell = some content →
        model.Whole (model.revised data content)
  | .upsert id data => model.Names data ∧ ∃ cell, model.Identified id cell ∧
      model.Whole (model.revised data ((model.view (session.rows model) cell).getD blank))

/-- Calls each of which may be made after those before it. -/
inductive LegalRun : Session → List Call → Prop where
  | done {session} : LegalRun session []
  | step {session call calls} :
      model.Legal session call →
      LegalRun (exec (call.run (model.collection model.key)) session).2 calls →
      LegalRun session (call :: calls)

/-- A session in which the table of the model is sound and that does not wait for a rollback. -/
structure Ready (session : Session) : Prop where
  ready : session.waiting = false
  sound : model.Sound (session.rows model)

/-- What a call does to a session. -/
def Keeps (session : Session) (call : Call) : Prop :=
  ∃ outcome left, exec (call.run (model.collection model.key)) session = (outcome, left) ∧
    model.Ready left ∧
    model.Answers (model.view (session.rows model)) call outcome (model.view (left.rows model))

variable {model} {session : Session}

/-- A call that has written the rows of a sound table leaves the session ready. -/
theorem keeps_withRows {call : Call} {outcome : Except Failure Datum} {middle : Session}
    {left : List Row}
    (hexec : exec (call.run (model.collection model.key)) session =
      (outcome, middle.withRows model left))
    (hready : middle.waiting = false) (hsound : model.Sound left)
    (hanswers : model.Answers (model.view (session.rows model)) call outcome (model.view left)) :
    model.Keeps session call := by
  refine ⟨outcome, _, hexec, ⟨hready, ?_⟩, ?_⟩
  · rwa [Session.rows_withRows]
  · rwa [Session.rows_withRows]

/-! ## Finding and listing -/

theorem exec_find (hmodel : model.WellFormed) (h : model.Ready session) {id : Datum} {cell : Cell}
    (hid : model.Identified id cell) :
    exec (model.find model.key id) session =
      (.ok (model.recordIn (model.view (session.rows model)) cell), session) := by
  have hrecord : model.recordIn (model.view (session.rows model)) cell =
      Datum.ofOption (((model.inOrder (session.rows model)).find? (model.hasKey cell)).map
        fun row => .record (model.record row)) := by
    rw [recordIn, ← h.sound.view_inOrder, view, Option.map_map]
    simp only [Function.comp_def, record_eq hmodel]
  rw [find, exec_bind, exec_findRow h.ready hid, after_ok, hrecord]
  rfl

theorem keeps_find (hmodel : model.WellFormed) (h : model.Ready session) {id : Datum}
    (hid : ∃ cell, model.Identified id cell) : model.Keeps session (.find id) := by
  obtain ⟨cell, hid⟩ := hid
  exact ⟨_, session, exec_find hmodel h hid, h, rfl, _, rfl, cell, hid, rfl⟩

/-- The record of a content tells what the content has under the name of the key. -/
theorem get_recordOf_key (hmodel : model.WellFormed) (hname : model.Unaliased) (content : Content) :
    Entries.get (model.recordOf content) model.key.name = content model.key.name := by
  have hfold (columns : List Column) (hmem : ∀ column ∈ columns, column ∈ model.columns)
      (done : Datum.Entries)
      (hdone : (∃ column ∈ columns, column.name = model.key.name) ∨
        Entries.get done model.key.name = content model.key.name) :
      Entries.get (columns.foldl (fun done column =>
        Entries.set (Naming.snakeToCamel column.name false) (content column.name)
          (Entries.set column.name (content column.name) done)) done) model.key.name =
        content model.key.name := by
    induction columns generalizing done with
    | nil => simpa using hdone
    | cons column columns ih =>
        rw [List.foldl_cons]
        refine ih (fun other h => hmem other (List.mem_cons_of_mem _ h)) _ ?_
        rw [Entries.get_set, Entries.get_set]
        split
        · next hcamel =>
          right
          rw [hname column (hmem column List.mem_cons_self) hcamel.symm]
        · split
          · next hsame => exact .inr (by rw [hsame])
          · next hother =>
            refine hdone.imp_left ?_
            rintro ⟨found, hfound, hkey⟩
            rcases List.mem_cons.mp hfound with rfl | hfound
            · exact absurd hkey.symm hother
            · exact ⟨found, hfound, hkey⟩
  exact hfold model.columns (fun _ h => h) [] (.inl ⟨model.key, hmodel.key, rfl⟩)

/-- The edges of a page show rows of the list that it is a page of. -/
theorem node_of_mem_edgesOf {rows : List Row} {window : Paging.Window} {edge : Datum}
    (h : edge ∈ edgesOf (model.page rows window)) :
    ∃ row ∈ rows, entryOf edge "node" = .record (model.record row) := by
  have hedges : edgesOf (model.page rows window) =
      ((rows.drop window.start.toNat).take (window.stop - window.start).toNat).zipIdx.map
        fun shown => Datum.record
          [("node", .record (model.record shown.1)),
            ("cursor", .text (Paging.encodeCursor (window.start + shown.2)))] := rfl
  rw [hedges] at h
  obtain ⟨⟨row, index⟩, hrow, rfl⟩ := List.mem_map.mp h
  have hmem := List.fst_mem_of_mem_zipIdx hrow
  exact ⟨row, List.mem_of_mem_drop (List.mem_of_mem_take hmem), rfl⟩

/-- A row of a sound table is found under what it has under the name of the key. -/
theorem found_of_mem (hmodel : model.WellFormed) (h : model.Ready session) {row : Row}
    (hrow : row ∈ session.rows model) :
    model.Found (model.view (session.rows model)) (model.content row model.key.name)
      (.record (model.record row)) := by
  obtain ⟨cell, hidentifies, hkey⟩ := h.sound.keyed row hrow
  have hview : model.view (session.rows model) cell = some (model.content row) :=
    (view_eq_some h.sound.distinct).mpr
      ⟨row, hrow, hasKey_iff.mpr (OrientedCmp.eq_symm hkey), rfl⟩
  refine ⟨cell, ?_, ?_⟩
  · rwa [Identified, ColumnType.coerce_owned hidentifies.owned]
  · rw [recordIn, hview, record_eq hmodel]
    rfl

/-- A list for which nothing in particular is asked holds all rows. -/
theorem listed_all (h : model.Ready session) :
    ∃ rows, model.listed model.key session .null .null = .ok rows ∧
      rows.Perm (session.rows model) := by
  have hread : session.readable model = .ok (model.inOrder (session.rows model)) := by
    simp [Session.readable, h.ready]
  have hmatching : model.matching session .null = .ok (model.inOrder (session.rows model)) := by
    have hall : (model.inOrder (session.rows model)).filter (passesAll []) =
        model.inOrder (session.rows model) := List.filter_eq_self.mpr fun _ _ => rfl
    simp only [matching, hread, specItems, isTrue, Bool.false_eq_true, if_false]
    exact congrArg Except.ok hall
  refine ⟨_, model.listed_eq_ok.mpr ⟨_, [⟨model.key, false⟩], hmatching, rfl, rfl⟩, ?_⟩
  exact (List.mergeSort_perm _ _).trans (model.inOrder_perm _)

/-- A page of all rows of a sound table shows all of its ledger. -/
theorem showsAll_page (hmodel : model.WellFormed) (h : model.Ready session) {rows : List Row}
    (hperm : rows.Perm (session.rows model)) :
    model.ShowsAll (model.view (session.rows model))
      (model.page rows ⟨(0 : Nat), rows.length⟩) := by
  intro cell content hcontent
  obtain ⟨row, hrow, -, rfl⟩ := (view_eq_some h.sound.distinct).mp hcontent
  obtain ⟨i, hi⟩ := List.mem_iff_getElem?.mp (hperm.mem_iff.mpr hrow)
  have hedge : (model.edges rows)[i]? = some (model.edge row i) := by
    rw [getElem?_edges, hi]
    rfl
  refine ⟨model.edge row i, ?_, by rw [← record_eq hmodel]; rfl⟩
  rw [edgesOf_page, ← model.length_edges rows, between_all]
  exact List.mem_of_getElem? hedge

theorem keeps_list (hmodel : model.WellFormed) (h : model.Ready session) (options : ListOptions) :
    model.Keeps session (.list options) := by
  have hexec := exec_list model model.key options session
  refine ⟨_, session, hexec, h, rfl, ?_, ?_⟩
  · intro page hpage edge hedge
    simp only [bind_eq_ok] at hpage
    obtain ⟨rows, hrows, window, -, hshown⟩ := hpage
    rw [← Except.ok.inj hshown] at hedge
    obtain ⟨row, hrow, hnode⟩ := node_of_mem_edgesOf hedge
    obtain ⟨found, keys, hfound, -, rfl⟩ := model.listed_eq_ok.mp hrows
    obtain ⟨test, hperm⟩ := model.subperm_of_matching hfound
    have hmem : row ∈ session.rows model :=
      List.mem_of_mem_filter (hperm.mem_iff.mp ((List.mergeSort_perm found _).mem_iff.mp hrow))
    rw [hnode]
    refine ⟨model.content row, by rw [record_eq hmodel], found_of_mem hmodel h hmem,
      fun hname => ?_⟩
    rw [record_eq hmodel]
    exact get_recordOf_key hmodel hname (model.content row)
  · rintro rfl
    obtain ⟨rows, hrows, hperm⟩ := listed_all h
    have hwhole := hexec.symm.trans (exec_list_whole hrows)
    exact ⟨_, congrArg Prod.fst hwhole, showsAll_page hmodel h hperm⟩

/-! ## Creating -/

theorem exec_drawId (session : Session) :
    exec Session.drawId session =
      (.ok (.text (String.ofList (Text.hexDigits 32 (session.drawn + 1)))),
        { session with drawn := session.drawn + 1 }) := rfl

/-- An answer other than the missing one is what the values have under the name of a column. -/
theorem exec_answer {name : String} {given : Datum} (hgiven : given ≠ .null)
    (values : Datum.Entries) (missing : Action Session Datum) (session : Session) :
    exec (match Entries.get (Entries.set name given values) name with
      | .null => missing
      | value => return value) session = (.ok given, session) := by
  rw [Entries.get_set_self]
  cases given with
  | null => exact absurd rfl hgiven
  | _ => rfl

section Create

variable {id : Datum} {data values : Datum.Entries} {left : List Row} {row : Row}

theorem exec_create_given (hready : session.waiting = false) (hid : id.isNull = false)
    (hgiven : model.givenId session id ≠ .null) (hvalues : model.values data = .ok values)
    (hadd : model.addRow (Entries.set model.key.name (model.givenId session id) values)
      (session.rows model) = .ok (left, row)) :
    exec (model.create model.key id data) session =
      (.ok (model.givenId session id), session.withRows model left) := by
  have hcoerced : model.givenId session id = coerce (some model.key.type) id := by
    simp [givenId, hid]
  rw [create, exec_bind, Session.exec_lift, hvalues, after_ok]
  simp only [hid, Bool.not_false, if_true, exec_bind, exec_pure, after_ok, ← hcoerced,
    Session.exec_flush_ok hready hadd]
  exact exec_answer hgiven values _ _

/-- Where identifiers are no integers, a missing one is a text that is made up. -/
theorem exec_create_drawn (hready : session.waiting = false) (hid : id.isNull = true)
    (htype : model.key.type.isInteger = false) (hvalues : model.values data = .ok values)
    (hadd : model.addRow (Entries.set model.key.name (model.givenId session id) values)
      (session.rows model) = .ok (left, row)) :
    exec (model.create model.key id data) session =
      (.ok (model.givenId session id),
        ({ session with drawn := session.drawn + 1 } : Session).withRows model left) := by
  have hnumbers : model.numbersRows = false := by
    cases htypes : model.key.type <;> simp_all [numbersRows, ColumnType.isInteger]
  have hdrawn : model.givenId session id =
      .text (String.ofList (Text.hexDigits 32 (session.drawn + 1))) := by
    simp [givenId, hid, hnumbers]
  let drawn : Session := { session with drawn := session.drawn + 1 }
  have hdrawnReady : drawn.waiting = false := hready
  have hflush := Session.exec_flush_ok hdrawnReady hadd
  rw [create, exec_bind, Session.exec_lift, hvalues, after_ok]
  simp only [hid, htype, Bool.not_true, Bool.false_eq_true, if_false, exec_bind, exec_drawId,
    exec_pure, after_ok, ← hdrawn, hflush, drawn]
  exact exec_answer (by simp [hdrawn]) values _ _

/-- Where rows are numbered, a missing identifier is the number that the row is given. -/
theorem exec_create_numbered (hready : session.waiting = false) (hid : id.isNull = true)
    (hnumbers : model.numbersRows = true) (hvalues : model.values data = .ok values)
    (hkeyless : ∀ entry ∈ values, entry.1 ≠ model.key.name)
    (hadd : model.addRow values (session.rows model) = .ok (left, row))
    (hrow : model.key.type.value (model.keyOf row) = .int (model.nextKey (session.rows model))) :
    exec (model.create model.key id data) session =
      (.ok (model.givenId session id), session.withRows model left) := by
  have hkey : Entries.get values model.key.name = .null := by
    rw [Entries.get, List.lookup_eq_none_iff.mpr fun entry hentry => by
      simpa using (hkeyless entry hentry).symm]
    rfl
  have htype : model.key.type.isInteger = true := by
    simp_all [numbersRows, ColumnType.isInteger]
  have hnext : model.givenId session id = .int (model.nextKey (session.rows model)) := by
    simp [givenId, hid, hnumbers]
  rw [create, exec_bind, Session.exec_lift, hvalues, after_ok]
  simp only [hid, htype, Bool.not_true, Bool.false_eq_true, if_false, if_true, exec_bind,
    exec_pure, after_ok, Session.exec_flush_ok hready hadd, hkey, hrow, hnext]

end Create

theorem keeps_create (hmodel : model.WellFormed) (h : model.Ready session) {id : Datum}
    {data : Datum.Entries} (hlegal : model.Legal session (.create id data)) :
    model.Keeps session (.create id data) := by
  obtain ⟨hdata, hwhole, cell, hgiven, hunused⟩ := hlegal
  obtain ⟨values, hvalues, hfits, hkeyless, hwritten, -⟩ := values_of_names hdata
  rw [← hwritten] at hwhole
  cases hid : id.isNull with
  | false =>
      obtain ⟨left, row, hadd, hsound, hview⟩ := h.sound.addRow hmodel hgiven hunused hfits hwhole
      exact keeps_withRows (exec_create_given h.ready hid hgiven.owned.ne_null hvalues hadd)
        h.ready hsound ⟨_, cell, rfl, hgiven, fun _ => by simp [givenId, hid], hunused,
          by rw [hview, hwritten]⟩
  | true =>
      have hmissing : id ≠ .null → model.givenId session id = coerce (some model.key.type) id := by
        intro hne
        cases id <;> simp_all [Datum.isNull]
      cases hnumbers : model.numbersRows with
      | true =>
          have hnext : model.givenId session id = .int (model.nextKey (session.rows model)) := by
            simp [givenId, hid, hnumbers]
          rw [hnext] at hgiven
          obtain ⟨left, row, hadd, hrow, hsound, hview⟩ :=
            h.sound.addRow_numbered hmodel hnumbers hgiven hunused hfits hkeyless hwhole
          exact keeps_withRows
            (exec_create_numbered h.ready hid hnumbers hvalues hkeyless hadd hrow) h.ready hsound
            ⟨_, cell, rfl, hnext ▸ hgiven, hmissing, hunused, by rw [hview, hwritten, hnext]⟩
      | false =>
          have htype : model.key.type.isInteger = false := by
            have howned := hgiven.owned
            simp only [givenId, hid, hnumbers, if_true, Bool.false_eq_true, if_false] at howned
            exact howned.not_isInteger
          obtain ⟨left, row, hadd, hsound, hview⟩ :=
            h.sound.addRow hmodel hgiven hunused hfits hwhole
          exact keeps_withRows (exec_create_drawn h.ready hid htype hvalues hadd) h.ready hsound
            ⟨_, cell, rfl, hgiven, hmissing, hunused, by rw [hview, hwritten]⟩

/-! ## Changing and deleting -/

theorem keeps_update (hmodel : model.WellFormed) (h : model.Ready session) {id : Datum}
    {data : Datum.Entries} (hlegal : model.Legal session (.update id data)) :
    model.Keeps session (.update id data) := by
  obtain ⟨hdata, cell, hid, hwhole⟩ := hlegal
  obtain ⟨values, hvalues, hfits, hkeyless, hwritten, hempty⟩ := values_of_names hdata
  have hrevised : model.written values = model.revised data := funext hwritten
  by_cases hnone : values = []
  · -- nothing is written, and the answer is whether there is such a row
    have hexec : exec (model.update model.key id data) session =
        (.ok (.bool (model.view (session.rows model) cell).isSome), session) := by
      rw [update, exec_bind, Session.exec_lift, hvalues, after_ok, hnone]
      simp only [List.isEmpty_nil, if_true, exec_bind, exec_find hmodel h hid, after_ok, exec_pure,
        recordIn]
      cases model.view (session.rows model) cell <;> rfl
    refine ⟨_, session, hexec, h, cell, hid, rfl, ?_⟩
    obtain rfl := hempty.mp hnone
    exact (Ledger.change_id _ cell).symm
  · rw [← hrevised] at hwhole
    obtain ⟨left, hchange, hsound, hview⟩ := h.sound.changeRows hmodel cell hfits hkeyless hwhole
    have hexec : exec (model.update model.key id data) session =
        (.ok (.bool (model.view (session.rows model) cell).isSome),
          session.withRows model left) := by
      rw [update, exec_bind, Session.exec_lift, hvalues, after_ok]
      rw [if_neg (by simpa using hnone)]
      refine Session.exec_write_ok h.ready ?_
      simp only [idTest_eq hid, hchange, bind, Except.bind, pure, Except.pure]
    exact keeps_withRows hexec h.ready hsound ⟨cell, hid, rfl, by rw [hview, hrevised]⟩

section Upsert

variable {id : Datum} {data values : Datum.Entries} {cell : Cell} {left : List Row} {row : Row}

/-- Where there is no row of the identifier, one is added. -/
theorem exec_upsert_missing (hready : session.waiting = false) (hid : model.Identified id cell)
    (hvalues : model.values data = .ok values)
    (hfound : (model.inOrder (session.rows model)).find? (model.hasKey cell) = none)
    (hadd : model.addRow (Entries.set model.key.name (coerce (some model.key.type) id) values)
      (session.rows model) = .ok (left, row)) :
    exec (model.upsert model.key id data) session =
      (.ok (.bool true), session.withRows model left) := by
  rw [upsert, exec_bind, Session.exec_lift, hvalues, after_ok, exec_bind,
    exec_findRow hready hid, hfound, after_ok, exec_bind, Session.exec_flush_ok hready hadd]
  rfl

/-- Where there is a row of the identifier, the rows of its key are changed. -/
theorem exec_upsert_found (hready : session.waiting = false) (hid : model.Identified id cell)
    (hvalues : model.values data = .ok values)
    (hfound : (model.inOrder (session.rows model)).find? (model.hasKey cell) = some row)
    {used : Bool}
    (hchange : model.changeRows (model.hasKey cell) values (session.rows model) =
      .ok (left, used)) :
    exec (model.upsert model.key id data) session =
      (.ok (.bool true), session.withRows model left) := by
  have hsame : (fun other => (model.keyOf other).compare (model.keyOf row) == .eq) =
      model.hasKey cell := hasKey_congr (hasKey_iff.mp (List.find?_some hfound))
  rw [← hsame] at hchange
  rw [upsert, exec_bind, Session.exec_lift, hvalues, after_ok, exec_bind,
    exec_findRow hready hid, hfound, after_ok, exec_bind, Session.exec_flush_ok hready hchange]
  rfl

end Upsert

theorem keeps_upsert (hmodel : model.WellFormed) (h : model.Ready session) {id : Datum}
    {data : Datum.Entries} (hlegal : model.Legal session (.upsert id data)) :
    model.Keeps session (.upsert id data) := by
  obtain ⟨hdata, cell, hid, hwhole⟩ := hlegal
  obtain ⟨values, hvalues, hfits, hkeyless, hwritten, -⟩ := values_of_names hdata
  have hrevised : model.written values = model.revised data := funext hwritten
  rw [← hrevised] at hwhole
  have hview : model.view (session.rows model) cell =
      ((model.inOrder (session.rows model)).find? (model.hasKey cell)).map model.content := by
    rw [← h.sound.view_inOrder]
    rfl
  cases hfound : (model.inOrder (session.rows model)).find? (model.hasKey cell) with
  | none =>
      rw [hfound, Option.map_none] at hview
      rw [hview] at hwhole
      obtain ⟨left, row, hadd, hsound, hleft⟩ := h.sound.addRow hmodel hid hview hfits hwhole
      refine keeps_withRows (exec_upsert_missing h.ready hid hvalues hfound hadd) h.ready hsound
        ⟨cell, hid, rfl, ?_⟩
      rw [hleft, hview, hrevised]
      rfl
  | some row =>
      rw [hfound, Option.map_some] at hview
      rw [hview] at hwhole
      obtain ⟨left, hchange, hsound, hleft⟩ :=
        h.sound.changeRows hmodel cell hfits hkeyless fun content hcontent => by
          rw [hview] at hcontent
          obtain rfl := Option.some.inj hcontent
          exact hwhole
      refine keeps_withRows (exec_upsert_found h.ready hid hvalues hfound hchange) h.ready hsound
        ⟨cell, hid, rfl, ?_⟩
      rw [hleft, hview, hrevised]
      rfl

theorem keeps_delete (h : model.Ready session) {id : Datum}
    (hid : ∃ cell, model.Identified id cell) : model.Keeps session (.delete id) := by
  obtain ⟨cell, hid⟩ := hid
  obtain ⟨left, hremove, hsound, hview⟩ := h.sound.removeRows cell
  have hexec : exec (model.delete model.key id) session =
      (.ok (.bool (model.view (session.rows model) cell).isSome),
        session.withRows model left) := by
    refine Session.exec_write_ok h.ready ?_
    simp only [idTest_eq hid, hremove, bind, Except.bind, pure, Except.pure]
  exact keeps_withRows hexec h.ready hsound ⟨cell, hid, rfl, hview⟩

/-! ## Sequences of calls -/

/-- A call that may be made answers what the ledger of a sound table says, and leaves the table
sound. -/
theorem keeps_of_legal (hmodel : model.WellFormed) (h : model.Ready session) {call : Call}
    (hlegal : model.Legal session call) : model.Keeps session call := by
  cases call with
  | find id => exact keeps_find hmodel h hlegal
  | list options => exact keeps_list hmodel h options
  | create id data => exact keeps_create hmodel h hlegal
  | update id data => exact keeps_update hmodel h hlegal
  | upsert id data => exact keeps_upsert hmodel h hlegal
  | delete id => exact keeps_delete h hlegal

/-- The collection of a sound table answers any sequence of calls that may be made as the ledger of
the table does, and leaves the ledger that the calls make of it. -/
theorem calls_keep_ledger (model : Model) (hmodel : model.WellFormed) (session : Session)
    (calls : List Call) (hready : model.Ready session) (hlegal : model.LegalRun session calls) :
    ∃ outcomes left,
      Call.runAll (model.collection model.key) calls session = (outcomes, left) ∧
      model.Conforms (model.view (session.rows model)) calls outcomes
        (model.view (left.rows model)) ∧
      model.Ready left := by
  induction calls generalizing session with
  | nil => exact ⟨[], session, rfl, .done, hready⟩
  | cons call calls ih =>
      cases hlegal with
      | step hcall hcalls =>
          obtain ⟨outcome, next, hexec, hnext, hanswers⟩ := keeps_of_legal hmodel hready hcall
          rw [hexec] at hcalls
          obtain ⟨outcomes, left, hrun, hconforms, hleft⟩ := ih next hnext hcalls
          refine ⟨outcome :: outcomes, left, ?_, .step hanswers hconforms, hleft⟩
          simp only [Call.runAll, hexec, hrun]

/-- A gadget is created, changed, listed and deleted. -/
theorem calls_keep_ledger_gadgets :
    let model : Model := ⟨"Gadget", [⟨"id", .integer, false⟩, ⟨"label", .string, true⟩,
      ⟨"unit_count", .integer, false⟩], ⟨"id", .integer, false⟩⟩
    let calls : List Call := [.create .null [("label", .text "a")],
      .update (.text "1") [("unitCount", .int 5)], .list {}, .delete (.int 1)]
    ∃ outcomes left, Call.runAll (model.collection model.key) calls {} = (outcomes, left) ∧
      model.Conforms (fun _ => none) calls outcomes (model.view (left.rows model)) ∧
      outcomes.head? = some (.ok (.int 1)) ∧ outcomes.getLast? = some (.ok (.bool true)) ∧
      left.rows model = [] := by
  intro model calls
  have hmodel : model.WellFormed := ⟨by decide, by decide⟩
  have hready : model.Ready {} := ⟨rfl, rfl, by simp [Session.rows]⟩
  have hidentifies : model.key.type.Identifies (.int 1) (.integer 1) :=
    ⟨.int rfl rfl, rfl, by simp, by simp⟩
  have hcreate : model.Legal {} (.create .null [("label", .text "a")]) := by
    refine ⟨?_, ?_, .integer 1, hidentifies, rfl⟩
    · intro entry hentry
      obtain rfl := List.mem_singleton.mp hentry
      exact ⟨⟨"label", .string, true⟩, rfl, by decide, .inr (.text rfl)⟩
    · unfold Whole
      decide
  have hupdate (session : Session)
      (hrows : session.rows model = [[("id", .integer 1), ("label", .text "a")]]) :
      model.Legal session (.update (.text "1") [("unitCount", .int 5)]) := by
    refine ⟨?_, .integer 1, hidentifies, ?_⟩
    · intro entry hentry
      obtain rfl := List.mem_singleton.mp hentry
      exact ⟨⟨"unit_count", .integer, false⟩, rfl, by decide, .inr (.int rfl rfl)⟩
    · intro content hcontent
      rw [hrows] at hcontent
      obtain ⟨row, hrow, rfl⟩ := Option.map_eq_some_iff.mp hcontent
      obtain rfl := List.mem_singleton.mp (List.mem_of_find?_eq_some hrow)
      unfold Whole
      decide
  obtain ⟨outcomes, left, hrun, hconforms, -⟩ := calls_keep_ledger model hmodel {} calls hready
    (.step hcreate (.step (hupdate _ rfl) (.step trivial (.step ⟨_, hidentifies⟩ .done))))
  have houtcomes : (Call.runAll (model.collection model.key) calls {}).1 = outcomes :=
    congrArg Prod.fst hrun
  have hleft : (Call.runAll (model.collection model.key) calls {}).2 = left :=
    congrArg Prod.snd hrun
  refine ⟨outcomes, left, hrun, hconforms, ?_, ?_, ?_⟩
  · rw [← houtcomes]
    decide +kernel
  · rw [← houtcomes]
    decide +kernel
  · rw [← hleft]
    decide +kernel

/-- Not every value of the key's type is an identifier. An integer of more than a word is refused,
what is no number is no key, and a number with more places than the key column keeps is listed with
an identifier under which it is not found. -/
theorem collection_refuses_or_loses_identifiers :
    let gadgets : Model := ⟨"Gadget", [⟨"id", .integer, false⟩], ⟨"id", .integer, false⟩⟩
    let weights : Model := ⟨"Weight", [⟨"id", .float, false⟩], ⟨"id", .float, false⟩⟩
    let prices : Model := ⟨"Price", [⟨"id", .numeric 2, false⟩], ⟨"id", .numeric 2, false⟩⟩
    let priced := (exec (Call.run (prices.collection prices.key) (.create (.text "0.125") [])) {}).2
    (coerce (some gadgets.key.type) (.text "9223372036854775808") = .int 9223372036854775808 ∧
      (exec (Call.run (gadgets.collection gadgets.key)
        (.find (.text "9223372036854775808"))) {}).1 = .error .tooLarge) ∧
    (coerce (some weights.key.type) (.text "nan") = .real .nan ∧
      (exec (Call.run (weights.collection weights.key)
        (.create (.text "nan") [])) {}).1 = .error .constraint) ∧
    ((exec (Call.run (prices.collection prices.key) (.list {})) priced).1.map
        (fun page => (edgesOf page).map fun edge => entryOf (entryOf edge "node") "id") =
          .ok [.decimal "0.12"] ∧
      (exec (Call.run (prices.collection prices.key) (.find (.decimal "0.12"))) priced).1 =
        .ok .null) := by
  refine ⟨⟨rfl, rfl⟩, ⟨?_, ?_⟩, ?_, ?_⟩
  all_goals decide +kernel

end Model

end RecordApi.Table
