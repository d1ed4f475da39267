import RecordApi.Proofs.Table.Addressing

/-!
# Writes that fail

A creation, and an update or insertion, that fails leaves the rows as they were. If it fails before
its flush, nothing else is changed either. If its flush fails, the session waits for a rollback: no
later call answers, until the session is rolled back and is as if the call had not been made.
-/

namespace RecordApi.Table

open RecordApi.Action

/-! ## Actions that change no rows -/

namespace Session

variable {α β : Type}

/-- A session that has the rows of another, is ready only if that one is, and differs from it in
nothing but whether it waits and the identifiers that it has made up. -/
structure Spared (session left : Session) : Prop where
  eq_with : left = { session with waiting := left.waiting, drawn := left.drawn }
  waiting : session.waiting = true → left.waiting = true

theorem Spared.refl (session : Session) : Spared session session :=
  ⟨rfl, fun h => h⟩

theorem Spared.trans {first second third : Session} (h : Spared first second)
    (h' : Spared second third) : Spared first third := by
  refine ⟨?_, fun hwaiting => h'.waiting (h.waiting hwaiting)⟩
  have hsecond := h.eq_with
  have hthird := h'.eq_with
  rw [hsecond] at hthird
  exact hthird

theorem Spared.tables {session left : Session} (h : Spared session left) :
    left.tables = session.tables := by
  rw [h.eq_with]

/-- An action that changes no rows. -/
def Looks (action : Action Session α) : Prop :=
  ∀ session outcome left, exec action session = (outcome, left) → Spared session left

/-- An action that changes no rows when it fails. -/
def Spares (action : Action Session α) : Prop :=
  ∀ session failure left, exec action session = (.error failure, left) → Spared session left

/-- An action that fails in a session that waits for a rollback. -/
def Waits (action : Action Session α) : Prop :=
  ∀ session answer left, exec action session = (.ok answer, left) → session.waiting = false

theorem Looks.spares {action : Action Session α} (h : Looks action) : Spares action :=
  fun session failure left => h session (.error failure) left

theorem looks_pure (a : α) : Looks (pure a : Action Session α) := by
  intro session outcome left h
  cases h
  exact Spared.refl session

theorem looks_get : Looks (get : Action Session Session) := by
  intro session outcome left h
  cases h
  exact Spared.refl session

theorem looks_lift (outcome : Except Failure α) : Looks (lift outcome) := by
  intro session given left h
  rw [exec_lift] at h
  cases h
  exact Spared.refl session

theorem Looks.bind {action : Action Session α} {rest : α → Action Session β} (h : Looks action)
    (hrest : ∀ a, Looks (rest a)) : Looks (action >>= rest) := by
  intro session outcome left hexec
  cases outcome with
  | error failure =>
      rcases exec_bind_eq_error.mp hexec with hfirst | ⟨a, middle, hfirst, hsecond⟩
      · exact h _ _ _ hfirst
      · exact (h _ _ _ hfirst).trans (hrest a _ _ _ hsecond)
  | ok answer =>
      obtain ⟨a, middle, hfirst, hsecond⟩ := exec_bind_eq_ok.mp hexec
      exact (h _ _ _ hfirst).trans (hrest a _ _ _ hsecond)

/-- Looking first does not matter. -/
theorem Looks.bind_spares {action : Action Session α} {rest : α → Action Session β}
    (h : Looks action) (hrest : ∀ a, Spares (rest a)) : Spares (action >>= rest) := by
  intro session failure left hexec
  rcases exec_bind_eq_error.mp hexec with hfirst | ⟨a, middle, hfirst, hsecond⟩
  · exact h _ _ _ hfirst
  · exact (h _ _ _ hfirst).trans (hrest a _ _ _ hsecond)

/-- Nor does what cannot fail any more. -/
theorem Spares.bind {action : Action Session α} {rest : α → Action Session β} (h : Spares action)
    (hrest : ∀ a session, ∃ answer left, exec (rest a) session = (.ok answer, left)) :
    Spares (action >>= rest) := by
  intro session failure left hexec
  rcases exec_bind_eq_error.mp hexec with hfirst | ⟨a, middle, hfirst, hsecond⟩
  · exact h _ _ _ hfirst
  · obtain ⟨answer, after, hanswer⟩ := hrest a middle
    rw [hanswer] at hsecond
    cases hsecond

theorem Waits.bind {action : Action Session α} (h : Waits action) (rest : α → Action Session β) :
    Waits (action >>= rest) := by
  intro session answer left hexec
  obtain ⟨a, middle, hfirst, -⟩ := exec_bind_eq_ok.mp hexec
  exact h _ _ _ hfirst

theorem Looks.bind_waits {action : Action Session α} {rest : α → Action Session β}
    (h : Looks action) (hrest : ∀ a, Waits (rest a)) : Waits (action >>= rest) := by
  intro session answer left hexec
  obtain ⟨a, middle, hfirst, hsecond⟩ := exec_bind_eq_ok.mp hexec
  have hmiddle := hrest a _ _ _ hsecond
  rw [Bool.eq_false_iff] at hmiddle ⊢
  exact fun hwaiting => hmiddle ((h _ _ _ hfirst).waiting hwaiting)

theorem looks_read (model : Model) : Looks (read model) := by
  intro session outcome left h
  rw [exec_read] at h
  cases h
  exact Spared.refl session

theorem waits_read (model : Model) : Waits (read model) := by
  intro session rows left h
  rw [exec_read, readable] at h
  cases hwaiting : session.waiting with
  | false => rfl
  | true => simp [hwaiting] at h

theorem looks_drawId : Looks drawId := by
  intro session outcome left h
  rw [Model.exec_drawId] at h
  cases h
  exact ⟨rfl, fun h => h⟩

theorem spares_write (model : Model) (change : Change α) : Spares (write model change) := by
  intro session failure left h
  rw [exec_write] at h
  split at h
  · cases h
    exact Spared.refl session
  · split at h
    · cases h
    · cases h
      exact Spared.refl session

theorem waits_write (model : Model) (change : Change α) : Waits (write model change) := by
  intro session answer left h
  exact (exec_write_eq_ok.mp h).1

theorem spares_flush (model : Model) (change : Change α) : Spares (flush model change) := by
  intro session failure left h
  rw [exec_flush] at h
  split at h
  · cases h
    exact Spared.refl session
  · split at h
    · cases h
    · cases h
      exact ⟨rfl, fun _ => rfl⟩

theorem waits_flush (model : Model) (change : Change α) : Waits (flush model change) := by
  intro session answer left h
  exact (exec_flush_eq_ok.mp h).1

/-- A flush that fails leaves the session waiting. -/
theorem left_of_exec_flush {model : Model} {change : Change α} {session left : Session}
    {failure : Failure} (h : exec (flush model change) session = (.error failure, left)) :
    left = { session with waiting := true } := by
  rw [exec_flush] at h
  split at h
  · next hwaiting =>
    cases h
    rw [← hwaiting]
  · split at h
    · cases h
    · cases h
      rfl

end Session

/-! ## Calls -/

namespace Call

/-- Calls that add a record, or may. -/
def Adds : Call → Prop
  | create _ _ | upsert _ _ => True
  | _ => False

/-- Whether a call makes up an identifier. -/
def Draws (idColumn : Column) : Call → Prop
  | create id _ => id.isNull = true ∧ idColumn.type.isInteger = false
  | _ => False

end Call

namespace Model

open Session

variable {model : Model} {idColumn : Column} {session left : Session} {failure : Failure}

/-- Whether a call comes to its flush: the session is ready, the data names columns, and an update
or insertion can search for the key. -/
def Flushes (model : Model) (idColumn : Column) (session : Session) : Call → Prop
  | .create _ data => session.waiting = false ∧ ∃ values, model.values data = .ok values
  | .upsert id data => session.waiting = false ∧ (∃ values, model.values data = .ok values) ∧
      ∃ byKey, model.keyTest (coerce (some idColumn.type) id) = .ok byKey
  | _ => False

/-- The identifier under which a creation writes: the given one, or one that is made up unless the
column holds integers. -/
def keyedValues (idColumn : Column) (id : Datum) (given : Datum.Entries) :
    Action Session Datum.Entries := do
  if !id.isNull then
    pure (Entries.set idColumn.name (coerce (some idColumn.type) id) given)
  else if idColumn.type.isInteger then pure given
  else pure (Entries.set idColumn.name (← Session.drawId) given)

/-- What a creation answers once its row is there. -/
def answerOf (model : Model) (idColumn : Column) (values : Datum.Entries) (row : Row) :
    Action Session Datum :=
  match Entries.get values idColumn.name with
  | .null =>
    if idColumn.name = model.key.name then return idColumn.type.value (model.keyOf row)
    else return .null
  | value => return value

theorem create_eq (id : Datum) (data : Datum.Entries) :
    model.create idColumn id data = (do
      let given ← Session.lift (model.values data)
      let values ← keyedValues idColumn id given
      let row ← Session.flush model (model.addRow values)
      model.answerOf idColumn values row) := by
  unfold create keyedValues
  congr 1
  funext given
  cases id.isNull with
  | false => rfl
  | true =>
      cases idColumn.type.isInteger with
      | true => rfl
      | false =>
          simp only [Bool.not_true, Bool.false_eq_true, if_false, bind_assoc, pure_bind]
          rfl

theorem looks_keyedValues (id : Datum) (given : Datum.Entries) :
    Looks (keyedValues idColumn id given) := by
  unfold keyedValues
  split
  · exact looks_pure _
  · split
    · exact looks_pure _
    · exact looks_drawId.bind fun _ => looks_pure _

/-- A creation that has written its row answers. -/
theorem exec_answerOf (model : Model) (idColumn : Column) (values : Datum.Entries) (row : Row)
    (session : Session) :
    ∃ answer left, exec (model.answerOf idColumn values row) session = (.ok answer, left) := by
  unfold answerOf
  split
  · split <;> exact ⟨_, _, rfl⟩
  · exact ⟨_, _, rfl⟩

theorem looks_findRow (key : Datum) : Looks (model.findRow key) :=
  (looks_lift _).bind fun _ => (looks_read model).bind fun _ => (looks_lift _).bind fun _ =>
    looks_pure _

theorem waits_findRow (key : Datum) : Waits (model.findRow key) :=
  (looks_lift _).bind_waits fun _ => (waits_read model).bind _

/-- Calls that fail change no rows. -/
theorem spares_run (call : Call) : Spares (call.run (model.collection idColumn)) := by
  cases call with
  | find id => exact ((looks_findRow _).bind fun _ => looks_pure _).spares
  | list options =>
      intro session failure left h
      have hlist : exec (model.list idColumn options) session = (.error failure, left) := h
      rw [exec_list] at hlist
      cases congrArg Prod.snd hlist
      exact Spared.refl session
  | create id data =>
      show Spares (model.create idColumn id data)
      rw [create_eq]
      exact (looks_lift _).bind_spares fun given => (looks_keyedValues id given).bind_spares
        fun values => (spares_flush model _).bind (exec_answerOf model idColumn values)
  | update id data =>
      refine (looks_lift _).bind_spares fun values => ?_
      split
      · exact (((looks_findRow _).bind fun _ => looks_pure _).bind fun _ => looks_pure _).spares
      · exact spares_write model _
  | upsert id data =>
      show Spares (model.upsert idColumn id data)
      unfold upsert
      refine (looks_lift _).bind_spares fun values => ?_
      refine (looks_findRow (coerce (some idColumn.type) id)).bind_spares fun found => ?_
      cases found with
      | none => exact (spares_flush model _).bind fun _ _ => ⟨_, _, exec_pure _ _⟩
      | some row => exact (spares_flush model _).bind fun _ _ => ⟨_, _, exec_pure _ _⟩
  | delete id =>
      show Spares (model.delete idColumn id)
      unfold delete
      exact spares_write model _

/-- No call answers in a session that waits for a rollback. -/
theorem waits_run (call : Call) : Waits (call.run (model.collection idColumn)) := by
  cases call with
  | find id => exact (waits_findRow _).bind _
  | list options =>
      exact looks_get.bind_waits fun _ => (looks_lift _).bind_waits fun _ =>
        (looks_lift _).bind_waits fun _ => (waits_read model).bind _
  | create id data =>
      show Waits (model.create idColumn id data)
      rw [create_eq]
      exact (looks_lift _).bind_waits fun given => (looks_keyedValues id given).bind_waits
        fun _ => (waits_flush model _).bind _
  | update id data =>
      refine (looks_lift _).bind_waits fun values => ?_
      split
      · exact ((waits_findRow _).bind _).bind _
      · exact waits_write model _
  | upsert id data =>
      show Waits (model.upsert idColumn id data)
      unfold upsert
      refine (looks_lift _).bind_waits fun values => ?_
      exact (waits_findRow (coerce (some idColumn.type) id)).bind _
  | delete id =>
      show Waits (model.delete idColumn id)
      unfold delete
      exact waits_write model _

/-- A session that waits for a rollback stays as it is, whatever calls are made. -/
theorem runAll_waiting (calls : List Call) (h : session.waiting = true) :
    (∀ outcome ∈ (Call.runAll (model.collection idColumn) calls session).1,
        ∃ failure, outcome = .error failure) ∧
      (Call.runAll (model.collection idColumn) calls session).2.tables = session.tables := by
  induction calls generalizing session with
  | nil => simp [Call.runAll]
  | cons call calls ih =>
      rcases hexec : exec (call.run (model.collection idColumn)) session with ⟨outcome, next⟩
      cases outcome with
      | ok answer => exact absurd h (by simp [waits_run call _ _ _ hexec])
      | error failure =>
          have hspared := spares_run call _ _ _ hexec
          obtain ⟨houtcomes, htables⟩ := ih (hspared.waiting h)
          simp only [Call.runAll, hexec]
          refine ⟨?_, htables.trans hspared.tables⟩
          rintro outcome (_ | ⟨_, hmem⟩)
          · exact ⟨failure, rfl⟩
          · exact houtcomes outcome hmem

/-- The identifier of a creation is at hand, or made up. -/
theorem exec_keyedValues (idColumn : Column) (id : Datum) (given : Datum.Entries)
    (session : Session) :
    ∃ values drawn, exec (keyedValues idColumn id given) session =
        (.ok values, { session with drawn := drawn }) ∧
      (¬ (Call.create id given).Draws idColumn → drawn = session.drawn) := by
  unfold keyedValues
  split
  · exact ⟨_, session.drawn, rfl, fun _ => rfl⟩
  · next hid =>
    split
    · exact ⟨_, session.drawn, rfl, fun _ => rfl⟩
    · next htype =>
      have hdraws : (Call.create id given).Draws idColumn :=
        ⟨by simpa using hid, by simpa using htype⟩
      exact ⟨_, session.drawn + 1, rfl, fun hkept => absurd hdraws hkept⟩

/-- A creation fails before its flush, and then changes nothing, or in it. -/
theorem failed_create {id : Datum} {data : Datum.Entries}
    (h : exec (model.create idColumn id data) session = (.error failure, left)) :
    (left = session ∧ ∀ values, model.values data ≠ .ok values) ∨
      ((∃ values, model.values data = .ok values) ∧ left.waiting = true ∧
        (¬ (Call.create id data).Draws idColumn → left.drawn = session.drawn)) := by
  rw [create_eq] at h
  rcases exec_bind_eq_error.mp h with hlift | ⟨given, middle, hlift, hrest⟩
  · rw [exec_lift, Prod.mk.injEq] at hlift
    refine .inl ⟨hlift.2.symm, fun values hvalues => ?_⟩
    rw [hvalues] at hlift
    cases hlift.1
  · obtain ⟨hvalues, rfl⟩ := exec_lift_eq_ok.mp hlift
    obtain ⟨values, drawn, hkeyed, hdrawn⟩ := exec_keyedValues idColumn id given session
    rw [exec_bind, hkeyed, after_ok] at hrest
    rcases exec_bind_eq_error.mp hrest with hflush | ⟨row, written, -, hanswer⟩
    · rw [left_of_exec_flush hflush]
      exact .inr ⟨⟨given, hvalues⟩, rfl, hdrawn⟩
    · obtain ⟨answer, after, hanswered⟩ := exec_answerOf model idColumn values row written
      rw [hanswered] at hanswer
      cases hanswer

/-- A search leaves the session as it is. -/
theorem left_of_exec_findRow {key : Datum} {outcome : Except Failure (Option Row)}
    (h : exec (model.findRow key) session = (outcome, left)) : left = session := by
  unfold findRow at h
  simp only [exec_bind, exec_lift] at h
  cases hvalue : model.keyValue key with
  | error failure =>
      rw [hvalue] at h
      exact (congrArg Prod.snd h).symm
  | ok value =>
      rw [hvalue, after_ok, exec_bind, exec_read] at h
      cases hread : session.readable model with
      | error failure =>
          rw [hread] at h
          exact (congrArg Prod.snd h).symm
      | ok rows =>
          rw [hread, after_ok, exec_bind, exec_lift] at h
          cases hcell : model.key.type.cell value <;> rw [hcell] at h <;>
            exact (congrArg Prod.snd h).symm

/-- So does an update or insertion. -/
theorem failed_upsert {id : Datum} {data : Datum.Entries}
    (h : exec (model.upsert idColumn id data) session = (.error failure, left)) :
    (left = session ∧ ¬ model.Flushes idColumn session (.upsert id data)) ∨
      (model.Flushes idColumn session (.upsert id data) ∧ left.waiting = true ∧
        left.drawn = session.drawn) := by
  unfold upsert at h
  rcases exec_bind_eq_error.mp h with hlift | ⟨values, middle, hlift, hrest⟩
  · rw [exec_lift, Prod.mk.injEq] at hlift
    refine .inl ⟨hlift.2.symm, ?_⟩
    rintro ⟨-, ⟨values, hvalues⟩, -⟩
    rw [hvalues] at hlift
    cases hlift.1
  · obtain ⟨hvalues, rfl⟩ := exec_lift_eq_ok.mp hlift
    rcases exec_bind_eq_error.mp hrest with hfind | ⟨found, middle, hfind, hrest⟩
    · refine .inl ⟨left_of_exec_findRow hfind, ?_⟩
      rintro ⟨hready, -, byKey, hkey⟩
      rw [exec_findRow_eq hready, hkey] at hfind
      cases hfind
    · have hready := waits_findRow _ _ _ _ hfind
      obtain rfl := left_of_exec_findRow hfind
      rw [exec_findRow_eq hready, Prod.mk.injEq] at hfind
      have hkey : ∃ byKey, model.keyTest (coerce (some idColumn.type) id) = .ok byKey := by
        cases hkey : model.keyTest (coerce (some idColumn.type) id) with
        | ok byKey => exact ⟨byKey, rfl⟩
        | error failure =>
            rw [hkey] at hfind
            cases hfind.1
      refine .inr ⟨⟨hready, ⟨values, hvalues⟩, hkey⟩, ?_⟩
      cases found with
      | none =>
          rcases exec_bind_eq_error.mp hrest with hflush | ⟨_, _, -, hanswer⟩
          · rw [left_of_exec_flush hflush]
            exact ⟨rfl, rfl⟩
          · cases hanswer
      | some row =>
          rcases exec_bind_eq_error.mp hrest with hflush | ⟨_, _, -, hanswer⟩
          · rw [left_of_exec_flush hflush]
            exact ⟨rfl, rfl⟩
          · cases hanswer

theorem Flushes.ready {call : Call} (h : model.Flushes idColumn session call) :
    session.waiting = false := by
  cases call with
  | create | upsert => exact h.1
  | _ => cases h

/-- The missing identifier leads to nothing. -/
theorem exec_find_null (hready : session.waiting = false) :
    exec (model.find idColumn .null) session = (.ok .null, session) := by
  have hcell : model.key.type.cell .null = .ok .null := by
    cases model.key.type <;> rfl
  have hcompared : model.key.type.affinity.compared .null = .null := by
    cases model.key.type.affinity <;> rfl
  have hkey : model.keyTest .null = .ok fun _ => false :=
    keyTest_eq_ok.mpr ⟨.null, .null, rfl, hcell, by rw [hcompared]; rfl⟩
  have hnone : model.firstRecord (session.rows model) (fun _ => false) = .null :=
    firstRecord_eq_null.mpr (by simp)
  rw [exec_find_eq hready, show coerce (some idColumn.type) .null = .null from rfl, hkey]
  exact congrArg (fun record => (Except.ok record, session)) hnone

/-- A call that adds a record and fails leaves the session waiting just if it came to its flush, or
the session was waiting before. -/
theorem waiting_of_failed {call : Call} (hcall : call.Adds)
    (h : exec (call.run (model.collection idColumn)) session = (.error failure, left)) :
    (model.Flushes idColumn session call → left.waiting = true) ∧
      (¬ model.Flushes idColumn session call → left.waiting = session.waiting) ∧
      (¬ call.Draws idColumn → left.drawn = session.drawn) := by
  have hspared := spares_run call _ _ _ h
  cases call with
  | create id data =>
      rcases failed_create h with ⟨rfl, hvalues⟩ | ⟨hvalues, hwaiting, hdrawn⟩
      · refine ⟨?_, fun _ => rfl, fun _ => rfl⟩
        rintro ⟨-, values, hok⟩
        exact absurd hok (hvalues values)
      · refine ⟨fun _ => hwaiting, fun hflushes => ?_, hdrawn⟩
        cases hready : session.waiting with
        | true => exact hwaiting
        | false => exact absurd ⟨hready, hvalues⟩ hflushes
  | upsert id data =>
      rcases failed_upsert h with ⟨rfl, hflushes⟩ | ⟨hflushes, hwaiting, hdrawn⟩
      · exact ⟨fun h => absurd h hflushes, fun _ => rfl, fun _ => rfl⟩
      · exact ⟨fun _ => hwaiting, fun h => absurd hflushes h, fun _ => hdrawn⟩
  | _ => cases hcall

/-- The session after a failed creation, or a failed update or insertion. The tables are as they
were, and only a creation that makes up its identifier uses one up. If the call came to its flush,
no later call answers and the tables stay as they are; so later calls answer as if it had not been
made just if it did not come to its flush. Once the session is rolled back it is as if the call had
not been made in any case. -/
theorem failed_write_spares (model : Model) (idColumn : Column) (session left : Session)
    (call : Call) (failure : Failure) (hcall : call.Adds)
    (hfailed : exec (call.run (model.collection idColumn)) session = (.error failure, left)) :
    left.tables = session.tables ∧
      (¬ call.Draws idColumn → left.drawn = session.drawn) ∧
      (model.Flushes idColumn session call → ∀ calls,
        (∀ outcome ∈ (Call.runAll (model.collection idColumn) calls left).1,
          ∃ refused, outcome = .error refused) ∧
        (Call.runAll (model.collection idColumn) calls left).2.tables = session.tables) ∧
      ((∀ calls, (Call.runAll (model.collection idColumn) calls left).1 =
          (Call.runAll (model.collection idColumn) calls
            { session with drawn := left.drawn }).1) ↔
        ¬ model.Flushes idColumn session call) ∧
      (session.waiting = false → left.rollback = { session with drawn := left.drawn }) := by
  have hspared := spares_run call _ _ _ hfailed
  obtain ⟨hflushes, hnot, hdrawn⟩ := waiting_of_failed hcall hfailed
  refine ⟨hspared.tables, hdrawn, fun h calls => ?_, ⟨fun h hflushed => ?_, fun h calls => ?_⟩, ?_⟩
  · rw [← hspared.tables]
    exact runAll_waiting calls (hflushes h)
  · -- the missing identifier is looked for
    have hready : ({ session with drawn := left.drawn } : Session).waiting = false :=
      hflushed.ready
    have hanswers : (Call.runAll (model.collection idColumn) [.find .null]
        { session with drawn := left.drawn }).1 = [.ok .null] := by
      show [(exec (model.find idColumn .null) _).1] = _
      rw [exec_find_null hready]
    obtain ⟨refused, hrefused⟩ := (runAll_waiting [.find .null] (hflushes hflushed)).1 (.ok .null)
      (by rw [h, hanswers]; exact List.mem_singleton.mpr rfl)
    cases hrefused
  · have hleft : left = { session with drawn := left.drawn } := by
      rw [hspared.eq_with]
      simp only [hnot h]
    rw [← hleft]
  · intro hready
    rw [rollback, hspared.eq_with]
    simp only [← hready]

/-- A widget is created under an identifier that is in use. No widget can be created afterwards,
until the session is rolled back. -/
theorem failed_write_spares_widgets :
    let widgets : Model := ⟨"Widget", [⟨"id", .string, false⟩, ⟨"name", .string, true⟩],
      ⟨"id", .string, false⟩⟩
    let collection := widgets.collection widgets.key
    let session : Session := { tables := [("Widget", [[("id", .text "w1"), ("name", .text "a")]])] }
    let left := (exec (collection.create (.text "w1") [("name", .text "b")]) session).2
    (Call.create (.text "w1") [("name", .text "b")]).Adds ∧ left.tables = session.tables ∧
      (∃ refused, (exec (collection.create (.text "w2") [("name", .text "c")]) left).1 =
        .error refused) ∧
      left.rollback = session := by
  intro widgets collection session left
  have hfailed : exec (collection.create (.text "w1") [("name", .text "b")]) session =
      (.error .constraint, left) := by
    have houtcome : (exec (collection.create (.text "w1") [("name", .text "b")]) session).1 =
        .error .constraint := by decide +kernel
    exact Prod.ext houtcome rfl
  obtain ⟨htables, hdrawn, hrefused, -, hback⟩ := failed_write_spares widgets widgets.key session
    left (.create (.text "w1") [("name", .text "b")]) .constraint trivial hfailed
  refine ⟨trivial, htables, ?_, ?_⟩
  · exact (hrefused ⟨rfl, [("name", .text "b")], by decide⟩ [.create (.text "w2")
      [("name", .text "c")]]).1 _ (List.mem_singleton.mpr rfl)
  · rw [hback rfl, hdrawn (by simp [Call.Draws, Datum.isNull])]

/-- A creation under an identifier that is in use fails, and after it one that would have been made
fails as well. -/
theorem failed_write_spoils_widgets :
    let widgets : Model := ⟨"Widget", [⟨"id", .string, false⟩, ⟨"name", .string, true⟩],
      ⟨"id", .string, false⟩⟩
    let collection := widgets.collection widgets.key
    let used := Call.create (.text "w1") [("name", .text "b")]
    let unused := Call.create (.text "w2") [("name", .text "c")]
    let session := (exec (collection.create (.text "w1") [("name", .text "a")]) {}).2
    (Call.runAll collection [used, unused] session).1 =
        [.error .constraint, .error .rollbackNeeded] ∧
      (Call.runAll collection [unused] session).1 = [.ok (.text "w2")] := by
  decide +kernel

end Model

end RecordApi.Table
