import Mathlib.Data.Int.ConditionallyCompleteOrder
import Mathlib.Order.ConditionallyCompleteLattice.Basic
import RecordApi.Memory.Cabinet
import RecordApi.Proofs.Binding.KeyValue

/-!
# Shelves store what they are given

A shelf that refuses nothing keeps its view: its records are told apart by the keys of their
identifiers, where numbers and truth values that are equal as numbers are one key. So does a cabinet
with such a shelf, and its counters are clocks that never go back.
-/

namespace RecordApi

open RecordApi.Action

namespace Shelf

/-- A key: the number that an identifier counts as, or else the identifier itself. -/
inductive Key where
  | number (p : Number.Double.Place)
  | value (d : Datum)
deriving DecidableEq

/-- The key of an identifier; lists and records have none. -/
def keyOf : Datum → Option Key
  | .list _ | .record _ => none
  | d => some (((number? d).map .number).getD (.value d))

theorem keyOf_of_number? {d : Datum} {p : Number.Double.Place} (h : number? d = some p) :
    keyOf d = some (.number p) := by
  cases d <;> simp_all [keyOf, number?]

theorem eq_value_of_keyOf {d : Datum} {key : Key} (hnumber : number? d = none)
    (h : keyOf d = some key) : key = .value d := by
  cases d <;> simp_all [keyOf]

/-- The identifiers that are the same as one with a key are those with that key. -/
theorem sameKey_iff {a b : Datum} {key : Key} (h : keyOf b = some key) :
    sameKey a b = true ↔ keyOf a = some key := by
  cases ha : number? a with
  | some p =>
      rw [keyOf_of_number? ha]
      cases hb : number? b with
      | some q =>
          obtain rfl := Option.some.inj ((keyOf_of_number? hb).symm.trans h)
          simp [sameKey, ha, hb]
      | none =>
          obtain rfl := eq_value_of_keyOf hb h
          simp [sameKey, ha, hb]
  | none =>
      cases hb : number? b with
      | some q =>
          obtain rfl := Option.some.inj ((keyOf_of_number? hb).symm.trans h)
          have hne : keyOf a ≠ some (.number q) := fun ha' => nomatch eq_value_of_keyOf ha ha'
          simp [sameKey, ha, hb, hne]
      | none =>
          obtain rfl := eq_value_of_keyOf hb h
          constructor
          · intro hsame
            obtain rfl : a = b := by simpa [sameKey, ha, hb] using hsame
            exact h
          · intro hkey
            obtain rfl : b = a := Key.value.inj (eq_value_of_keyOf ha hkey)
            simp [sameKey, ha]

/-- What records have stored under a key. -/
def heldIn (records : List (Datum × Datum.Entries)) (key : Key) : Option Held :=
  (records.find? fun entry => keyOf entry.1 == some key).map fun entry => Entries.get? entry.2

theorem heldIn_cons (entry : Datum × Datum.Entries) (rest : List (Datum × Datum.Entries))
    (key : Key) :
    heldIn (entry :: rest) key =
      if keyOf entry.1 = some key then some (Entries.get? entry.2) else heldIn rest key := by
  by_cases h : keyOf entry.1 = some key <;> simp [heldIn, h]

section Keyed

variable {id : Datum} {key : Key} (h : keyOf id = some key)

include h

/-- Whether an identifier is the same as one with a key. -/
theorem sameKey_eq (other : Datum) : sameKey other id = (keyOf other == some key) := by
  rw [Bool.eq_iff_iff, sameKey_iff h, beq_iff_eq]

theorem heldIn_eq_map (shelf : Shelf) :
    heldIn shelf.records key = (shelf.record? id).map Entries.get? := by
  simp only [heldIn, record?, sameKey_eq h, Option.map_map]
  rfl

/-- A record that is put under an identifier is stored under its key. -/
theorem heldIn_put (record : Datum.Entries) (records : List (Datum × Datum.Entries)) :
    heldIn (put id record records) =
      Function.update (heldIn records) key (some (Entries.get? record)) := by
  funext other
  induction records with
  | nil =>
      rw [put, heldIn_cons, h, Function.update_apply]
      simp [eq_comm]
  | cons entry rest ih =>
      rw [put, sameKey_eq h]
      by_cases hentry : keyOf entry.1 = some key
      · rw [if_pos (beq_iff_eq.mpr hentry), heldIn_cons, hentry, Function.update_apply, heldIn_cons,
          hentry]
        by_cases hother : other = key
        · simp [hother]
        · simp [hother, Ne.symm hother]
      · rw [if_neg (mt beq_iff_eq.mp hentry), heldIn_cons, ih, Function.update_apply,
          Function.update_apply, heldIn_cons]
        by_cases hother : other = key
        · simp [hother, hentry]
        · simp [hother]

/-- Nothing is stored under the key of an identifier whose records are taken away. -/
theorem heldIn_filter (records : List (Datum × Datum.Entries)) :
    heldIn (records.filter fun entry => !sameKey entry.1 id) =
      Function.update (heldIn records) key none := by
  funext other
  induction records with
  | nil => simp [heldIn, Function.update_apply]
  | cons entry rest ih =>
      rw [List.filter_cons, sameKey_eq h, Function.update_apply, heldIn_cons]
      rw [Function.update_apply] at ih
      by_cases hentry : keyOf entry.1 = some key
      · rw [hentry]
        by_cases hother : other = key
        · subst hother
          simpa using ih
        · simp [ih, hother, Ne.symm hother]
      · by_cases hother : other = key
        · subst hother
          simpa [hentry, heldIn_cons] using ih
        · simp [hentry, heldIn_cons, ih, hother]

end Keyed

/-! ## What the operations of a shelf do -/

/-- The shelf with one more call written down. -/
def noted (shelf : Shelf) (operation : String) (arguments : List Datum) : Shelf :=
  { shelf with calls := shelf.calls ++ [.text operation :: arguments] }

section Noted

variable (shelf : Shelf) (operation : String) (arguments : List Datum)

@[simp] theorem name_noted : (shelf.noted operation arguments).name = shelf.name := rfl

@[simp] theorem records_noted : (shelf.noted operation arguments).records = shelf.records := rfl

@[simp] theorem refusals_noted : (shelf.noted operation arguments).refusals = shelf.refusals := rfl

@[simp] theorem record?_noted (id : Datum) :
    (shelf.noted operation arguments).record? id = shelf.record? id := rfl

@[simp] theorem freshId_noted : (shelf.noted operation arguments).freshId = shelf.freshId := rfl

end Noted

section Operations

variable {shelf : Shelf} (hfree : shelf.refusals = [])

theorem exec_key_of_keyOf {id : Datum} {key : Key} (h : keyOf id = some key) (shelf : Shelf) :
    exec (Shelf.key id) shelf = (.ok id, shelf) := by
  cases id <;> first | rfl | cases h

theorem exec_key_of_none {id : Datum} (h : keyOf id = none) (shelf : Shelf) :
    ∃ failure, exec (Shelf.key id) shelf = (.error failure, shelf) := by
  cases id with
  | list => exact ⟨_, rfl⟩
  | record => exact ⟨_, rfl⟩
  | _ => cases h

include hfree

theorem exec_begin (operation : String) (arguments : List Datum) :
    exec (begin operation arguments) shelf = (.ok (), shelf.noted operation arguments) := by
  simp [begin, hfree, noted]

/-- No operation gets past an identifier without a key. -/
theorem exec_of_keyOf_none {id : Datum} (h : keyOf id = none) (operation : String)
    (arguments : List Datum) {rest : Datum → Action Shelf Datum} :
    ∃ failure, exec (begin operation arguments >>= fun _ => Shelf.key id >>= rest) shelf =
      (.error failure, shelf.noted operation arguments) := by
  obtain ⟨failure, hkey⟩ := exec_key_of_none h (shelf.noted operation arguments)
  refine ⟨failure, ?_⟩
  simp [exec_begin hfree, hkey]

/-- A creation does not get past one either, unless it is given none. -/
theorem exec_create_of_keyOf_none {id : Datum} (h : keyOf id = none) (data : Datum.Entries) :
    ∃ failure, exec (Shelf.create id data) shelf =
      (.error failure, shelf.noted "create" [id, .record data]) := by
  have hnull : id.isNull = false := by
    cases id with
    | null => cases h
    | _ => rfl
  obtain ⟨failure, hkey⟩ := exec_key_of_none h (shelf.noted "create" [id, .record data])
  refine ⟨failure, ?_⟩
  simp [Shelf.create, exec_begin hfree, hnull, hkey]

variable {id : Datum} {key : Key} (h : keyOf id = some key)

include h

theorem exec_find :
    exec (Shelf.find id) shelf =
      (.ok (Datum.ofOption ((shelf.record? id).map .record)), shelf.noted "find" [id]) := by
  simp [Shelf.find, exec_begin hfree, exec_key_of_keyOf h]

theorem exec_update_of_record? {record : Datum.Entries} (hrecord : shelf.record? id = some record)
    (data : Datum.Entries) :
    exec (Shelf.update id data) shelf =
      (.ok (.bool true), { shelf.noted "update" [id, .record data] with
        records := put id (Entries.merge record data) shelf.records }) := by
  simp [Shelf.update, exec_begin hfree, exec_key_of_keyOf h, hrecord, store]

theorem exec_upsert (data : Datum.Entries) :
    exec (Shelf.upsert id data) shelf =
      (.ok (.bool true), { shelf.noted "upsert" [id, .record data] with
        records := put id (Entries.merge ((shelf.record? id).getD [("id", id)]) data)
          shelf.records }) := by
  simp [Shelf.upsert, exec_begin hfree, exec_key_of_keyOf h, store]

theorem exec_delete :
    exec (Shelf.delete id) shelf =
      (.ok (.bool (shelf.record? id).isSome), { shelf.noted "delete" [id] with
        records := shelf.records.filter fun entry => !sameKey entry.1 id }) := by
  simp [Shelf.delete, exec_begin hfree, exec_key_of_keyOf h]

theorem exec_create (hgiven : id ≠ .null) (data : Datum.Entries) :
    exec (Shelf.create id data) shelf =
      (.ok id, { shelf.noted "create" [id, .record data] with
        records := put id (Entries.merge [("id", id)] data) shelf.records }) := by
  have hnull : id.isNull = false := by
    cases id with
    | null => exact absurd rfl hgiven
    | _ => rfl
  simp [Shelf.create, exec_begin hfree, exec_key_of_keyOf h, hnull, store]

omit h in
theorem exec_create_null (data : Datum.Entries) :
    exec (Shelf.create .null data) shelf =
      (.ok shelf.freshId, { shelf.noted "create" [.null, .record data] with
        records := put shelf.freshId (Entries.merge [("id", shelf.freshId)] data)
          shelf.records }) := by
  simp [Shelf.create, exec_begin hfree, store, Datum.isNull]

end Operations

end Shelf

namespace Cabinet

variable {κ α : Type} {cabinet : Cabinet κ} {name : String} {shelf : Shelf}

theorem exec_onShelf (h : cabinet.shelf? name = some shelf) (action : Action Shelf α) :
    exec (onShelf name action) cabinet =
      ((exec action shelf).1, cabinet.putShelf (exec action shelf).2) := by
  have hrun : action.run.run shelf = exec action shelf := rfl
  simp only [onShelf, exec_bind, exec_get, after_ok, h, hrun]
  rcases exec action shelf with ⟨outcome, left⟩
  cases outcome <;> simp

/-- A shelf that is put in the place of its namesake is found by the name. -/
theorem shelf?_putShelf (h : cabinet.shelf? name = some shelf) {left : Shelf}
    (hname : left.name = shelf.name) : (cabinet.putShelf left).shelf? name = some left := by
  have hshelf : shelf.name = name := by simpa using List.find?_some h
  obtain ⟨shelves, requests, counters⟩ := cabinet
  simp only [shelf?, putShelf] at h ⊢
  induction shelves with
  | nil => cases h
  | cons first rest ih =>
      rw [List.find?_cons] at h
      rw [List.map_cons, List.find?_cons]
      by_cases hfirst : first.name = name
      · simp [hfirst, hname, hshelf]
      · have hother : (first.name == name) = false := beq_eq_false_iff_ne.mpr hfirst
        rw [hother] at h
        simp only [hname, hshelf, hfirst, if_false, hother]
        rw [hname, hshelf] at ih
        exact ih h

/-- What is seen of the shelf of a name and of a counter: there is such a shelf, which refuses
nothing, and the counter does not go back. -/
def view (name : String) (index : Nat) : View (Cabinet κ) Shelf.Key Int where
  Valid cabinet := (∃ shelf, cabinet.shelf? name = some shelf ∧ shelf.refusals = []) ∧
    ∀ counter, cabinet.counters.lookup index = some counter → 0 ≤ counter.step
  keyOf := Shelf.keyOf
  stored cabinet key := (cabinet.shelf? name).bind fun shelf => Shelf.heldIn shelf.records key
  time cabinet := ((cabinet.counters.lookup index).map (·.next)).getD 0
  datum := .int

section OnShelf

variable {index : Nat} (hvalid : (view name index).Valid cabinet)
  (hshelf : cabinet.shelf? name = some shelf)

include hshelf

theorem stored_eq (index : Nat) :
    (view name index).stored cabinet = Shelf.heldIn shelf.records := by
  funext key
  simp [view, hshelf]

include hvalid

-- The order of the instants is found as a conditionally complete one, which is what is found where
-- all of the library is imported.
/-- A cabinet comes later in which the shelf of the name has other records. -/
theorem leads_putShelf {left : Shelf} (hname : left.name = shelf.name)
    (hfree : left.refusals = []) :
    (view name index).Leads cabinet (cabinet.putShelf left) (Shelf.heldIn left.records) := by
  have hleft := shelf?_putShelf hshelf hname
  constructor
  · exact ⟨⟨left, hleft, hfree⟩, hvalid.2⟩
  · exact le_rfl
  · exact stored_eq hleft index

theorem answers_onShelf {action : Action Shelf α} {a : α} {left : Shelf}
    (hexec : exec action shelf = (.ok a, left)) (hname : left.name = shelf.name)
    (hfree : left.refusals = []) :
    (view name index).Answers (onShelf name action) cabinet a (Shelf.heldIn left.records) := by
  refine ⟨cabinet.putShelf left, ?_, leads_putShelf hvalid hshelf hname hfree⟩
  rw [exec_onShelf hshelf, hexec]

theorem fails_onShelf {action : Action Shelf α} {failure : Failure} {operation : String}
    {arguments : List Datum} (hfree : shelf.refusals = [])
    (hexec : exec action shelf = (.error failure, shelf.noted operation arguments)) :
    (view name index).Fails (onShelf name action) cabinet := by
  refine ⟨failure, cabinet.putShelf (shelf.noted operation arguments), ?_, ?_⟩
  · rw [exec_onShelf hshelf, hexec]
  · rw [stored_eq hshelf]
    exact leads_putShelf hvalid hshelf rfl hfree

/-! ### What the operations of its collection leave stored -/

variable (hfree : shelf.refusals = [])

include hfree

theorem find_missing_collection {id : Datum}
    (hstored : (Shelf.keyOf id).bind (Shelf.heldIn shelf.records) = none) :
    (view name index).Answers ((collection name).find id) cabinet .null
        (Shelf.heldIn shelf.records) ∨
      Shelf.keyOf id = none ∧ (view name index).Fails ((collection name).find id) cabinet := by
  cases hkey : Shelf.keyOf id with
  | none =>
      obtain ⟨failure, hexec⟩ := Shelf.exec_of_keyOf_none hfree hkey "find" [id]
      exact .inr ⟨rfl, fails_onShelf hvalid hshelf hfree hexec⟩
  | some key =>
      rw [hkey, Option.bind_some, Shelf.heldIn_eq_map hkey] at hstored
      have hexec := Shelf.exec_find hfree hkey
      rw [Option.map_eq_none_iff.mp hstored] at hexec
      have hanswers := answers_onShelf hvalid hshelf hexec rfl hfree
      exact .inl hanswers

theorem create_collection (id : Datum) (data : Datum.Entries) :
    (view name index).Fails ((collection name).create id data) cabinet ∨
      ∃ (given : Datum) (key : Shelf.Key) (held : Held), Shelf.keyOf given = some key ∧
        (id ≠ .null → Shelf.keyOf id = some key) ∧
        (view name index).Answers ((collection name).create id data) cabinet given
          (Function.update (Shelf.heldIn shelf.records) key (some (held.write data))) := by
  by_cases hnull : id = .null
  · subst hnull
    have hexec := Shelf.exec_create_null hfree data
    have hkey : Shelf.keyOf shelf.freshId = some (.value shelf.freshId) := rfl
    refine .inr ⟨shelf.freshId, _, Entries.get? [("id", shelf.freshId)], hkey, absurd rfl, ?_⟩
    rw [← Entries.get?_merge, ← Shelf.heldIn_put hkey]
    exact answers_onShelf hvalid hshelf hexec rfl hfree
  · cases hkey : Shelf.keyOf id with
    | none =>
        obtain ⟨failure, hexec⟩ := Shelf.exec_create_of_keyOf_none hfree hkey data
        exact .inl (fails_onShelf hvalid hshelf hfree hexec)
    | some key =>
        have hexec := Shelf.exec_create hfree hkey hnull data
        refine .inr ⟨id, key, Entries.get? [("id", id)], hkey, fun _ => rfl, ?_⟩
        rw [← Entries.get?_merge, ← Shelf.heldIn_put hkey]
        exact answers_onShelf hvalid hshelf hexec rfl hfree

theorem upsert_collection (id : Datum) (data : Datum.Entries) :
    (view name index).Fails ((collection name).upsert id data) cabinet ∨
      ∃ (answer : Datum) (key : Shelf.Key) (held : Held), Shelf.keyOf id = some key ∧
        (∀ old, Shelf.heldIn shelf.records key = some old → held = old) ∧
        (view name index).Answers ((collection name).upsert id data) cabinet answer
          (Function.update (Shelf.heldIn shelf.records) key (some (held.write data))) := by
  cases hkey : Shelf.keyOf id with
  | none =>
      obtain ⟨failure, hexec⟩ := Shelf.exec_of_keyOf_none hfree hkey "upsert" [id, .record data]
      exact .inl (fails_onShelf hvalid hshelf hfree hexec)
  | some key =>
      have hexec := Shelf.exec_upsert hfree hkey data
      refine .inr ⟨.bool true, key, Entries.get? ((shelf.record? id).getD [("id", id)]), rfl, ?_,
        ?_⟩
      · intro old hold
        rw [Shelf.heldIn_eq_map hkey] at hold
        obtain ⟨record, hrecord, hheld⟩ := Option.map_eq_some_iff.mp hold
        rw [hrecord, ← hheld, Option.getD_some]
      · rw [← Entries.get?_merge, ← Shelf.heldIn_put hkey]
        exact answers_onShelf hvalid hshelf hexec rfl hfree

theorem delete_collection (id : Datum) :
    (view name index).Fails ((collection name).delete id) cabinet ∨
      ∃ answer key, Shelf.keyOf id = some key ∧
        (view name index).Answers ((collection name).delete id) cabinet answer
          (Function.update (Shelf.heldIn shelf.records) key none) := by
  cases hkey : Shelf.keyOf id with
  | none =>
      obtain ⟨failure, hexec⟩ := Shelf.exec_of_keyOf_none hfree hkey "delete" [id]
      exact .inl (fails_onShelf hvalid hshelf hfree hexec)
  | some key =>
      have hexec := Shelf.exec_delete hfree hkey
      refine .inr ⟨.bool (shelf.record? id).isSome, key, rfl, ?_⟩
      rw [← Shelf.heldIn_filter hkey]
      exact answers_onShelf hvalid hshelf hexec rfl hfree

variable {id : Datum} {key : Shelf.Key} {held : Held} (hkey : Shelf.keyOf id = some key)
  (hstored : Shelf.heldIn shelf.records key = some held)

include hkey hstored

theorem find_stored_collection :
    ∃ entries, Entries.get? entries = held ∧
      (view name index).Answers ((collection name).find id) cabinet (.record entries)
        (Shelf.heldIn shelf.records) := by
  rw [Shelf.heldIn_eq_map hkey] at hstored
  obtain ⟨record, hrecord, hheld⟩ := Option.map_eq_some_iff.mp hstored
  have hexec := Shelf.exec_find hfree hkey
  rw [hrecord] at hexec
  have hanswers := answers_onShelf hvalid hshelf hexec rfl hfree
  exact ⟨record, hheld, hanswers⟩

theorem update_collection (data : Datum.Entries) :
    (view name index).Answers ((collection name).update id data) cabinet (.bool true)
      (Function.update (Shelf.heldIn shelf.records) key (some (held.write data))) := by
  rw [Shelf.heldIn_eq_map hkey] at hstored
  obtain ⟨record, hrecord, hheld⟩ := Option.map_eq_some_iff.mp hstored
  have hexec := Shelf.exec_update_of_record? hfree hkey hrecord data
  rw [← hheld, ← Entries.get?_merge, ← Shelf.heldIn_put hkey]
  exact answers_onShelf hvalid hshelf hexec rfl hfree

end OnShelf

/-- The collection of a name stores what it is given. -/
theorem keeps (name : String) (index : Nat) :
    (view name index).Keeps (collection (κ := κ) name) := by
  constructor
  case find_missing =>
    intro w id hvalid hstored
    obtain ⟨shelf, hshelf, hfree⟩ := hvalid.1
    rw [stored_eq hshelf] at hstored ⊢
    exact find_missing_collection hvalid hshelf hfree hstored
  case find_stored =>
    intro w id key held hvalid hkey hstored
    obtain ⟨shelf, hshelf, hfree⟩ := hvalid.1
    rw [stored_eq hshelf] at hstored ⊢
    exact find_stored_collection hvalid hshelf hfree hkey hstored
  case create =>
    intro w id data hvalid
    obtain ⟨shelf, hshelf, hfree⟩ := hvalid.1
    rw [stored_eq hshelf]
    exact create_collection hvalid hshelf hfree id data
  case update =>
    intro w id key held data hvalid hkey hstored
    obtain ⟨shelf, hshelf, hfree⟩ := hvalid.1
    rw [stored_eq hshelf] at hstored ⊢
    exact .inr ⟨_, update_collection hvalid hshelf hfree hkey hstored data⟩
  case upsert =>
    intro w id data hvalid
    obtain ⟨shelf, hshelf, hfree⟩ := hvalid.1
    rw [stored_eq hshelf]
    exact upsert_collection hvalid hshelf hfree id data
  case delete =>
    intro w id hvalid
    obtain ⟨shelf, hshelf, hfree⟩ := hvalid.1
    rw [stored_eq hshelf]
    exact delete_collection hvalid hshelf hfree id

/-- A look at a counter answers its number, and the counter goes on. -/
theorem answers_tick {index : Nat} (hvalid : (view name index).Valid cabinet) :
    (view name index).Answers (tick index) cabinet (.int ((view name index).time cabinet))
      ((view name index).stored cabinet) := by
  cases hcounter : cabinet.counters.lookup index with
  | none =>
      refine ⟨cabinet, ?_, hvalid, le_rfl, rfl⟩
      simp [tick, view, hcounter]
  | some counter =>
      refine ⟨{ cabinet with
        counters := (index, counter.advance) :: cabinet.counters.filter (·.1 != index) }, ?_, ?_⟩
      · simp [tick, view, hcounter]
      · have hstep := hvalid.2 counter hcounter
        constructor
        · refine ⟨hvalid.1, fun next hnext => ?_⟩
          obtain rfl : counter.advance = next := by simpa using hnext
          exact hstep
        · simp [view, hcounter, Counter.advance]
          omega
        · rfl

/-- A store whose shelves start empty and refuse nothing hands out its collection again. -/
theorem answers_store {setup : Setup} {index : Nat} (hnot : name ∉ setup.rejected)
    (hvalid : (view name index).Valid cabinet) (request : CollectionRequest κ)
    (hname : request.name = name) :
    (view name index).Answers (store setup request) cabinet (collection name)
      ((view name index).stored cabinet) := by
  obtain ⟨shelf, hshelf, hfree⟩ := hvalid.1
  refine ⟨{ cabinet with requests := cabinet.requests ++ [request] }, ?_, hvalid, le_rfl, rfl⟩
  have hthere : ({ cabinet with requests := cabinet.requests ++ [request] } : Cabinet κ).shelf?
      name = some shelf := hshelf
  simp [store, hname, hnot, hthere]

/-- A binding to the shelf of its root type serves the view of the shelf, whether its collection has
been acquired or is acquired anew for each call. -/
theorem serves {binding : RecordBinding (Cabinet κ) κ} {setup : Setup} {index : Nat}
    (hstore : binding.handle.store = store setup)
    (hname : binding.handle.descriptor.typeName = name)
    (hopened : ∀ opened ∈ binding.handle.opened, opened = collection name)
    (hnot : name ∉ setup.rejected) (hnow : binding.now = tick index) :
    (view name index).Serves binding := by
  constructor
  case collection =>
    intro cabinet request hvalid
    refine .inr ⟨collection name, keeps name index, ?_⟩
    cases hhandle : binding.handle.opened with
    | none =>
        rw [Handle.collection, hhandle]
        simp only [Handle.acquire, hstore]
        exact answers_store hnot hvalid _ hname
    | some opened =>
        rw [Handle.collection, hhandle, hopened opened hhandle]
        exact ⟨cabinet, rfl, hvalid, le_rfl, rfl⟩
  case now =>
    intro cabinet hvalid
    rw [hnow]
    exact answers_tick hvalid

end Cabinet

end RecordApi
