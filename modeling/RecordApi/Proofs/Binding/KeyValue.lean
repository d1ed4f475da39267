import Mathlib.Logic.Function.Basic
import Mathlib.Order.Basic
import RecordApi.Binding.Operation
import RecordApi.Proofs.Actions

/-!
# Key-value collections

A view tells what can be seen of a collection and a clock in a world: what is stored under each key,
and the time. A collection keeps the view if it stores what it is given and leaves everything as it
was whenever it fails. A binding serves the view if it works with such collections and looks at the
clock of the view, which never goes back.
-/

namespace RecordApi

open RecordApi.Action

/-- The values that a stored record holds under names. -/
abbrev Held := String → Option Datum

namespace Held

/-- What a record holds after data has been written into it. -/
def write (held : Held) (data : Datum.Entries) : Held :=
  data.foldl (fun held entry => Function.update held entry.1 (some entry.2)) held

theorem write_append (held : Held) (data more : Datum.Entries) :
    held.write (data ++ more) = (held.write data).write more :=
  List.foldl_append

/-- Names that the data does not have keep their values. -/
theorem write_apply_of_get? {data : Datum.Entries} {name : String}
    (h : Entries.get? data name = none) (held : Held) : held.write data name = held name := by
  induction data generalizing held with
  | nil => rfl
  | cons entry rest ih =>
      rw [Entries.get?, Association.lookup_cons] at h
      split at h
      next => cases h
      next hne =>
        change Held.write (Function.update held entry.1 (some entry.2)) rest name = held name
        rw [ih h, Function.update_of_ne hne]

/-- A new entry of the data is written last. -/
theorem write_set {data : Datum.Entries} {name : String} (h : Entries.get? data name = none)
    (value : Datum) (held : Held) :
    held.write (Entries.set name value data) =
      Function.update (held.write data) name (some value) := by
  have hput : Entries.set name value data = data ++ [(name, value)] := by
    induction data with
    | nil => rfl
    | cons entry rest ih =>
        rw [Entries.get?, Association.lookup_cons] at h
        split at h
        next => cases h
        next hne =>
          rw [Entries.set, Association.put, if_neg (Ne.symm hne), List.cons_append, ← ih h]
          rfl
  rw [hput, write_append]
  rfl

/-- A name of a record that has been written holds what the data has for it, or what it held. -/
theorem write_cases (held : Held) (data : Datum.Entries) (name : String) :
    (∃ value, (name, value) ∈ data ∧ held.write data name = some value) ∨
      name ∉ data.map Prod.fst ∧ held.write data name = held name := by
  induction data generalizing held with
  | nil => exact .inr ⟨List.not_mem_nil, rfl⟩
  | cons entry rest ih =>
      obtain ⟨key, first⟩ := entry
      have hstep : held.write ((key, first) :: rest) =
          write (Function.update held key (some first)) rest := rfl
      rw [hstep]
      rcases ih (Function.update held key (some first)) with ⟨value, hmem, hvalue⟩ | ⟨hnot, hkept⟩
      · exact .inl ⟨value, List.mem_cons_of_mem _ hmem, hvalue⟩
      · rw [hkept]
        by_cases hname : name = key
        · subst hname
          exact .inl ⟨first, List.mem_cons_self, Function.update_self _ _ _⟩
        · exact .inr ⟨by simp [hname, hnot], Function.update_of_ne hname _ _⟩

end Held

/-- Data that is merged into entries is written into what they hold. -/
theorem Entries.get?_merge (entries data : Datum.Entries) :
    Entries.get? (Entries.merge entries data) = Held.write (Entries.get? entries) data := by
  induction data generalizing entries with
  | nil => rfl
  | cons entry rest ih =>
      change Entries.get? (Entries.merge (Association.put entry.1 entry.2 entries) rest) =
        Held.write (Function.update (Entries.get? entries) entry.1 (some entry.2)) rest
      rw [ih]
      congr 1
      funext name
      simp only [Entries.get?, Association.lookup_put, Function.update_apply]

/-- What can be seen of a collection and of a clock. -/
structure View (σ Key Instant : Type) where
  /-- The worlds in which the collection can be worked with. -/
  Valid : σ → Prop
  /-- The key that an identifier stands for; some values are no identifiers. -/
  keyOf : Datum → Option Key
  /-- What is stored under each key. -/
  stored : σ → Key → Option Held
  /-- What the clock shows. -/
  time : σ → Instant
  /-- The value by which an instant is written. -/
  datum : Instant → Datum

namespace View

variable {σ κ Key Instant α : Type} [Preorder Instant] (view : View σ Key Instant)

/-- A world comes later than another, with the given records stored. -/
structure Leads (w w' : σ) (stored : Key → Option Held) : Prop where
  valid : view.Valid w'
  time_le : view.time w ≤ view.time w'
  stored_eq : view.stored w' = stored

theorem Leads.trans {view : View σ Key Instant} {w w₁ w₂ : σ} {stored stored₁ : Key → Option Held}
    (first : view.Leads w w₁ stored₁) (second : view.Leads w₁ w₂ stored) :
    view.Leads w w₂ stored :=
  ⟨second.valid, first.time_le.trans second.time_le, second.stored_eq⟩

/-- A world in which nothing is done comes later than itself. -/
theorem Leads.rest {view : View σ Key Instant} {w w' : σ} {stored : Key → Option Held}
    (h : view.Leads w w' stored) :
    view.Leads w' w' stored :=
  ⟨h.valid, le_rfl, h.stored_eq⟩

/-- An action answers a value, with the given records stored after it. -/
def Answers (action : Action σ α) (w : σ) (a : α) (stored : Key → Option Held) : Prop :=
  ∃ w', exec action w = (.ok a, w') ∧ view.Leads w w' stored

/-- An action fails, with the same records stored after it. -/
def Fails (action : Action σ α) (w : σ) : Prop :=
  ∃ failure w', exec action w = (.error failure, w') ∧ view.Leads w w' (view.stored w)

variable [DecidableEq Key]

/-- A collection that stores what it is given. An identifier finds what is stored under its key, and
may fail to find anything if it stands for no key. Data is stored under the key of the identifier,
or of one that a creation makes up if it is given none; what a record holds already stays, except
under the names of the data, when the record is updated. -/
structure Keeps (collection : Collection σ) : Prop where
  find_missing {w : σ} {id : Datum} : view.Valid w →
    (view.keyOf id).bind (view.stored w) = none →
      view.Answers (collection.find id) w .null (view.stored w) ∨
        view.keyOf id = none ∧ view.Fails (collection.find id) w
  find_stored {w : σ} {id : Datum} {key : Key} {held : Held} : view.Valid w →
    view.keyOf id = some key → view.stored w key = some held →
      ∃ entries, Entries.get? entries = held ∧
        view.Answers (collection.find id) w (.record entries) (view.stored w)
  create {w : σ} (id : Datum) (data : Datum.Entries) : view.Valid w →
    view.Fails (collection.create id data) w ∨
      ∃ (given : Datum) (key : Key) (held : Held), view.keyOf given = some key ∧
        (id ≠ .null → view.keyOf id = some key) ∧
        view.Answers (collection.create id data) w given
          (Function.update (view.stored w) key (some (held.write data)))
  update {w : σ} {id : Datum} {key : Key} {held : Held} (data : Datum.Entries) : view.Valid w →
    view.keyOf id = some key → view.stored w key = some held →
      view.Fails (collection.update id data) w ∨
        ∃ answer, view.Answers (collection.update id data) w answer
          (Function.update (view.stored w) key (some (held.write data)))
  upsert {w : σ} (id : Datum) (data : Datum.Entries) : view.Valid w →
    view.Fails (collection.upsert id data) w ∨
      ∃ (answer : Datum) (key : Key) (held : Held), view.keyOf id = some key ∧
        (∀ old, view.stored w key = some old → held = old) ∧
        view.Answers (collection.upsert id data) w answer
          (Function.update (view.stored w) key (some (held.write data)))
  delete {w : σ} (id : Datum) : view.Valid w →
    view.Fails (collection.delete id) w ∨
      ∃ answer key, view.keyOf id = some key ∧
        view.Answers (collection.delete id) w answer (Function.update (view.stored w) key none)

/-- A search that does not fail answers the missing value exactly if there is nothing stored. -/
theorem Keeps.find {view : View σ Key Instant} {collection : Collection σ}
    (hkeeps : view.Keeps collection) {w : σ} (hw : view.Valid w) (id : Datum) :
    view.Fails (collection.find id) w ∨
      ∃ found, view.Answers (collection.find id) w found (view.stored w) ∧
        found.isNull = ((view.keyOf id).bind (view.stored w)).isNone := by
  cases hstored : (view.keyOf id).bind (view.stored w) with
  | none =>
      rcases hkeeps.find_missing hw hstored with hmissing | ⟨-, hfails⟩
      · exact .inr ⟨.null, hmissing, rfl⟩
      · exact .inl hfails
  | some held =>
      obtain ⟨key, hkey, hheld⟩ := Option.bind_eq_some_iff.mp hstored
      obtain ⟨entries, -, hfound⟩ := hkeeps.find_stored hw hkey hheld
      exact .inr ⟨.record entries, hfound, rfl⟩

/-- A binding whose collections store what they are given, and whose clock is that of the view. -/
structure Serves (binding : RecordBinding σ κ) : Prop where
  collection {w : σ} (request : Option κ) : view.Valid w →
    view.Fails (binding.handle.collection request) w ∨
      ∃ collection, view.Keeps collection ∧
        view.Answers (binding.handle.collection request) w collection (view.stored w)
  now {w : σ} : view.Valid w →
    view.Answers binding.now w (view.datum (view.time w)) (view.stored w)

/-- A collection that has been acquired stores what it is given, and nothing was stored by it. -/
theorem Serves.acquired {view : View σ Key Instant} {binding : RecordBinding σ κ}
    (hserves : view.Serves binding) {w acquired : σ} (hw : view.Valid w) {request : Option κ}
    {collection : Collection σ}
    (hacquire : exec (binding.handle.collection request) w = (.ok collection, acquired)) :
    view.Keeps collection ∧ view.Leads w acquired (view.stored w) := by
  rcases hserves.collection request hw with
    ⟨failure, other, hfail, -⟩ | ⟨lawful, hkeeps, other, hok, hlead⟩
  · cases hacquire.symm.trans hfail
  · cases hacquire.symm.trans hok
    exact ⟨hkeeps, hlead⟩

end View

end RecordApi
