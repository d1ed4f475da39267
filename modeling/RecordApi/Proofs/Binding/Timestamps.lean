import RecordApi.Proofs.Binding.Effects
import RecordApi.Proofs.Memory.Shelves

/-!
# Times of records

With times kept, every record tells when it was created and when it was last changed. That is proved
for any sequence of calls that write, over any collection that stores what it is given: one call
keeps the times in accordance with the events so far, and so do all calls by induction.
-/

namespace RecordApi.RecordBinding

open RecordApi.Action

variable {σ κ Key Instant : Type} (binding : RecordBinding σ κ) (view : View σ Key Instant)
  [DecidableEq Key] [Preorder Instant]

/-- A record has the times of its last creation and of its last change, and these are in order. -/
def Dated (history : List (Event Key Instant)) (key : Key) (held : Held) : Prop :=
  ∃ creation change,
    Event.last? (·.creates key) history = some creation ∧
    Event.last? (·.writes key) history = some change ∧
    creation.instant ≤ change.instant ∧
    held "created" = some (view.datum creation.instant) ∧
    held "modified" = some (view.datum change.instant)

/-- A world in which every record has its times, none of which is still to come. -/
structure Kept (history : List (Event Key Instant)) (w : σ) : Prop where
  valid : view.Valid w
  past : ∀ event ∈ history, event.instant ≤ view.time w
  dated : ∀ key held, view.stored w key = some held → Dated view history key held

section Keeping

variable {view} {w w' : σ} {history : List (Event Key Instant)} {event : Event Key Instant}
  {stored : Key → Option Held}

/-- An event that is about other records leaves a record its times. -/
theorem Dated.append {key : Key} {held : Held} (h : Dated view history key held)
    (hother : ¬ event.writes key) : Dated view (history ++ [event]) key held := by
  obtain ⟨creation, change, hcreation, hchange, hle, hcreated, hmodified⟩ := h
  refine ⟨creation, change, ?_, ?_, hle, hcreated, hmodified⟩
  · rw [Event.last?_append_of_not (·.creates key) (Event.not_creates_of_not_writes hother),
      hcreation]
  · rw [Event.last?_append_of_not (·.writes key) hother, hchange]

/-- Records have their times after an event, if they had them before. -/
theorem Effect.dated (heffect : Effect view w event stored) (hkept : Kept view history w)
    (hevent : view.time w ≤ event.instant) :
    ∀ key held, stored key = some held → Dated view (history ++ [event]) key held := by
  intro key held hheld
  cases heffect with
  | nothing hnone => exact (hkept.dated key held hheld).append (hnone key)
  | @created at_ new hcreates hcreated hmodified =>
      by_cases hkey : key = at_
      · obtain rfl := hkey
        rw [Function.update_self] at hheld
        obtain rfl := Option.some.inj hheld
        have hwrites := Event.writes_of_creates hcreates
        exact ⟨event, event, Event.last?_append_of_kind (·.creates key) hcreates history,
          Event.last?_append_of_kind (·.writes key) hwrites history, le_rfl, hcreated, hmodified⟩
      · rw [Function.update_of_ne hkey] at hheld
        refine (hkept.dated key held hheld).append fun hwrites => hkey ?_
        exact Event.eq_of_writes (Event.writes_of_creates hcreates) hwrites
  | @changed at_ old new hold hwrites hnot hcreated hmodified =>
      by_cases hkey : key = at_
      · obtain rfl := hkey
        rw [Function.update_self] at hheld
        obtain rfl := Option.some.inj hheld
        obtain ⟨creation, change, hcreation, -, -, hbefore, -⟩ := hkept.dated key old hold
        refine ⟨creation, event, ?_, Event.last?_append_of_kind (·.writes key) hwrites history, ?_,
          ?_, hmodified⟩
        · rw [Event.last?_append_of_not (·.creates key) hnot, hcreation]
        · exact (hkept.past creation (Event.mem_of_last? hcreation)).trans hevent
        · rw [hcreated, hbefore]
      · rw [Function.update_of_ne hkey] at hheld
        exact (hkept.dated key held hheld).append fun hother =>
          hkey (Event.eq_of_writes hwrites hother)
  | @removed at_ hnone =>
      by_cases hkey : key = at_
      · rw [hkey, Function.update_self] at hheld
        cases hheld
      · rw [Function.update_of_ne hkey] at hheld
        exact (hkept.dated key held hheld).append (hnone key)

omit [Preorder Instant] in
/-- Only an event that creates a record gives it another time of creation. -/
theorem Effect.created_eq (heffect : Effect view w event stored) {key : Key} {old new : Held}
    (hold : view.stored w key = some old) (hnew : stored key = some new)
    (hnot : ¬ event.creates key) : new "created" = old "created" := by
  have hsame : view.stored w key = some new → new "created" = old "created" := by
    intro hstill
    rw [Option.some.inj (hstill.symm.trans hold)]
  cases heffect with
  | nothing => exact hsame hnew
  | @created at_ _ hcreates =>
      by_cases hkey : key = at_
      · exact absurd (hkey ▸ hcreates) hnot
      · rw [Function.update_of_ne hkey] at hnew
        exact hsame hnew
  | @changed at_ before _ hbefore _ _ hcreated =>
      by_cases hkey : key = at_
      · obtain rfl := hkey
        rw [Function.update_self] at hnew
        rw [← Option.some.inj hnew, hcreated, Option.some.inj (hbefore.symm.trans hold)]
      · rw [Function.update_of_ne hkey] at hnew
        exact hsame hnew
  | @removed at_ =>
      by_cases hkey : key = at_
      · rw [hkey, Function.update_self] at hnew
        cases hnew
      · rw [Function.update_of_ne hkey] at hnew
        exact hsame hnew

variable {binding} (hserves : view.Serves binding) (htimes : binding.timestamps = true)

include hserves htimes

/-- A call leaves every record its times. -/
theorem Kept.perform {call : Call κ} (hkept : Kept view history w) (huntimed : call.Untimed) :
    Kept view (history ++ [binding.event view w call]) (binding.perform w call).2 := by
  have hacts := acts_of_untimed hserves htimes hkept.valid huntimed
  obtain ⟨stored, hlead, heffect⟩ := hacts.effect
  constructor
  · exact hlead.valid
  · intro event hmem
    rcases List.mem_append.mp hmem with hpast | hlast
    · exact (hkept.past event hpast).trans hlead.time_le
    · rw [List.mem_singleton.mp hlast]
      exact hacts.instant_le_time
  · rw [hlead.stored_eq]
    exact heffect.dated hkept hacts.time_le_instant

/-- Calls leave every record its times, whatever has been called before. -/
theorem Kept.performAll {calls : List (Call κ)} (hkept : Kept view history w)
    (huntimed : ∀ call ∈ calls, call.Untimed) :
    Kept view (history ++ binding.history view w calls) (binding.performAll w calls) := by
  induction calls generalizing history w with
  | nil =>
      rw [RecordBinding.history, List.append_nil]
      exact hkept
  | cons call calls ih =>
      have hfirst := hkept.perform hserves htimes (huntimed call List.mem_cons_self)
      have hrest := ih hfirst fun later hlater => huntimed later (List.mem_cons_of_mem call hlater)
      rw [List.append_assoc] at hrest
      exact hrest

omit htimes in
/-- An update of a record that is not there fails and leaves the records as they are, whatever the
update of the collection does. -/
theorem exec_update_of_stored_none (hw : view.Valid w) {request : Option κ}
    {arguments : Datum.Entries} {collection : Collection σ} {acquired : σ}
    (hacquire : exec (binding.handle.collection request) w = (.ok collection, acquired)) {key : Key}
    (hkey : view.keyOf (binding.idOf arguments) = some key) (hmissing : view.stored w key = none) :
    ∃ left, view.stored left = view.stored w ∧
      exec (binding.update request arguments) w =
        (.error (.noRecord binding.handle.descriptor.typeName (binding.idOf arguments).plainText),
          left) ∧
      ∀ change, exec ((binding.withUpdate change).update request arguments) w =
        exec (binding.update request arguments) w := by
  obtain ⟨hkeeps, hlead⟩ := hserves.acquired hw hacquire
  rw [← hlead.stored_eq] at hmissing
  have hbind : (view.keyOf (binding.idOf arguments)).bind (view.stored acquired) = none := by
    rw [hkey]
    exact hmissing
  obtain ⟨left, hfind, hleft⟩ := (hkeeps.find_missing hlead.valid hbind).resolve_right
    fun hunusable => Option.some_ne_none key (hkey.symm.trans hunusable.1)
  have hexec := exec_update_missing hacquire rfl hfind
  refine ⟨left, hleft.stored_eq.trans hlead.stored_eq, hexec, fun change => ?_⟩
  have hother := exec_collection_withUpdate hacquire change
  rw [hexec]
  exact exec_update_missing hother rfl hfind

end Keeping

section Times

variable {binding view} {start : σ} {calls : List (Call κ)} (hserves : view.Serves binding)
  (htimes : binding.timestamps = true) (hvalid : view.Valid start)
  (hempty : ∀ key, view.stored start key = none) (huntimed : ∀ call ∈ calls, call.Untimed)

include hserves htimes hvalid hempty huntimed

/-- With times kept, every record that calls leave in an empty collection has the times of its last
creation and of its last change, the first no later than the second. A call that does not create a
record leaves its time of creation as it is, and an update of a record that is not there fails
without touching the records or asking the collection for an update. -/
theorem records_dated :
    (∀ key held, view.stored (binding.performAll start calls) key = some held →
      Dated view (binding.history view start calls) key held) ∧
    (∀ call, call.Untimed → ∀ key old new,
      view.stored (binding.performAll start calls) key = some old →
      view.stored (binding.performAll start (calls ++ [call])) key = some new →
      ¬ (binding.event view (binding.performAll start calls) call).creates key →
      new "created" = old "created") ∧
    ∀ request arguments collection acquired key,
      exec (binding.handle.collection request) (binding.performAll start calls) =
        (.ok collection, acquired) →
      view.keyOf (binding.idOf arguments) = some key →
      view.stored (binding.performAll start calls) key = none →
      ∃ left, view.stored left = view.stored (binding.performAll start calls) ∧
        exec (binding.update request arguments) (binding.performAll start calls) =
          (.error (.noRecord binding.handle.descriptor.typeName (binding.idOf arguments).plainText),
            left) ∧
        ∀ change,
          exec ((binding.withUpdate change).update request arguments)
              (binding.performAll start calls) =
            exec (binding.update request arguments) (binding.performAll start calls) := by
  have hstart : Kept view [] start := by
    constructor
    · exact hvalid
    · intro event hmem
      cases hmem
    · intro key held hheld
      cases (hempty key).symm.trans hheld
  have hkept : Kept view (binding.history view start calls) (binding.performAll start calls) :=
    hstart.performAll hserves htimes huntimed
  refine ⟨hkept.dated, ?_, ?_⟩
  · intro call hcall key old new hold hnew hnot
    obtain ⟨stored, hlead, heffect⟩ :=
      (acts_of_untimed hserves htimes hkept.valid hcall).effect
    rw [performAll_append, hlead.stored_eq] at hnew
    exact heffect.created_eq hold hnew hnot
  · intro request arguments collection acquired key hacquire hkey hmissing
    exact exec_update_of_stored_none hserves hkept.valid hacquire hkey hmissing

end Times

/-- Widgets of a cabinet, with a clock. -/
def clockedWidgets : RecordBinding (Cabinet Unit) Unit where
  handle :=
    { store := Cabinet.store ⟨[], [], []⟩
      descriptor := ⟨"Widget", "id", .nonNull (.named (.scalar "ID")), []⟩
      context := ()
      opened := some (Cabinet.collection "Widget") }
  timestamps := true
  mostPerPage := 100
  now := Cabinet.tick 0

/-- A cabinet without widgets, and a clock that goes on by five at each look. -/
def emptyCabinet : Cabinet Unit where
  shelves := [⟨"Widget", [], [], []⟩]
  counters := [(0, ⟨1000, 5⟩)]

/-- A widget is created, another one is put there and deleted, and the first one is changed. -/
def widgetCalls : List (Call Unit) :=
  [ ⟨.create, none, [("id", .text "w1"), ("data", .record [("name", .text "Bolt")])]⟩,
    ⟨.upsert, none, [("id", .text "w2"), ("data", .record [])]⟩,
    ⟨.delete, none, [("id", .text "w2")]⟩,
    ⟨.upsert, none, [("id", .text "w1"), ("data", .record [("name", .text "Nut")])]⟩ ]

/-- The first widget has the instants of the first and the last call, and the other one cannot be
updated any more. -/
theorem records_dated_widgets :
    (Cabinet.view "Widget" 0).Serves clockedWidgets ∧ clockedWidgets.timestamps = true ∧
    (Cabinet.view "Widget" 0).Valid emptyCabinet ∧
    (∀ key, (Cabinet.view "Widget" 0).stored emptyCabinet key = none) ∧
    (∀ call ∈ widgetCalls, call.Untimed) ∧
    (∃ held, (Cabinet.view "Widget" 0).stored (clockedWidgets.performAll emptyCabinet widgetCalls)
        (.value (.text "w1")) = some held ∧
      held "created" = some (.int 1000) ∧ held "modified" = some (.int 1010)) ∧
    (exec (clockedWidgets.update none [("id", .text "w2")])
      (clockedWidgets.performAll emptyCabinet widgetCalls)).1 =
        .error (.noRecord "Widget" "w2") := by
  have hserves : (Cabinet.view "Widget" 0).Serves clockedWidgets := by
    have hstore : clockedWidgets.handle.store = Cabinet.store ⟨[], [], []⟩ := rfl
    have hname : clockedWidgets.handle.descriptor.typeName = "Widget" := rfl
    apply Cabinet.serves hstore hname _ List.not_mem_nil rfl
    intro opened hopened
    exact (Option.some.inj hopened).symm
  have hvalid : (Cabinet.view "Widget" 0).Valid emptyCabinet := by
    refine ⟨⟨_, rfl, rfl⟩, fun counter hcounter => ?_⟩
    obtain rfl : (⟨1000, 5⟩ : Counter) = counter := Option.some.inj hcounter
    decide
  have huntimed : ∀ call ∈ widgetCalls, call.Untimed := by
    intro call hcall
    have hparts : call.operation ∈ Operation.mutations ∧
        Entries.get? (dataOf call.arguments) "created" = none ∧
        Entries.get? (dataOf call.arguments) "modified" = none := by
      revert call
      decide
    exact ⟨hparts.1, hparts.2.1, hparts.2.2⟩
  obtain ⟨hdated, -, hupdate⟩ := records_dated hserves rfl hvalid (fun _ => rfl) huntimed
  refine ⟨hserves, rfl, hvalid, fun _ => rfl, huntimed, ?_, ?_⟩
  · obtain ⟨creation, change, hcreation, hchange, -, hcreated, hmodified⟩ :=
      hdated (.value (.text "w1")) _ rfl
    obtain rfl : _ = creation := Option.some.inj hcreation
    obtain rfl : _ = change := Option.some.inj hchange
    exact ⟨_, rfl, hcreated, hmodified⟩
  · obtain ⟨left, -, hfails, -⟩ :=
      hupdate none [("id", .text "w2")] _ _ (.value (.text "w2")) rfl rfl rfl
    rw [hfails]
    rfl

end RecordApi.RecordBinding
