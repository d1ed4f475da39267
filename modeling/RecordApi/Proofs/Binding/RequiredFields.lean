import RecordApi.Proofs.Binding.Timestamps
import RecordApi.Proofs.Binding.Writes
import RecordApi.Proofs.Request.Completion
import RecordApi.Proofs.Request.Offers
import RecordApi.Proofs.Schema.DataSlots

/-!
# Required fields

Calls that a schema accepts keep every stored record complete: it has a value for each field of a
scalar or an enumeration that its type marks against null. A creation must be given all of them, and
only an update may give null for one. So one call keeps the records complete unless it is such an
update, and by induction all calls do. A widget shows that an update with null is accepted, and that
the record cannot be answered then.
-/

namespace RecordApi

open RecordApi.Action RecordApi.Language RecordApi.Request RecordBinding

/-! ## What is required of records -/

/-- The values that a root type requires of its records, each with a type: those of its own fields
of scalars and enumerations that are marked against null, and the times if they are kept, whatever
they are declared as. -/
inductive Sources.Requires (s : Sources) (d : Descriptor) : String → TypeExpr → Prop where
  | data {f : DataField} (hf : f ∈ d.fields) (hleaf : f.IsLeaf)
      (hmark : f.type.toExpr.isNonNull)
      (huntimed : s.options.timestamps → f.name ∉ timestampFields) :
      Requires s d f.name f.type.toExpr
  | time {name : String} {type : TypeExpr} (htimes : s.options.timestamps)
      (hname : name ∈ timestampFields) (hmark : type.isNonNull) : Requires s d name type

/-- Whether a record has all values that a root type requires. -/
def Sources.Completes (s : Sources) (d : Descriptor) (held : Held) : Prop :=
  ∀ name type, s.Requires d name type →
    ∃ value, held name = some value ∧ value ≠ .null ∧ type.Admits value

/-- Whether data gives nothing that a required value may not be. -/
def Sources.Suits (s : Sources) (d : Descriptor) (data : Datum.Entries) : Prop :=
  ∀ name value, (name, value) ∈ data → ∀ type, s.Requires d name type → type.Admits value

/-- Whether data gives all values that a root type requires, but for the times that are kept. -/
def Sources.Covers (s : Sources) (d : Descriptor) (data : Datum.Entries) : Prop :=
  ∀ name type, s.Requires d name type →
    name ∈ data.map Prod.fst ∨ s.options.timestamps ∧ name ∈ timestampFields

/-- Whether the clock of a view shows numbers. -/
def View.ShowsNumbers {σ Key Instant : Type} (view : View σ Key Instant) : Prop :=
  ∀ instant, (∃ n, view.datum instant = .int n) ∨ ∃ x, view.datum instant = .real x

section Required

variable {s : Sources} {d : Descriptor} {data : Datum.Entries} {held : Held}

theorem Sources.Requires.isNonNull {name : String} {type : TypeExpr}
    (h : s.Requires d name type) : type.isNonNull := by
  cases h with
  | data _ _ hmark _ => exact hmark
  | time _ _ hmark => exact hmark

/-- Suitable data completes a record that has what the data does not give. -/
theorem completes_write (hsuits : s.Suits d data)
    (hheld : ∀ name type, s.Requires d name type → name ∈ data.map Prod.fst ∨
      ∃ value, held name = some value ∧ value ≠ .null ∧ type.Admits value) :
    s.Completes d (held.write data) := by
  intro name type hrequires
  rcases held.write_cases data name with ⟨value, hmem, hvalue⟩ | ⟨hnot, hkept⟩
  · have hadmits := hsuits name value hmem type hrequires
    exact ⟨value, hvalue, (TypeExpr.admits_iff.mp hadmits).1 hrequires.isNonNull, hadmits⟩
  · rw [hkept]
    exact (hheld name type hrequires).resolve_left hnot

theorem suits_set {name : String} {value : Datum} (hsuits : s.Suits d data)
    (hvalue : ∀ type : TypeExpr, type.Admits value) :
    s.Suits d (Entries.set name value data) := by
  intro other given hmem type hrequires
  rcases Association.mem_of_mem_put hmem with hset | hdata
  · obtain ⟨rfl, rfl⟩ := Prod.mk.inj hset
    exact hvalue type
  · exact hsuits other given hdata type hrequires

end Required

/-! ## What accepted data gives -/

section Given

variable {s : Sources} {d : Descriptor} {schema : Schema} {mode : InputMode}
  {slots : List InputSlot} {data : Datum.Entries}

/-- What fills the input type of a root type is suitable, if no update gives null for a field of a
scalar or an enumeration that is marked against it. -/
theorem suits_of_fills (hslots : s.HasSlots schema d mode slots) (hfills : Fills slots data)
    (hfilled : mode = .update → ∀ f ∈ d.fields, f.IsLeaf → f.type.toExpr.isNonNull →
      (f.name, .null) ∉ data) : s.Suits d data := by
  intro name value hmem type hrequires
  obtain ⟨slot, hslot, hname, hadmits⟩ := hfills.admits (name, value) hmem
  cases hrequires with
  | time htimes htime _ => exact absurd (hname ▸ htime) (hslots.untimed htimes slot hslot)
  | @data f hf hleaf hmark huntimed =>
      obtain ⟨own, -, -, htype, hunique⟩ := hslots.leaf f hf hleaf huntimed
      rw [hunique slot hslot hname, htype] at hadmits
      cases mode with
      | create => exact hadmits
      | update =>
          have hnonnull : value ≠ .null := by
            rintro rfl
            exact hfilled rfl f hf hleaf hmark hmem
          exact TypeExpr.admits_iff.mpr ⟨fun _ => hnonnull, hadmits⟩

/-- What fills the input type for creations gives everything. -/
theorem covers_of_fills (hslots : s.HasSlots schema d .create slots)
    (hfills : Fills slots data) : s.Covers d data := by
  intro name type hrequires
  cases hrequires with
  | time htimes htime _ => exact .inr ⟨htimes, htime⟩
  | @data f hf hleaf hmark huntimed =>
      obtain ⟨slot, hslot, hname, htype, -⟩ := hslots.leaf f hf hleaf huntimed
      exact .inl (hname ▸ hfills.complete slot hslot (htype ▸ hmark))

end Given

/-! ## Calls that are accepted -/

/-- Whether a call of a root type writes suitable data only, and all data if it may create. -/
structure Sources.Furnishes {κ : Type} (s : Sources) (d : Descriptor) (call : Call κ) : Prop where
  operation_mem : call.operation ∈ Operation.mutations
  suits : call.operation ≠ .delete → s.Suits d (dataOf call.arguments)
  covers : call.operation = .create ∨ call.operation = .upsert →
    s.Covers d (dataOf call.arguments)

/-- Whether a schema accepts a call of a mutation of a root type. -/
structure Schema.AcceptsCall {κ : Type} (schema : Schema) (typeName : String) (call : Call κ) :
    Prop where
  operation_mem : call.operation ∈ Operation.mutations
  accepts : ∃ field offer,
    schema.field? (typeName ++ "Mutation") call.operation.name = some field ∧
      Accepts schema field offer call.arguments

section Accepted

variable {κ : Type} {sources : List Source} {s : Sources} {assembled : Assembled} {schema : Schema}
  {d : Descriptor}
  (hgiven : ∀ d, .document d ∈ sources → d.Written)
  (hload : Assembly.workingDocument s.options.reading sources = .ok s.working)
  (hdistinct : (s.working.types.map (·.name)).Nodup)
  (hbuilt : Assembly.assemble sources s.roots s.options = .ok assembled)
  (hschema : Schema.build assembled.document = .ok schema)
  (hd : d ∈ assembled.descriptors)
  (hdeclared : ∀ mode : InputMode, mode.inputName d.typeName ∉ declaredNames s.working)
  (hown : ∀ mode, s.Emitted ⟨d.typeName, mode⟩)
  (hkept : ∀ mutation ∈ dataMutations, s.KeepsMutation d.typeName mutation.1)

include hgiven hload hdistinct hbuilt hschema hd hdeclared hown hkept

/-- The data of an accepted call fills the input type of its mode. -/
theorem exists_fills {call : Call κ} (haccepts : schema.AcceptsCall d.typeName call)
    {mode : InputMode} (hmutation : (call.operation.name, mode) ∈ dataMutations) :
    ∃ slots, s.HasSlots schema d mode slots ∧
      Fills slots (dataOf call.arguments) := by
  have hwritten := workingDocument_written hgiven hload
  obtain ⟨hroots, hns, generated, merged, hgenerated, hmerged, hdocument⟩ :=
    assembleFrom_eq_ok (assembleFrom_of_assemble hload hbuilt)
  rw [hdocument] at hschema
  obtain ⟨field, offer, hfield, hoffer⟩ := haccepts.accepts
  obtain ⟨slot, hslot, hdata, hdefault, htype⟩ := takesData_of_kept hdistinct hroots hwritten hns
    hgenerated hmerged hschema hd hmutation (hkept _ hmutation) hfield
  have hmem : field ∈ schema.fieldsOf (d.typeName ++ "Mutation") := by
    have hplain : ∀ mutation ∈ dataMutations, mutation.1 ≠ "__typename" := by decide
    rw [Schema.field?, if_neg (hplain _ hmutation)] at hfield
    exact List.mem_of_find?_eq_some hfield
  obtain ⟨-, hofDefinitions, -⟩ := Schema.build_eq_ok hschema
  have hinput := Schema.isInput_of_argument hofDefinitions hmem hslot
  rw [htype] at hinput
  obtain ⟨slots, hslots⟩ := exists_slots hdistinct hroots hwritten hns hgenerated hmerged hschema hd
    (hdeclared mode) (hown mode) hinput
  have hslotWritten : slot.type.isWritten := by
    rw [htype]
    exact hslots.written
  obtain ⟨filled, hlookup, hfills⟩ := hoffer.fills (Schema.nodup_arguments hschema hmem) hslot
    hdefault htype hslotWritten hslots.shape hslots.default hslots.input
  rw [hdata] at hlookup
  refine ⟨slots, hslots, ?_⟩
  rw [dataOf, Entries.get, hlookup]
  exact hfills

/-- A call that is accepted furnishes what is required, if it does not update a field of a scalar or
an enumeration with null that is marked against it. -/
theorem furnishes_of_accepts {call : Call κ} (haccepts : schema.AcceptsCall d.typeName call)
    (hfilled : call.operation = .update → ∀ f ∈ d.fields, f.IsLeaf →
      f.type.toExpr.isNonNull → (f.name, .null) ∉ dataOf call.arguments) : s.Furnishes d call := by
  have hfills (mode : InputMode) (hmutation : (call.operation.name, mode) ∈ dataMutations) :=
    exists_fills hgiven hload hdistinct hbuilt hschema hd hdeclared hown hkept haccepts hmutation
  refine ⟨haccepts.operation_mem, fun hdata => ?_, fun hcreates => ?_⟩
  · have hmem := haccepts.operation_mem
    cases hoperation : call.operation with
    | create | upsert =>
        obtain ⟨slots, hslots, hfill⟩ :=
          hfills .create (by simp [hoperation, dataMutations, Operation.name])
        exact suits_of_fills hslots hfill fun hupdate => absurd hupdate (by simp)
    | update =>
        obtain ⟨slots, hslots, hfill⟩ :=
          hfills .update (by simp [hoperation, dataMutations, Operation.name])
        exact suits_of_fills hslots hfill fun _ => hfilled hoperation
    | delete => exact absurd hoperation hdata
    | find | list => simp [hoperation, Operation.mutations] at hmem
  · have hmutation : (call.operation.name, InputMode.create) ∈ dataMutations := by
      rcases hcreates with h | h <;> rw [h] <;> decide
    obtain ⟨slots, hslots, hfill⟩ := hfills .create hmutation
    exact covers_of_fills hslots hfill

end Accepted

/-! ## Runs of calls -/

namespace RecordBinding

variable {σ κ Key Instant : Type} {binding : RecordBinding σ κ} {view : View σ Key Instant}
  {s : Sources} {d : Descriptor} (htimes : binding.timestamps = s.options.timestamps)
  (hclock : view.ShowsNumbers)

theorem admits_datum (hclock : view.ShowsNumbers) (instant : Instant) (type : TypeExpr) :
    type.Admits (view.datum instant) := by
  rcases hclock instant with ⟨n, hn⟩ | ⟨x, hx⟩
  · rw [hn]
    exact TypeExpr.admits_of_single (by simp) (by simp) type
  · rw [hx]
    exact TypeExpr.admits_of_single (by simp) (by simp) type

section Data

variable {data : Datum.Entries} (hsuits : s.Suits d data) (instant : Instant)

include hclock hsuits

theorem suits_stampModified :
    s.Suits d (binding.stampedAt stampModified (view.datum instant) data) := by
  unfold stampedAt
  split
  · exact suits_set hsuits (admits_datum hclock instant)
  · exact hsuits

theorem suits_stampCreated :
    s.Suits d (binding.stampedAt stampCreated (view.datum instant) data) := by
  unfold stampedAt
  split
  · exact suits_set (suits_set hsuits (admits_datum hclock instant)) (admits_datum hclock instant)
  · exact hsuits

include htimes

/-- All data, with the time written into it, completes any record. -/
theorem completes_anew (hcovers : s.Covers d data) (held : Held) :
    s.Completes d
      (held.write (binding.stampedAt stampCreated (view.datum instant) data)) := by
  refine completes_write (suits_stampCreated hclock hsuits instant) fun name type hrequires => ?_
  left
  unfold stampedAt
  rcases hcovers name type hrequires with hmem | ⟨hkeeps, htime⟩
  · split
    · exact Association.mem_keys_put (Association.mem_keys_put hmem _ _) _ _
    · exact hmem
  · rw [if_pos (htimes.trans hkeeps)]
    simp only [timestampFields, List.mem_cons, List.not_mem_nil, or_false] at htime
    rcases htime with rfl | rfl
    · exact Association.mem_keys_put (Association.key_mem_put _ _ _) _ _
    · exact Association.key_mem_put _ _ _

omit htimes in
/-- Suitable data, with the time written into it, leaves a record complete. -/
theorem completes_changed {old : Held} (hold : s.Completes d old) :
    s.Completes d
      (old.write (binding.stampedAt stampModified (view.datum instant) data)) :=
  completes_write (suits_stampModified hclock hsuits instant)
    fun name type hrequires => .inr (hold name type hrequires)

end Data

/-- A world in which every record is complete. -/
structure Filled (view : View σ Key Instant) (s : Sources) (d : Descriptor) (w : σ) : Prop where
  valid : view.Valid w
  completes : ∀ key held, view.stored w key = some held → s.Completes d held

variable [DecidableEq Key] {w : σ} {call : Call κ}

include htimes hclock

/-- Whatever the records become by a call that furnishes what is required, they are complete. -/
theorem Writes.completes {outcome : Except Failure Datum} {stored : Key → Option Held}
    (hwrites : Writes binding view w call outcome stored) (hfilled : Filled view s d w)
    (hfurnishes : s.Furnishes d call) :
    ∀ key held, stored key = some held → s.Completes d held := by
  have hupdate {at_ : Key} {new : Option Held} (hnew : ∀ held, new = some held → s.Completes d held)
      (key : Key) (held : Held)
      (hheld : Function.update (view.stored w) at_ new key = some held) : s.Completes d held := by
    by_cases hkey : key = at_
    · rw [hkey, Function.update_self] at hheld
      exact hnew held hheld
    · rw [Function.update_of_ne hkey] at hheld
      exact hfilled.completes key held hheld
  cases hwrites with
  | nothing => exact hfilled.completes
  | anew _ hkey =>
      have hoperation : call.operation = .create ∨ call.operation = .upsert :=
        hkey.imp And.left And.left
      apply hupdate
      rintro _ ⟨⟩
      refine completes_anew htimes hclock (hfurnishes.suits ?_) _ (hfurnishes.covers hoperation) _
      rcases hoperation with h | h <;> simp [h]
  | changed _ hoperation _ hold =>
      apply hupdate
      rintro _ ⟨⟩
      refine completes_changed hclock (hfurnishes.suits ?_) _ (hfilled.completes _ _ hold)
      rcases hoperation with h | h <;> simp [h]
  | removed => exact hupdate nofun

variable [Preorder Instant] (hserves : view.Serves binding)

include hserves

/-- A call that furnishes what is required leaves every record complete. -/
theorem Filled.perform (hfilled : Filled view s d w) (hfurnishes : s.Furnishes d call) :
    Filled view s d (binding.perform w call).2 := by
  obtain ⟨-, stored, hlead, hwrites⟩ :=
    leaves_of_mutation hserves hfilled.valid hfurnishes.operation_mem
  refine ⟨hlead.valid, ?_⟩
  rw [hlead.stored_eq]
  exact hwrites.completes htimes hclock hfilled hfurnishes

/-- Calls that furnish what is required leave every record complete. -/
theorem Filled.performAll {calls : List (Call κ)} (hfilled : Filled view s d w)
    (hfurnishes : ∀ call ∈ calls, s.Furnishes d call) :
    Filled view s d (binding.performAll w calls) := by
  induction calls generalizing w with
  | nil => exact hfilled
  | cons call calls ih =>
      obtain ⟨hfirst, hrest⟩ := List.forall_mem_cons.mp hfurnishes
      exact ih (hfilled.perform htimes hclock hserves hfirst) hrest

end RecordBinding

/-! ## Answers from complete records -/

/-- Whether no answer for a required field of a record tells of a missing value, in any request that
reads it from the record as a scalar or an enumeration. -/
def Sources.Answers (s : Sources) (schema : Schema) (d : Descriptor) (record : Datum) : Prop :=
  ∀ {σ : Type} (host : Host σ) (depth : Nat) (path : List PathStep) (group : FieldGroup)
    (field : OutputField), host.sources.schema = schema →
    schema.field? d.typeName group.first.head.name = some field →
    s.Requires d group.first.head.name field.type →
    schema.isOf TypeShape.isInput field.type →
    host.serving d.typeName group.first.head.name = none →
      Tells (· ≠ Asker.nullMessage ⟨d.typeName, group⟩) (fun _ => True)
        (answerField host depth d.typeName record path group)

theorem answers_of_completes {s : Sources} {schema : Schema} {d : Descriptor}
    {entries : Datum.Entries} (hcompletes : s.Completes d (Entries.get? entries)) :
    s.Answers schema d (.record entries) := by
  rintro σ host depth path group field rfl hfield hrequires hinput hserving
  refine tells_answerField hfield hserving hinput ?_
  unfold readField
  split
  · exact TypeExpr.admits_of_single (by simp) (by simp) _
  · obtain ⟨value, hvalue, -, hadmits⟩ := hcompletes _ _ hrequires
    rw [Entries.get?] at hvalue
    dsimp only
    rwa [Entries.get, hvalue]

namespace RecordBinding

section Kept

variable {σ κ Key Instant : Type} {binding : RecordBinding σ κ} {view : View σ Key Instant}
  [DecidableEq Key] [Preorder Instant] {sources : List Source} {s : Sources}
  {assembled : Assembled} {schema : Schema} {start : σ} {calls : List (Call κ)}
  (hgiven : ∀ d, .document d ∈ sources → d.Written)
  (hload : Assembly.workingDocument s.options.reading sources = .ok s.working)
  (hdistinct : (s.working.types.map (·.name)).Nodup)
  (hbuilt : Assembly.assemble sources s.roots s.options = .ok assembled)
  (hschema : Schema.build assembled.document = .ok schema)
  (hroot : binding.handle.descriptor ∈ assembled.descriptors)
  (hdeclared : ∀ mode : InputMode,
    mode.inputName binding.handle.descriptor.typeName ∉ declaredNames s.working)
  (hown : ∀ mode, s.Emitted ⟨binding.handle.descriptor.typeName, mode⟩)
  (hkept : ∀ mutation ∈ dataMutations,
    s.KeepsMutation binding.handle.descriptor.typeName mutation.1)
  (htimes : binding.timestamps = s.options.timestamps) (hserves : view.Serves binding)
  (hclock : view.ShowsNumbers) (hstart : Filled view s binding.handle.descriptor start)
  (haccepts : ∀ call ∈ calls, schema.AcceptsCall binding.handle.descriptor.typeName call)
  (hfilled : ∀ call ∈ calls, call.operation = .update →
    ∀ f ∈ binding.handle.descriptor.fields, f.IsLeaf → f.type.toExpr.isNonNull →
      (f.name, .null) ∉ dataOf call.arguments)

include hgiven hload hdistinct hbuilt hschema hroot hdeclared hown hkept htimes hserves hclock
  hstart haccepts hfilled

/-- Calls that the schema accepts leave every record with a value for each required field, if no
update gives null for one. A later find of a stored record answers what is stored, and answering a
required field from it never tells of a missing value. -/
theorem requirements_kept :
    (∀ key held, view.stored (binding.performAll start calls) key = some held →
      s.Completes binding.handle.descriptor held) ∧
    ∀ request arguments collection acquired key held,
      exec (binding.handle.collection request) (binding.performAll start calls) =
        (.ok collection, acquired) →
      view.keyOf (binding.idOf arguments) = some key →
      view.stored (binding.performAll start calls) key = some held →
      ∃ entries found,
        exec (binding.find request arguments) (binding.performAll start calls) =
          (.ok (.record entries), found) ∧
        Entries.get? entries = held ∧
        s.Answers schema binding.handle.descriptor (.record entries) := by
  have hall : Filled view s binding.handle.descriptor (binding.performAll start calls) := by
    refine hstart.performAll htimes hclock hserves fun call hcall => ?_
    exact furnishes_of_accepts hgiven hload hdistinct hbuilt hschema hroot hdeclared hown hkept
      (haccepts call hcall) (hfilled call hcall)
  refine ⟨hall.completes, fun request arguments collection acquired key held hacquire hkey hheld =>
    ?_⟩
  obtain ⟨hkeeps, hlead⟩ := hserves.acquired hall.valid hacquire
  rw [← hlead.stored_eq] at hheld
  obtain ⟨entries, hentries, found, hfind, -⟩ := hkeeps.find_stored hlead.valid hkey hheld
  rw [hlead.stored_eq] at hheld
  refine ⟨entries, found, by simp [find, hacquire, hfind], hentries, answers_of_completes ?_⟩
  rw [hentries]
  exact hall.completes key held hheld

end Kept

/-! ## Widgets with a required name -/

/-- Widgets whose name may not be null, with their times kept. -/
def namedWidgets : Sources where
  working := Document.ofDefinitions
    [ .type (Fragment.objectType "Widget"
        [ Fragment.plainField "id" [] (.nonNull (.named "ID")),
          Fragment.plainField "name" [] (.nonNull (.named "String")) ]) ]
  options := { timestamps := true }
  roots := ["Widget"]

def namedDescriptor : Descriptor :=
  { typeName := "Widget"
    idName := "id"
    idType := .nonNull (.named (.scalar "ID"))
    fields := [⟨"name", .nonNull (.named (.scalar "String"))⟩] }

/-- The cabinet of the widgets. -/
def namedBinding : RecordBinding (Cabinet Unit) Unit :=
  { clockedWidgets with handle := { clockedWidgets.handle with descriptor := namedDescriptor } }

/-- The view of the shelf of the widgets and of their clock. -/
abbrev widgetView : View (Cabinet Unit) Shelf.Key Int :=
  Cabinet.view "Widget" 0

theorem namedWidgets_described : namedWidgets.roots.eraseDups.mapM
    (Assembly.describeRoot namedWidgets.working namedWidgets.options.selector) =
      .ok [namedDescriptor] := rfl

theorem load_namedWidgets : Assembly.workingDocument namedWidgets.options.reading
    [.document namedWidgets.working] = .ok namedWidgets.working := rfl

/-- The document of the widgets. -/
def namedDocument : Document :=
  Assembly.completeSchema (Document.ofDefinitions (Merge.mergeDefinitions
    (mergedPolicies namedWidgets)
    ((mergedDocuments namedWidgets [Fragment.ofPairs
      (Assembly.rootBasis namedWidgets.working namedWidgets.options [namedDescriptor])
      namedDescriptor [⟨"Widget", .create⟩, ⟨"Widget", .update⟩]]).map (·.definitions))))

theorem assemble_namedWidgets :
    Assembly.assemble [.document namedWidgets.working] namedWidgets.roots namedWidgets.options =
      .ok ⟨namedDocument, [namedDescriptor]⟩ :=
  (assemble_singleton _ load_namedWidgets namedWidgets_described (by decide) (by decide)
    (by decide) rfl (by decide) rfl (by decide)).2

theorem serves_namedBinding : widgetView.Serves namedBinding := by
  have hstore : namedBinding.handle.store = Cabinet.store ⟨[], [], []⟩ := rfl
  have hname : namedBinding.handle.descriptor.typeName = "Widget" := rfl
  apply Cabinet.serves hstore hname _ List.not_mem_nil rfl
  intro opened hopened
  exact (Option.some.inj hopened).symm

theorem valid_emptyCabinet : widgetView.Valid emptyCabinet := by
  refine ⟨⟨_, rfl, rfl⟩, fun counter hcounter => ?_⟩
  obtain rfl : (⟨1000, 5⟩ : Counter) = counter := Option.some.inj hcounter
  decide

/-- A call that writes a name to the first widget. -/
def naming (operation : Operation) (name : Datum) : Call Unit :=
  ⟨operation, none, [("id", .text "w1"), ("data", .record [("name", name)])]⟩

/-- The arguments of a call that writes a name to the first widget. -/
def namingLiterals (name : Value) : List Argument :=
  [ ⟨⟨"id", .nowhere⟩, .string .nowhere "w1" false⟩,
    ⟨⟨"data", .nowhere⟩, .object .nowhere [(⟨"name", .nowhere⟩, name)]⟩ ]

/-- Whether a schema accepts a name as it is written. -/
def takesName (schema : Schema) (operation : Operation) (written : Value) (name : Datum) : Bool :=
  (schema.field? "WidgetMutation" operation.name).any fun field =>
    argumentValues schema [] field.arguments (namingLiterals written) =
      .ok (naming operation name).arguments

theorem acceptsCall_of_takesName {schema : Schema} {operation : Operation} {written : Value}
    {name : Datum} (hoperation : operation ∈ Operation.mutations)
    (h : takesName schema operation written name) :
    schema.AcceptsCall "Widget" (naming operation name) := by
  obtain ⟨field, hfield, hvalues⟩ := (Option.any_eq_true _ _).mp h
  exact ⟨hoperation, field, _, hfield, accepts_literals (of_decide_eq_true hvalues)⟩

/-- Creations and updates of the widgets are accepted with a name, and updates with null too. -/
theorem exists_namedSchema : ∃ schema, Schema.build namedDocument = .ok schema ∧
    schema.AcceptsCall "Widget" (naming .create (.text "Bolt")) ∧
    schema.AcceptsCall "Widget" (naming .update (.text "Nut")) ∧
    schema.AcceptsCall "Widget" (naming .update .null) ∧
    ∃ field, schema.field? "Widget" "name" = some field ∧ field.arguments = [] ∧
      field.type = .nonNull (.named "String") := by
  obtain ⟨schema, hschema, htakes⟩ := exists_ok_of_any
    (x := Schema.build namedDocument) (p := fun schema =>
      takesName schema .create (.string .nowhere "Bolt" false) (.text "Bolt") &&
      takesName schema .update (.string .nowhere "Nut" false) (.text "Nut") &&
      takesName schema .update (.null .nowhere) .null &&
      (schema.field? "Widget" "name").any fun field =>
        field.arguments.isEmpty && field.type == .nonNull (.named "String")) (by decide +kernel)
  simp only [Bool.and_eq_true] at htakes
  obtain ⟨⟨⟨hcreate, hupdate⟩, hnull⟩, hname⟩ := htakes
  obtain ⟨field, hfield, hplain⟩ := (Option.any_eq_true _ _).mp hname
  rw [Bool.and_eq_true, List.isEmpty_iff, beq_iff_eq] at hplain
  exact ⟨schema, hschema, acceptsCall_of_takesName (by decide) hcreate,
    acceptsCall_of_takesName (by decide) hupdate, acceptsCall_of_takesName (by decide) hnull,
    field, hfield, hplain⟩

/-- A widget that is created and given another name has the name in the end. -/
theorem requirements_kept_widget :
    (∀ d, .document d ∈ [Source.document namedWidgets.working] → d.Written) ∧
    Assembly.workingDocument namedWidgets.options.reading [.document namedWidgets.working] =
      .ok namedWidgets.working ∧
    (namedWidgets.working.types.map (·.name)).Nodup ∧
    (∀ mode : InputMode, mode.inputName "Widget" ∉ declaredNames namedWidgets.working) ∧
    (∀ mode, namedWidgets.Emitted ⟨"Widget", mode⟩) ∧
    (∀ mutation ∈ dataMutations, namedWidgets.KeepsMutation "Widget" mutation.1) ∧
    widgetView.Serves namedBinding ∧ widgetView.ShowsNumbers ∧
    Filled widgetView namedWidgets namedDescriptor emptyCabinet ∧
    namedWidgets.Requires namedDescriptor "name" (.nonNull (.named "String")) ∧
    ∃ assembled schema calls,
      Assembly.assemble [.document namedWidgets.working] namedWidgets.roots
        namedWidgets.options = .ok assembled ∧
      Schema.build assembled.document = .ok schema ∧
      namedBinding.handle.descriptor ∈ assembled.descriptors ∧
      calls = [naming .create (.text "Bolt"), naming .update (.text "Nut")] ∧
      (∀ call ∈ calls, schema.AcceptsCall "Widget" call) ∧
      (∀ call ∈ calls, call.operation = .update →
        ∀ f ∈ namedDescriptor.fields, f.type.toExpr.isNonNull →
          (f.name, .null) ∉ dataOf call.arguments) ∧
      ∃ held, widgetView.stored (namedBinding.performAll emptyCabinet calls)
          (.value (.text "w1")) = some held ∧
        namedWidgets.Completes namedDescriptor held ∧ held "name" = some (.text "Nut") ∧
        ∃ entries, (exec (namedBinding.find none [("id", .text "w1")])
            (namedBinding.performAll emptyCabinet calls)).1 = .ok (.record entries) ∧
          namedWidgets.Answers schema namedDescriptor (.record entries) := by
  have hgiven : ∀ d, .document d ∈ [Source.document namedWidgets.working] → d.Written := by
    intro d hd
    obtain rfl : d = namedWidgets.working := by simpa using hd
    decide
  have hdistinct : (namedWidgets.working.types.map (·.name)).Nodup := by decide
  have hroot : "Widget" ∈ namedWidgets.roots := by decide
  have hdeclared : ∀ mode : InputMode,
      mode.inputName "Widget" ∉ declaredNames namedWidgets.working := by
    intro mode
    cases mode <;> decide
  have hown : ∀ mode, namedWidgets.Emitted ⟨"Widget", mode⟩ := fun mode =>
    Sources.emitted_of_unshared hroot (hdeclared mode) fun p hp hsame =>
      eq_of_inputName hdistinct namedWidgets_described (by decide) p _ hp (.root mode hroot) hsame
  have hkept : ∀ mutation ∈ dataMutations, namedWidgets.KeepsMutation "Widget" mutation.1 :=
    fun _ _ => ⟨fun hincludes => absurd hincludes (by decide),
      fun _ hlater => absurd hlater (by decide)⟩
  have hstart : Filled widgetView namedWidgets namedDescriptor emptyCabinet :=
    ⟨valid_emptyCabinet, nofun⟩
  have hclock : widgetView.ShowsNumbers := fun instant => .inl ⟨_, rfl⟩
  have hrequires : namedWidgets.Requires namedDescriptor "name" (.nonNull (.named "String")) :=
    .data (f := ⟨"name", .nonNull (.named (.scalar "String"))⟩) (by decide) nofun rfl
      fun _ => by decide
  obtain ⟨schema, hschema, hcreate, hupdate, -⟩ := exists_namedSchema
  have haccepts : ∀ call ∈ [naming .create (.text "Bolt"), naming .update (.text "Nut")],
      schema.AcceptsCall "Widget" call := by
    simp only [List.forall_mem_cons]
    exact ⟨hcreate, hupdate, nofun⟩
  have hfilled : ∀ call ∈ [naming .create (.text "Bolt"), naming .update (.text "Nut")],
      call.operation = .update → ∀ f ∈ namedDescriptor.fields, f.type.toExpr.isNonNull →
        (f.name, .null) ∉ dataOf call.arguments := by
    decide
  obtain ⟨hcomplete, hfind⟩ := requirements_kept hgiven load_namedWidgets hdistinct
    assemble_namedWidgets hschema List.mem_cons_self hdeclared hown hkept rfl serves_namedBinding
    hclock hstart haccepts (fun call hcall hupdate f hf _ => hfilled call hcall hupdate f hf)
  obtain ⟨entries, found, hexec, -, hanswers⟩ :=
    hfind none [("id", .text "w1")] _ _ (.value (.text "w1")) _ rfl rfl rfl
  exact ⟨hgiven, load_namedWidgets, hdistinct, hdeclared, hown, hkept, serves_namedBinding, hclock,
    hstart, hrequires, _, schema, _, assemble_namedWidgets, hschema, List.mem_cons_self, rfl,
    haccepts, hfilled, _, rfl, hcomplete (.value (.text "w1")) _ rfl, rfl, entries,
    congrArg Prod.fst hexec, hanswers⟩

/-- An update of a widget is accepted with null for its name, though the name may not be null. The
record has no name then, and asking for it after a find tells that it is missing. -/
theorem requirements_lost_widget :
    namedWidgets.Requires namedDescriptor "name" (.nonNull (.named "String")) ∧
    (∀ t ∈ namedWidgets.working.types, ∃ interfaces fields, t.body = .object interfaces fields) ∧
    widgetView.Serves namedBinding ∧
    Filled widgetView namedWidgets namedDescriptor emptyCabinet ∧
    ∃ assembled schema calls entries,
      Assembly.assemble [.document namedWidgets.working] namedWidgets.roots
        namedWidgets.options = .ok assembled ∧
      Schema.build assembled.document = .ok schema ∧
      namedBinding.handle.descriptor ∈ assembled.descriptors ∧
      calls = [naming .create (.text "Bolt"), naming .update .null] ∧
      (∀ call ∈ calls, schema.AcceptsCall "Widget" call) ∧
      (widgetView.stored (namedBinding.performAll emptyCabinet calls)
        (.value (.text "w1"))).bind (· "name") = some .null ∧
      (exec (namedBinding.find none [("id", .text "w1")])
        (namedBinding.performAll emptyCabinet calls)).1 = .ok (.record entries) ∧
      ∀ (host : Host Unit) (depth : Nat) (path : List PathStep) (group : FieldGroup)
        (progress : Progress Unit), host.sources.schema = schema →
        group.first.head.name = "name" → host.serving "Widget" "name" = none →
        ∃ raised, (outcome (answerField host depth "Widget" (.record entries) path group)
            progress).1 = .error raised ∧
          raised.message = Asker.nullMessage ⟨"Widget", group⟩ := by
  obtain ⟨schema, hschema, hcreate, -, hnull, field, hfield, harguments, htype⟩ :=
    exists_namedSchema
  have haccepts : ∀ call ∈ [naming .create (.text "Bolt"), naming .update .null],
      schema.AcceptsCall "Widget" call := by
    simp only [List.forall_mem_cons]
    exact ⟨hcreate, hnull, nofun⟩
  refine ⟨.data (f := ⟨"name", .nonNull (.named (.scalar "String"))⟩) (by decide) nofun rfl
    fun _ => by decide, ?_, serves_namedBinding, ⟨valid_emptyCabinet, nofun⟩, _, schema, _, _,
    assemble_namedWidgets, hschema, List.mem_cons_self, rfl, haccepts, rfl, rfl, ?_⟩
  · intro t ht
    obtain rfl := List.mem_singleton.mp ht
    exact ⟨_, _, rfl⟩
  · rintro host depth path group progress rfl hname hserving
    rw [← hname] at hfield hserving
    refine raises_of_missing hfield hserving harguments htype ?_ progress
    rw [hname]
    rfl

end RecordBinding

end RecordApi
