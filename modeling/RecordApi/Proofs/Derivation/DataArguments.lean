import RecordApi.Proofs.Derivation.AssembledTypes

/-!
# The data arguments of mutations

The mutations of a root type take the input types that are emitted under its names. These are its
own unless that of another type is emitted first, which happens just between a type and one that is
called like it with Update behind.
-/

namespace RecordApi

open RecordApi.Language

/-- A type that can be written has one mark against null outermost at most. -/
theorem nullable_of_written {type : TypeExpr} (h : type.isWritten) (f : String → String) :
    (type.withBase f).nullable.isNonNull = false := by
  cases type with
  | named base => rfl
  | list item => rfl
  | nonNull inner =>
      have hinner : inner.isNonNull = false := by
        simp only [TypeExpr.isWritten, Bool.and_eq_true, Bool.not_eq_true'] at h
        exact h.1
      cases inner with
      | nonNull more => cases hinner
      | _ => rfl

/-- Whether a field of an object type takes a type of the document for its data. -/
def Language.Document.TakesData (document : Document) (typeName fieldName : String)
    (d : TypeDef) : Prop :=
  ∃ t interfaces fields f a, document.typeNamed? typeName = some t ∧
    t.body = .object interfaces fields ∧ f ∈ fields ∧ f.name = fieldName ∧ a ∈ f.arguments ∧
    a.name = "data" ∧ document.typeNamed? a.type.baseName = some d

/-- Whether the data of a mutation of a root type is an input type with the data fields of the root
type, each of which may be left out in update mode. -/
def Sources.TakesOwnFields (s : Sources) (document : Document) (name field : String)
    (mode : InputMode) : Prop :=
  ∃ declared d inputs, s.working.composite? name = some declared ∧
    document.TakesData (name ++ "Mutation") field d ∧ d.body = .input inputs ∧
    inputs.map (·.name) = ((s.dataFields name declared).filter
      fun f => !s.working.isUnion f.type.baseName).map (·.name) ∧
    (mode = .update → ∀ i ∈ inputs, i.type.isNonNull = false)

/-- The mutations that take data, with the modes of their input types. -/
def dataMutations : List (String × InputMode) :=
  [("create", .create), ("update", .update), ("upsert", .create)]

/-- A mutation that takes data has an argument for it. -/
theorem dataField_mutationType (d : Descriptor) {field : String} {mode : InputMode}
    (h : (field, mode) ∈ dataMutations) :
    ∃ f ∈ (Definition.type (Fragment.mutationType d)).fields, f.name = field ∧
      ∃ a ∈ f.arguments, a.name = "data" ∧ a.default = none ∧
        a.type = .nonNull (.named (mode.inputName d.typeName)) := by
  simp only [dataMutations, List.mem_cons, List.not_mem_nil, or_false, Prod.mk.injEq] at h
  rcases h with ⟨rfl, rfl⟩ | ⟨rfl, rfl⟩ | ⟨rfl, rfl⟩
  · exact ⟨_, List.mem_cons_self, rfl, _, List.mem_cons_of_mem _ List.mem_cons_self, rfl, rfl, rfl⟩
  · exact ⟨_, List.mem_cons_of_mem _ List.mem_cons_self, rfl, _,
      List.mem_cons_of_mem _ List.mem_cons_self, rfl, rfl, rfl⟩
  · exact ⟨_, List.mem_cons_of_mem _ (List.mem_cons_of_mem _ List.mem_cons_self), rfl, _,
      List.mem_cons_of_mem _ List.mem_cons_self, rfl, rfl, rfl⟩

section Assembled

variable {sources : List Source} {s : Sources} {assembled : Assembled}
  (hgiven : ∀ d, .document d ∈ sources → d.Written)
  (hload : Assembly.workingDocument s.options.reading sources = .ok s.working)
  (hdistinct : (s.working.types.map (·.name)).Nodup)
  (hbuilt : Assembly.assemble sources s.roots s.options = .ok assembled)

include hgiven hload hdistinct hbuilt

/-- A mutation of a root type takes just the data fields of the root type if the input type of its
own pair is emitted. Otherwise it takes the input type of another type: on update, of the one called
like the root type with Update behind, and else of the one that the root type is called after so. -/
theorem dataArguments_exact {name : String} (hname : name ∈ s.roots)
    (hdeclared : ∀ mode : InputMode, mode.inputName name ∉ declaredNames s.working)
    {field : String} {mode : InputMode} (hmutation : (field, mode) ∈ dataMutations)
    (hinput : ¬ (RootNames.ofDocument s.working).Includes (mode.inputName name))
    (hkept : s.KeepsMutation name field) :
    (s.Emitted ⟨name, mode⟩ → s.TakesOwnFields assembled.document name field mode) ∧
    (¬ s.Emitted ⟨name, mode⟩ → ∃ p fields, s.Emitted p ∧
      (mode = .update ∧ p = ⟨name ++ "Update", .create⟩ ∨
        mode = .create ∧ p.mode = .update ∧ name = p.typeName ++ "Update") ∧
      s.fields? p.typeName = some fields ∧
      assembled.document.TakesData (name ++ "Mutation") field (s.inputType p fields)) := by
  have hwritten := workingDocument_written hgiven hload
  obtain ⟨hroots, hns, generated, merged, hgenerated, hmerged, hdocument⟩ :=
    assembleFrom_eq_ok (assembleFrom_of_assemble hload hbuilt)
  obtain ⟨d, hd, rfl⟩ := (mem_roots hroots).mp hname
  have htakes {p : InputPair} (hp : s.Emitted p)
      (hpname : p.inputName = mode.inputName d.typeName) :
      ∃ fields, s.fields? p.typeName = some fields ∧
        assembled.document.TakesData (d.typeName ++ "Mutation") field (s.inputType p fields) := by
    obtain ⟨fields, hfields, ht⟩ := typeNamed?_input hdistinct hroots hwritten hns hgenerated
      hmerged (hdeclared mode) hinput hp hpname
    obtain ⟨f, hf, rfl, a, ha, hdata, -, htype⟩ := dataField_mutationType d hmutation
    obtain ⟨m, interfaces, offered, hm, hbody, hmem⟩ :=
      mutation_offers hdistinct hroots hwritten hns hgenerated hmerged hd hf hkept
    refine ⟨fields, hfields, m, interfaces, offered, f, a, ?_, hbody, hmem, rfl, ha, hdata, ?_⟩
    · rw [hdocument, typeNamed?_completeSchema, hm]
    · rw [hdocument, typeNamed?_completeSchema, htype, TypeExpr.baseName, TypeExpr.baseName, ht]
  constructor
  · intro hown
    obtain ⟨fields, hfields, hdata⟩ := htakes hown rfl
    obtain ⟨declared, hcomposite, rfl⟩ := Option.map_eq_some_iff.mp hfields
    refine ⟨declared, _, _, hcomposite, hdata, rfl, ?_, ?_⟩
    · simp [hname, Sources.inputField]
    · rintro rfl i hi
      obtain ⟨f, hf, rfl⟩ := List.mem_map.mp hi
      have hf := (List.mem_filter.mp hf).1
      rw [if_pos hname] at hf
      have htype := ((written_composite? hwritten hcomposite).2 f (List.mem_filter.mp hf).1).2
      exact nullable_of_written htype _
  · intro hother
    obtain ⟨p, hp, hpname⟩ := Sources.exists_emitted hname (hdeclared mode)
    obtain ⟨fields, hfields, hdata⟩ := htakes hp hpname
    refine ⟨p, fields, hp, ?_, hfields, hdata⟩
    rcases InputPair.eq_of_inputName (q := ⟨d.typeName, mode⟩) hpname with rfl | ⟨rfl, h⟩ | ⟨h, hq⟩
    · exact absurd hp hother
    · exact .inl ⟨h, rfl⟩
    · obtain ⟨hsame, hmode⟩ := InputPair.mk.inj hq
      exact .inr ⟨hmode, h, hsame⟩

end Assembled

theorem dataArguments_exact_orders :
    (∀ d, .document d ∈ orderSources → d.Written) ∧
    Assembly.workingDocument orders.options.reading orderSources = .ok orders.working ∧
    (orders.working.types.map (·.name)).Nodup ∧ "Order" ∈ orders.roots ∧
    (∀ mode : InputMode, mode.inputName "Order" ∉ declaredNames orders.working) ∧
    ("update", .update) ∈ dataMutations ∧
    ¬ (RootNames.ofDocument orders.working).Includes (InputMode.update.inputName "Order") ∧
    orders.KeepsMutation "Order" "update" ∧ orders.Emitted ⟨"Order", .update⟩ ∧
    ∃ assembled, Assembly.assemble orderSources orders.roots orders.options = .ok assembled ∧
      orders.TakesOwnFields assembled.document "Order" "update" .update := by
  have hgiven := orderSources_written
  have hload := load_orders
  have hdistinct : (orders.working.types.map (·.name)).Nodup := by decide
  have hname : "Order" ∈ orders.roots := by decide
  have hdeclared : ∀ mode : InputMode, mode.inputName "Order" ∉ declaredNames orders.working := by
    intro mode
    cases mode <;> decide
  have hmutation : ("update", .update) ∈ dataMutations := by decide
  have hinput : ¬ (RootNames.ofDocument orders.working).Includes
      (InputMode.update.inputName "Order") := by
    decide
  have hkept : orders.KeepsMutation "Order" "update" :=
    ⟨fun hincludes => absurd hincludes (by decide), fun htimes => absurd htimes (by decide)⟩
  have hemitted : orders.Emitted ⟨"Order", .update⟩ :=
    Sources.emitted_of_unshared hname (hdeclared .update) fun p hp hsame =>
      orders_named p _ hp (.root .update hname) hsame
  obtain ⟨assembled, hbuilt⟩ := assemble_orders
  have hexact := dataArguments_exact hgiven hload hdistinct hbuilt hname hdeclared hmutation hinput
    hkept
  exact ⟨hgiven, hload, hdistinct, hname, hdeclared, hmutation, hinput, hkept, hemitted, assembled,
    hbuilt, hexact.1 hemitted⟩

/-! ## A type called like another with Update behind it -/

/-- Widgets that lead to a type called like the widget with Update behind it. -/
def widgets : Sources where
  working := Document.ofDefinitions
    [ .type (Fragment.objectType "Widget"
        [ Fragment.plainField "id" [] (.nonNull (.named "ID")),
          Fragment.plainField "change" [] (.named "WidgetUpdate") ]),
      .type (Fragment.objectType "WidgetUpdate"
        [Fragment.plainField "note" [] (.nonNull (.named "String"))]) ]
  options := {}
  roots := ["Widget"]

def widgetDescriptor : Descriptor :=
  { typeName := "Widget"
    idName := "id"
    idType := .nonNull (.named (.scalar "ID"))
    fields := [⟨"change", .named (.object "WidgetUpdate")⟩] }

def widgetBasis : Basis :=
  Assembly.rootBasis widgets.working widgets.options [widgetDescriptor]

/-- The input types of the widgets: in update mode they have the one of the change. -/
def widgetInputs : List TypeDef :=
  [widgetBasis.inputOf ⟨"WidgetUpdate", .create⟩, widgetBasis.inputOf ⟨"Widget", .create⟩]

theorem widgets_described : widgets.roots.eraseDups.mapM
    (Assembly.describeRoot widgets.working widgets.options.selector) = .ok [widgetDescriptor] := rfl

theorem derivations_widgets : Fragment.Derivations widgetBasis [widgetDescriptor] []
    [[⟨"WidgetUpdate", .create⟩, ⟨"Widget", .create⟩]] :=
  .cons (by decide) rfl (by decide) (.nil _)

theorem fragments_widgets : Assembly.fragments widgetBasis [widgetDescriptor] =
    .ok [(widgetInputs ++ Fragment.outputTypes widgetBasis widgetDescriptor).map .type] :=
  (assemble_of_derivations (s := widgets) rfl widgets_described (by decide) (by decide) (by decide)
    rfl derivations_widgets).1

/-- The document of the widgets. -/
def widgetDocument : Document :=
  Assembly.completeSchema (Document.ofDefinitions
    (Merge.mergeDefinitions (mergedPolicies widgets)
      ((mergedDocuments widgets
        [(widgetInputs ++ Fragment.outputTypes widgetBasis widgetDescriptor).map .type]).map
          (·.definitions))))

theorem assemble_widgets :
    Assembly.assemble [.document widgets.working] widgets.roots widgets.options =
      .ok ⟨widgetDocument, [widgetDescriptor]⟩ :=
  (assemble_of_derivations rfl widgets_described (by decide) (by decide) (by decide) rfl
    derivations_widgets).2

/-- The update of a widget takes the fields of its change, which may not be left out, and not those
of the widget. -/
theorem dataArguments_widgets :
    (∀ d, .document d ∈ [Source.document widgets.working] → d.Written) ∧
    (widgets.working.types.map (·.name)).Nodup ∧ "Widget" ∈ widgets.roots ∧
    (∀ mode : InputMode, mode.inputName "Widget" ∉ declaredNames widgets.working) ∧
    (widgets.working.composite? "Widget").map (fun declared =>
      ((widgets.dataFields "Widget" declared).filter
        fun f => !widgets.working.isUnion f.type.baseName).map (·.name)) = some ["change"] ∧
    ∃ assembled,
      Assembly.assemble [.document widgets.working] widgets.roots widgets.options =
        .ok assembled ∧
      ∃ d, assembled.document.TakesData "WidgetMutation" "update" d ∧
        d.body = .input [⟨none, "note", .nonNull (.named "String"), none, []⟩] := by
  have hgiven : ∀ d, .document d ∈ [Source.document widgets.working] → d.Written := by
    intro d hd
    obtain rfl : d = widgets.working := by simpa using hd
    decide
  have hdeclared : ∀ mode : InputMode,
      mode.inputName "Widget" ∉ declaredNames widgets.working := by
    intro mode
    cases mode <;> decide
  have hmutation : widgetDocument.typeNamed? "WidgetMutation" =
      some (Fragment.mutationType widgetDescriptor) := rfl
  have hinput : widgetDocument.typeNamed? "WidgetUpdateInput" =
      some (widgetBasis.inputOf ⟨"WidgetUpdate", .create⟩) := rfl
  obtain ⟨f, hf, hfield, a, ha, hdata, -, htype⟩ :=
    dataField_mutationType widgetDescriptor (show ("update", .update) ∈ dataMutations by decide)
  refine ⟨hgiven, by decide, by decide, hdeclared, rfl, _, assemble_widgets,
    widgetBasis.inputOf ⟨"WidgetUpdate", .create⟩, ?_, rfl⟩
  refine ⟨_, _, _, f, a, hmutation, rfl, hf, hfield, ha, hdata, ?_⟩
  rw [htype]
  exact hinput

end RecordApi
