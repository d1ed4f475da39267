import RecordApi.Proofs.Schema.DataSlots

/-!
# Fields that extensions add

The input types of a root type are derived from its definition, while the schema gives the root type
what its extensions add as well. So a data field can be selected without being written just if an
extension adds it.
-/

namespace RecordApi

open RecordApi.Language SchemaBuild

/-- Whether a field of a root type holds data: it is not the identifier, not a time that is kept,
and not of a union. -/
structure Sources.IsData (s : Sources) (d : Descriptor) (field : OutputField) : Prop where
  name : field.name ≠ d.idName
  untimed : s.options.timestamps → field.name ∉ timestampFields
  single : s.working.isUnion field.type.baseName = false

/-- Whether a slot takes what a field holds. -/
structure Sources.Feeds (s : Sources) (mode : InputMode) (slot : InputSlot)
    (field : OutputField) : Prop where
  name : slot.name = field.name
  type : slot.type = mode.fieldExpr (field.type.withBase (s.inputBase mode))

/-- Whether slots are for just the data fields that can be selected on a root type. -/
def Sources.CoversData (s : Sources) (schema : Schema) (d : Descriptor)
    (slots : List InputSlot) : Prop :=
  ∀ name, (∃ slot ∈ slots, slot.name = name) ↔
    ∃ field ∈ schema.fieldsOf d.typeName, s.IsData d field ∧ field.name = name

/-! ## Extensions in an assembled document -/

section Extensions

theorem exists_extension_of_added {definitions : List Definition} {name : String} {f : FieldDef}
    (h : f ∈ addedFields definitions name) :
    ∃ more, .typeExtension more ∈ definitions ∧ more.name = name ∧
      f ∈ (Definition.typeExtension more).fields := by
  obtain ⟨more, hmore, hf⟩ := List.mem_flatMap.mp h
  obtain ⟨definition, hdefinition, hsome⟩ := List.mem_filterMap.mp hmore
  cases definition with
  | typeExtension own =>
      obtain rfl := Option.some.inj hsome
      unfold addedBy at hf
      split at hf
      · next interfaces fields hbody =>
          split at hf
          · next hname => exact ⟨own, hdefinition, hname, by rwa [Definition.fields, hbody]⟩
          · cases hf
      · cases hf
  | _ => cases hsome

theorem extensionsOf_unkeyed (definitions : List Definition) :
    extensionsOf (definitions.filter fun d => (Merge.key? d).isNone) =
      extensionsOf definitions := by
  rw [extensionsOf, extensionsOf, List.filterMap_filter]
  refine List.filterMap_congr fun d _ => ?_
  cases hkey : Merge.key? d with
  | none => rfl
  | some key =>
      cases d with
      | typeExtension more => cases hkey
      | _ => rfl

theorem extensionsOf_completeSchema (document : Document) :
    extensionsOf (Assembly.completeSchema document).definitions =
      extensionsOf document.definitions := by
  rw [definitions_completeSchema, extensionsOf, extensionsOf, List.filterMap_map]
  refine List.filterMap_congr fun d _ => ?_
  cases d <;> rfl

variable {s : Sources} {descriptors : List Descriptor} {generated : List (List Definition)}
  {merged : Document} {schema : Schema}
  (hdistinct : (s.working.types.map (·.name)).Nodup)
  (hroots : s.roots.eraseDups.mapM (Assembly.describeRoot s.working s.options.selector) =
    .ok descriptors)
  (hwritten : s.working.Written)
  (hns : s.options.ns.toList.all isNameContinue)
  (hgenerated : Assembly.fragments (Assembly.rootBasis s.working s.options descriptors)
    descriptors = .ok generated)
  (hmerged : Merge.mergeDocuments (mergedPolicies s) (mergedDocuments s generated) = .ok merged)
  (hschema : Schema.build (Assembly.completeSchema merged) = .ok schema)

include hroots hwritten hns hgenerated hmerged

/-- The extensions in an assembled document are those of the working document, in their order. -/
theorem extensionsOf_assembled :
    extensionsOf (Assembly.completeSchema merged).definitions =
      extensionsOf s.working.definitions := by
  have hgenerated : generated.flatten.filter (fun d => (Merge.key? d).isNone) = [] := by
    rw [List.filter_eq_nil_iff]
    intro d hd
    obtain ⟨t, rfl⟩ := eq_type_of_mem_flatten hroots hwritten hns hgenerated hd
    exact Bool.false_ne_true
  rw [extensionsOf_completeSchema, ← extensionsOf_unkeyed merged.definitions,
    merged_definitions hmerged, Merge.extensions_foldl_add, List.filter_append, List.filter_append,
    hgenerated, List.append_nil, ← extensionsOf_unkeyed s.working.definitions]
  rfl

include hdistinct hschema

/-- A root type that stands alone has its own fields in the schema, then the times that it lacks,
and then what extensions add, under names of their own. -/
theorem shape?_root {d : Descriptor} (hd : d ∈ descriptors) (hplain : d.typeName ∉ standardNames)
    (hstands : s.StandsAlone d.typeName) :
    ∃ own shapes interfaces, Assembly.objectFields? s.working d.typeName = some own ∧
      schema.shape? (.named d.typeName) = some (.object interfaces
        ((own ++ s.addedTimes own ++ addedFields s.working.definitions d.typeName).map
          (fieldOf shapes))) ∧
      ∀ f ∈ own ++ s.addedTimes own, ∀ g ∈ addedFields s.working.definitions d.typeName,
        f.name ≠ g.name := by
  obtain ⟨t, interfaces, own, hname, hown, hbody, hmem⟩ :=
    root_completeSchema hroots hwritten hns hgenerated hmerged hdistinct hd hstands
  have htypes := nodup_types (uniqueKeys_completeSchema (uniqueKeys_merged hmerged))
  have ht : (Assembly.completeSchema merged).typeNamed? d.typeName = some t :=
    (typeNamed?_eq_some htypes).mpr ⟨mem_types.mpr hmem, hname⟩
  have hextensions := extensionsOf_assembled hroots hwritten hns hgenerated hmerged
  obtain ⟨hreports, hbuilt, -⟩ := Schema.build_eq_ok hschema
  obtain ⟨shapes, allInterfaces, hshape⟩ :=
    Schema.shape?_of_typeNamed? hbuilt hplain ht hbody
  rw [addedFields, hextensions] at hshape
  refine ⟨own, shapes, allInterfaces, hown, hshape, fun f hf g hg => ?_⟩
  rw [addedFields, ← hextensions] at hg
  obtain ⟨more, hmore, hmoreName, hg⟩ := exists_extension_of_added hg
  refine Validation.name_ne_of_given hreports hmem hmore nofun (congrArg some hname)
    (congrArg some hmoreName) ?_ hg
  rwa [Definition.fields, hbody]

end Extensions

/-! ## Data fields of root types -/

section Covered

variable {s : Sources} {schema : Schema} {d : Descriptor} {mode : InputMode}
  {own : List FieldDef} {slots : List InputSlot} {shapes others : ShapeLookup}
  (hid : Descriptor.idNameOf own d.typeName s.options.selector = some d.idName)
  (hidentified : d.idName ∈ own.map (·.name))
  (hfields : schema.fieldsOf d.typeName =
    (own ++ s.addedTimes own ++ addedFields s.working.definitions d.typeName).map
      (fieldOf shapes))
  (hapart : ∀ f ∈ own ++ s.addedTimes own,
    ∀ g ∈ addedFields s.working.definitions d.typeName, f.name ≠ g.name)
  (hslots : slots = (((s.dataFields d.typeName own).filter fun f =>
    !s.working.isUnion f.type.baseName).map (s.inputField mode)).map (slotOf others))

theorem mem_names_of_timed (own : List FieldDef) (htimes : s.options.timestamps) {time : String}
    (htime : time ∈ timestampFields) : ∃ f ∈ own ++ s.addedTimes own, f.name = time := by
  rw [Sources.addedTimes, if_pos htimes]
  by_cases hlacks : own.all fun f => f.name != time
  · exact ⟨Fragment.plainField time [] (.nonNull (.named "Float")), List.mem_append_right _
      (List.mem_map_of_mem (List.mem_filter.mpr ⟨htime, hlacks⟩)), rfl⟩
  · simp only [List.all_eq_true, bne_iff_ne, ne_eq, not_forall, not_not] at hlacks
    obtain ⟨f, hf, hname⟩ := hlacks
    exact ⟨f, List.mem_append_left _ hf, hname⟩

include hid in
/-- A field of the definition holds data just if the input types have it. -/
theorem isData_own {f : FieldDef} (hf : f ∈ own) : s.IsData d (fieldOf shapes f) ↔
    f ∈ (s.dataFields d.typeName own).filter fun f => !s.working.isUnion f.type.baseName := by
  rw [List.mem_filter, Sources.mem_dataFields hid, Bool.not_eq_true', and_assoc]
  constructor
  · intro hdata
    exact ⟨hf, ⟨hdata.name, hdata.untimed⟩, hdata.single⟩
  · rintro ⟨-, ⟨hname, huntimed⟩, hsingle⟩
    exact ⟨hname, huntimed, hsingle⟩

theorem not_isData_time {f : FieldDef} (hf : f ∈ s.addedTimes own) :
    ¬ s.IsData d (fieldOf shapes f) := by
  intro hdata
  unfold Sources.addedTimes at hf
  split at hf
  · next htimes =>
      obtain ⟨time, htime, -, rfl⟩ := exists_time_of_mem_missingTimes hf
      exact hdata.untimed htimes htime
  · cases hf

include hidentified hapart in
/-- A field that an extension adds holds data unless it is of a union. -/
theorem isData_added {f : FieldDef} (hf : f ∈ addedFields s.working.definitions d.typeName) :
    s.IsData d (fieldOf shapes f) ↔ s.working.isUnion f.type.baseName = false := by
  refine ⟨fun hdata => hdata.single, fun hsingle => ⟨?_, fun htimes hmem => ?_, hsingle⟩⟩
  · obtain ⟨g, hg, hname⟩ := List.mem_map.mp hidentified
    exact fun hsame => hapart g (List.mem_append_left _ hg) f hf (hname.trans hsame.symm)
  · obtain ⟨g, hg, hname⟩ := mem_names_of_timed own htimes hmem
    exact hapart g hg f hf hname

include hid hfields hslots

/-- Every slot takes what a data field holds. -/
theorem exists_fed {slot : InputSlot} (hslot : slot ∈ slots) :
    ∃ field ∈ schema.fieldsOf d.typeName, s.IsData d field ∧ s.Feeds mode slot field := by
  rw [hslots] at hslot
  obtain ⟨i, hi, rfl⟩ := List.mem_map.mp hslot
  obtain ⟨f, hf, rfl⟩ := List.mem_map.mp hi
  have hown := ((Sources.mem_dataFields hid).mp (List.mem_filter.mp hf).1).1
  refine ⟨fieldOf shapes f, ?_, (isData_own hid hown).mpr hf, rfl, rfl⟩
  rw [hfields]
  exact List.mem_map_of_mem (List.mem_append_left _ (List.mem_append_left _ hown))

include hapart

/-- A data field has a slot just if no extension adds it. -/
theorem has_slot_iff {field : OutputField} (hfield : field ∈ schema.fieldsOf d.typeName)
    (hdata : s.IsData d field) : (∃ slot ∈ slots, slot.name = field.name) ↔
      field.name ∉ (addedFields s.working.definitions d.typeName).map (·.name) := by
  constructor
  · rintro ⟨slot, hslot, hname⟩ hadded
    obtain ⟨g, hg, hsame⟩ := List.mem_map.mp hadded
    rw [hslots] at hslot
    obtain ⟨i, hi, rfl⟩ := List.mem_map.mp hslot
    obtain ⟨f, hf, rfl⟩ := List.mem_map.mp hi
    have hown := ((Sources.mem_dataFields hid).mp (List.mem_filter.mp hf).1).1
    exact hapart f (List.mem_append_left _ hown) g hg (hname.trans hsame.symm)
  · intro hkept
    rw [hfields] at hfield
    obtain ⟨f, hf, rfl⟩ := List.mem_map.mp hfield
    rcases List.mem_append.mp hf with hf | hadded
    · rcases List.mem_append.mp hf with hown | htime
      · refine ⟨slotOf others (s.inputField mode f), ?_, rfl⟩
        rw [hslots]
        exact List.mem_map_of_mem (List.mem_map_of_mem ((isData_own hid hown).mp hdata))
      · exact absurd hdata (not_isData_time htime)
    · exact absurd (List.mem_map_of_mem hadded) hkept

include hidentified

/-- The slots are for just the data fields if all that extensions add is of unions, and only
then. -/
theorem coversData_iff : s.CoversData schema d slots ↔
    ∀ f ∈ addedFields s.working.definitions d.typeName, s.working.isUnion f.type.baseName := by
  constructor
  · intro hcovers f hf
    by_contra hsingle
    have hfield : fieldOf shapes f ∈ schema.fieldsOf d.typeName := by
      rw [hfields]
      exact List.mem_map_of_mem (List.mem_append_right _ hf)
    have hdata : s.IsData d (fieldOf shapes f) :=
      (isData_added hidentified hapart hf).mpr (by simpa using hsingle)
    have hslot := (hcovers f.name).mpr ⟨_, hfield, hdata, rfl⟩
    exact (has_slot_iff hid hfields hapart hslots hfield hdata).mp hslot (List.mem_map_of_mem hf)
  · intro hunions name
    constructor
    · rintro ⟨slot, hslot, rfl⟩
      obtain ⟨field, hfield, hdata, hfeeds⟩ := exists_fed hid hfields hslots hslot
      exact ⟨field, hfield, hdata, hfeeds.name.symm⟩
    · rintro ⟨field, hfield, hdata, rfl⟩
      refine (has_slot_iff hid hfields hapart hslots hfield hdata).mpr fun hadded => ?_
      obtain ⟨g, hg, hsame⟩ := List.mem_map.mp hadded
      rw [hfields] at hfield
      obtain ⟨f, hf, rfl⟩ := List.mem_map.mp hfield
      rcases List.mem_append.mp hf with hf | hf
      · exact hapart f hf g hg hsame.symm
      · exact Bool.false_ne_true (hdata.single.symm.trans (hunions f hf))

end Covered

/-- The slots of a root type's input type are for data fields of its definition. So a data field
that can be selected has a slot just if no extension adds it, and the slots are for all data fields
just if extensions add fields of unions only. -/
theorem has_slot_unless_added {sources : List Source} {s : Sources} {assembled : Assembled}
    {schema : Schema} (hgiven : ∀ d, .document d ∈ sources → d.Written)
    (hload : Assembly.workingDocument s.options.reading sources = .ok s.working)
    (hdistinct : (s.working.types.map (·.name)).Nodup)
    (hbuilt : Assembly.assemble sources s.roots s.options = .ok assembled)
    (hschema : Schema.build assembled.document = .ok schema) {d : Descriptor}
    (hd : d ∈ assembled.descriptors) (hplain : d.typeName ∉ standardNames)
    (hstands : s.StandsAlone d.typeName) {mode : InputMode}
    (hdeclared : mode.inputName d.typeName ∉ declaredNames s.working)
    (hrole : ¬ (RootNames.ofDocument s.working).Includes (mode.inputName d.typeName))
    (hemitted : s.Emitted ⟨d.typeName, mode⟩) :
    ∃ own slots, Assembly.objectFields? s.working d.typeName = some own ∧
      schema.shape? (.named (mode.inputName d.typeName)) = some (.input slots) ∧
      (schema.fieldsOf d.typeName).map (·.name) =
        (own ++ s.addedTimes own ++ addedFields s.working.definitions d.typeName).map (·.name) ∧
      (∀ slot ∈ slots, ∃ field ∈ schema.fieldsOf d.typeName,
        s.IsData d field ∧ s.Feeds mode slot field) ∧
      (∀ field ∈ schema.fieldsOf d.typeName, s.IsData d field →
        ((∃ slot ∈ slots, slot.name = field.name) ↔
          field.name ∉ (addedFields s.working.definitions d.typeName).map (·.name))) ∧
      (s.CoversData schema d slots ↔
        ∀ f ∈ addedFields s.working.definitions d.typeName,
          s.working.isUnion f.type.baseName) := by
  have hwritten := workingDocument_written hgiven hload
  obtain ⟨hroots, hns, generated, merged, hgenerated, hmerged, hdocument⟩ :=
    assembleFrom_eq_ok (assembleFrom_of_assemble hload hbuilt)
  rw [hdocument] at hschema
  obtain ⟨own, shapes, interfaces, hown, hroot, hapart⟩ := shape?_root hdistinct hroots hwritten hns
    hgenerated hmerged hschema hd hplain hstands
  obtain ⟨fields, others, hfields, -, hslots, -⟩ := shape?_input hdistinct hroots hwritten hns
    hgenerated hmerged hschema (p := ⟨d.typeName, mode⟩) hdeclared hrole hemitted
  obtain rfl : s.dataFields d.typeName own = fields :=
    Option.some.inj ((fields?_of_objectFields? hdistinct hroots hd hown).symm.trans hfields)
  obtain ⟨-, described, idField, hdescribed, hid, hmem, hname, -⟩ :=
    describeRoot_eq_ok (describeRoot_of_mem hroots hd)
  obtain rfl : own = described := Option.some.inj (hown.symm.trans hdescribed)
  have hidentified : d.idName ∈ own.map (·.name) := List.mem_map.mpr ⟨idField, hmem, hname⟩
  have hselected : schema.fieldsOf d.typeName =
      (own ++ s.addedTimes own ++ addedFields s.working.definitions d.typeName).map
        (fieldOf shapes) := by
    rw [Schema.fieldsOf, hroot]
    rfl
  refine ⟨own, _, hown, hslots, ?_, fun slot hslot => exists_fed hid hselected rfl hslot,
    fun field hfield hdata => has_slot_iff hid hselected hapart rfl hfield hdata,
    coversData_iff hid hidentified hselected hapart rfl⟩
  rw [hselected, List.map_map]
  rfl

/-! ## Widgets that are extended by a size -/

/-- Widgets, and a size that an extension adds to them. -/
def measuredWidgets : Sources where
  working := Document.ofDefinitions
    [ .type (Fragment.objectType "Widget"
        [ Fragment.plainField "id" [] (.nonNull (.named "ID")),
          Fragment.plainField "name" [] (.named "String") ]),
      .typeExtension (Fragment.objectType "Widget" [Fragment.plainField "size" [] (.named "Int")]) ]
  options := {}
  roots := ["Widget"]

theorem measuredWidgets_written :
    ∀ d, .document d ∈ [Source.document measuredWidgets.working] → d.Written :=
  Source.written_singleton (by decide)

theorem load_measuredWidgets :
    Assembly.workingDocument measuredWidgets.options.reading
      [.document measuredWidgets.working] = .ok measuredWidgets.working := rfl

/-- The document of the widgets. -/
def measuredDocument : Document :=
  Assembly.completeSchema (Document.ofDefinitions (Merge.mergeDefinitions
    (mergedPolicies measuredWidgets)
    ((mergedDocuments measuredWidgets [Fragment.ofPairs
      (Assembly.rootBasis measuredWidgets.working measuredWidgets.options
        [flatDescriptor "Widget" "name"])
      (flatDescriptor "Widget" "name")
      [⟨"Widget", .create⟩, ⟨"Widget", .update⟩]]).map (·.definitions))))

theorem assemble_measuredWidgets :
    Assembly.assemble [.document measuredWidgets.working] measuredWidgets.roots
      measuredWidgets.options = .ok ⟨measuredDocument, [flatDescriptor "Widget" "name"]⟩ :=
  (assemble_singleton _ load_measuredWidgets rfl (by decide) (by decide) (by decide) rfl
    (by decide) rfl (by decide)).2

/-- The size of the widgets can be selected, and the input type for their creation has a slot for
their name only. -/
theorem exists_measuredSchema : ∃ schema slots, Schema.build measuredDocument = .ok schema ∧
    (∃ field ∈ schema.fieldsOf "Widget", field.name = "size" ∧ field.type = .named "Int") ∧
    schema.shape? (.named "WidgetInput") = some (.input slots) ∧
    slots.map (·.name) = ["name"] := by
  obtain ⟨schema, hschema, hshown⟩ := exists_ok_of_any
    (x := Schema.build measuredDocument) (p := fun schema =>
      (schema.fieldsOf "Widget").any (fun f => f.name == "size" && f.type == .named "Int") &&
      (schema.shape? (.named "WidgetInput")).any fun shape =>
        shape.isInputObject && shape.slots.map (·.name) == ["name"]) (by decide +kernel)
  rw [Bool.and_eq_true] at hshown
  obtain ⟨hsize, hinput⟩ := hshown
  obtain ⟨field, hfield, hsize⟩ := List.any_eq_true.mp hsize
  rw [Bool.and_eq_true, beq_iff_eq, beq_iff_eq] at hsize
  obtain ⟨shape, hshape, hslots⟩ := (Option.any_eq_true _ _).mp hinput
  rw [Bool.and_eq_true, beq_iff_eq] at hslots
  cases shape with
  | input slots => exact ⟨schema, slots, hschema, ⟨field, hfield, hsize⟩, hshape, hslots.2⟩
  | _ => cases hslots.1

/-- The slots for the creation of widgets do not cover their data, for the size is added. -/
theorem has_slot_unless_added_widgets :
    (∀ d, .document d ∈ [Source.document measuredWidgets.working] → d.Written) ∧
    Assembly.workingDocument measuredWidgets.options.reading
      [.document measuredWidgets.working] = .ok measuredWidgets.working ∧
    (measuredWidgets.working.types.map (·.name)).Nodup ∧
    "Widget" ∉ standardNames ∧ measuredWidgets.StandsAlone "Widget" ∧
    "WidgetInput" ∉ declaredNames measuredWidgets.working ∧
    ¬ (RootNames.ofDocument measuredWidgets.working).Includes "WidgetInput" ∧
    measuredWidgets.Emitted ⟨"Widget", .create⟩ ∧
    ∃ assembled schema own slots,
      Assembly.assemble [.document measuredWidgets.working] measuredWidgets.roots
        measuredWidgets.options = .ok assembled ∧
      Schema.build assembled.document = .ok schema ∧
      flatDescriptor "Widget" "name" ∈ assembled.descriptors ∧
      Assembly.objectFields? measuredWidgets.working "Widget" = some own ∧
      (schema.fieldsOf "Widget").map (·.name) = own.map (·.name) ++ ["size"] ∧
      schema.shape? (.named "WidgetInput") = some (.input slots) ∧
      ¬ measuredWidgets.CoversData schema (flatDescriptor "Widget" "name") slots := by
  have hstands : measuredWidgets.StandsAlone "Widget" := ⟨by decide, by decide, by decide⟩
  have hemitted : measuredWidgets.Emitted ⟨"Widget", .create⟩ :=
    .inl (.inr (.start ⟨by decide, fun _ => False.elim⟩))
  obtain ⟨schema, -, hschema, -⟩ := exists_measuredSchema
  have hdeclared : InputMode.create.inputName "Widget" ∉ declaredNames measuredWidgets.working := by
    decide
  obtain ⟨own, slots, hown, hslots, hnames, -, -, hcovers⟩ := has_slot_unless_added
    measuredWidgets_written load_measuredWidgets (by decide) assemble_measuredWidgets hschema
    (List.mem_singleton_self _) (by decide) hstands hdeclared (by decide) hemitted
  refine ⟨measuredWidgets_written, load_measuredWidgets, by decide, by decide, hstands, hdeclared,
    by decide, hemitted, _, schema, own, slots, assemble_measuredWidgets, hschema,
    List.mem_singleton_self _, hown, ?_, hslots, ?_⟩
  · have htimes : measuredWidgets.addedTimes own = [] := rfl
    rw [htimes, List.append_nil, List.map_append] at hnames
    exact hnames
  · rw [hcovers]
    decide

/-- The size of widgets is a data field that can be selected, and has no slot. -/
theorem measured_size_has_no_slot : ∃ assembled schema slots,
    Assembly.assemble [.document measuredWidgets.working] measuredWidgets.roots
      measuredWidgets.options = .ok assembled ∧
    flatDescriptor "Widget" "name" ∈ assembled.descriptors ∧
    Schema.build assembled.document = .ok schema ∧
    "WidgetInput" ∉ declaredNames measuredWidgets.working ∧
    schema.shape? (.named "WidgetInput") = some (.input slots) ∧
    ∃ field ∈ schema.fieldsOf "Widget",
      measuredWidgets.IsData (flatDescriptor "Widget" "name") field ∧
      ∀ slot ∈ slots, slot.name ≠ field.name := by
  obtain ⟨schema, slots, hschema, ⟨field, hfield, hname, htype⟩, hslots, hnames⟩ :=
    exists_measuredSchema
  refine ⟨_, schema, slots, assemble_measuredWidgets, List.mem_singleton_self _, hschema, by decide,
    hslots, field, hfield, ⟨?_, nofun, ?_⟩, fun slot hslot hsame => ?_⟩
  · rw [hname]
    decide
  · rw [htype]
    decide
  · have hmem : slot.name ∈ slots.map (·.name) := List.mem_map_of_mem hslot
    rw [hnames, hsame, hname] at hmem
    exact absurd hmem (by decide)

end RecordApi
