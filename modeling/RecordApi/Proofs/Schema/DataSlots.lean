import RecordApi.Proofs.Derivation.DataArguments
import RecordApi.Proofs.Derivation.ServingTypes
import RecordApi.Proofs.Schema.Inputs

/-!
# Data slots of a schema

The input types of a root type come into the schema as they are derived: nothing extends them, and
each has one slot for every scalar or enumeration among the data fields, but for the times that are
kept. On creation a slot asks for just what the field declares; on update it may always be null.
-/

namespace RecordApi

open RecordApi.Language SchemaBuild

/-- Whether a data field is one of a scalar or an enumeration. -/
def DataField.IsLeaf (f : DataField) : Prop :=
  ∀ target, f.type.base ≠ .object target

/-- Whether a field must be given data of an input type. -/
def OutputField.TakesData (field : OutputField) (inputName : String) : Prop :=
  ∃ slot ∈ field.arguments, slot.name = "data" ∧ slot.default = none ∧
    slot.type = .nonNull (.named inputName)

/-- Whether an input type of a schema is that of a root type in a mode. -/
structure Sources.HasSlots (s : Sources) (schema : Schema) (d : Descriptor) (mode : InputMode)
    (slots : List InputSlot) : Prop where
  written : (TypeExpr.named (mode.inputName d.typeName)).isWritten
  shape : schema.shape? (.named (mode.inputName d.typeName)) = some (.input slots)
  default : ∀ slot ∈ slots, slot.default = none
  input : ∀ slot ∈ slots, slot.type.isWritten ∧ schema.isOf TypeShape.isInput slot.type
  untimed : s.options.timestamps → ∀ slot ∈ slots, slot.name ∉ timestampFields
  leaf : ∀ f ∈ d.fields, f.IsLeaf → (s.options.timestamps → f.name ∉ timestampFields) →
    ∃ slot ∈ slots, slot.name = f.name ∧ slot.type = mode.fieldExpr f.type.toExpr ∧
      ∀ other ∈ slots, other.name = f.name → other = slot

theorem inputName_not_standard (mode : InputMode) (typeName : String) :
    mode.inputName typeName ∉ standardNames := by
  have hends : ∀ name ∈ standardNames, ¬ "Input".toList <:+ name.toList := by decide
  exact fun hname => inputName_ne (hends _ hname) mode typeName rfl

section Slots

variable {s : Sources} {descriptors : List Descriptor} {generated : List (List Definition)}
  {merged : Document} {schema : Schema}
  (hdistinct : (s.working.types.map (·.name)).Nodup)
  (hroots : s.roots.eraseDups.mapM (Assembly.describeRoot s.working s.options.selector) =
    .ok descriptors)
  (hwritten : s.working.Written)
  (hns : s.options.ns.toList.all isNameContinue)
  (hgenerated : Assembly.fragments (Assembly.rootBasis s.working s.options descriptors)
    descriptors = .ok generated)
  (hmerged : Merge.mergeDocuments (mergedPolicies s) (mergedDocuments s generated) = .ok merged)
  (hschema : Schema.build (Assembly.completeSchema merged) = .ok schema)

include hdistinct in
/-- The type of a scalar or of an enumeration among the data fields is no type that data is nested
in. -/
theorem plain_of_isLeaf {f : FieldDef}
    (hleaf : (Descriptor.dataField (KindTable.ofDocument s.working) f).IsLeaf) :
    ¬ (s.working.composite? f.type.baseName).isSome ∧ ¬ s.working.isUnion f.type.baseName :=
  not_or.mp fun hkind => hleaf _ ((base_dataField_eq_object hdistinct).mpr ⟨rfl, hkind⟩)

/-- The input field of such a field has the type of the field, as the mode asks for it. -/
theorem type_inputField {f : FieldDef} {mode : InputMode}
    (hcomposite : ¬ (s.working.composite? f.type.baseName).isSome) :
    (s.inputField mode f).type =
      mode.fieldExpr (Descriptor.dataField (KindTable.ofDocument s.working) f).type.toExpr := by
  have hbase : f.type.withBase (s.inputBase mode) = f.type :=
    TypeExpr.withBase_self (by simp [Sources.inputBase, hcomposite])
  rw [Sources.inputField, hbase, Descriptor.dataField, TypeRef.toExpr_ofExpr]

include hdistinct hroots hwritten hns in
/-- The input type of a root type has names and types, and nothing beside them: what a derivation
writes can be read back. -/
theorem bare_inputType {d : Descriptor} {mode : InputMode} {fields : List FieldDef}
    (hfields : s.fields? d.typeName = some fields) :
    (s.inputType ⟨d.typeName, mode⟩ fields).Bare := by
  have hnested : ((Assembly.rootBasis s.working s.options descriptors).nestedFields?
      d.typeName).isSome := by
    rw [nestedFields?_rootBasis hdistinct hroots, Option.isSome_map, hfields]
    rfl
  rw [← inputOf_rootBasis hdistinct hroots hfields]
  exact bare_inputOf (plain_rootBasis hroots hwritten hns) hnested

include hroots hwritten hns hgenerated hmerged

/-- Extensions of types in an assembled document are those of the working document. -/
theorem declared_of_extension {more : TypeDef}
    (hmore : .typeExtension more ∈ (Assembly.completeSchema merged).definitions) :
    more.name ∈ declaredNames s.working := by
  let good (definition : Definition) : Prop :=
    ∀ more, definition = .typeExtension more → more.name ∈ declaredNames s.working
  have hall : ∀ definition ∈ merged.definitions, good definition := by
    rw [merged_definitions hmerged]
    apply Merge.forall_foldl_add
    · intro policy key earlier later _ _ _ hlater
      cases policy with
      | override => exact hlater
      | fieldUnion => exact fun _ h => by cases h
    · intro definition hdefinition more hmore
      rcases List.mem_append.mp hdefinition with hworking | hfragment
      · exact List.mem_filterMap.mpr ⟨definition, hworking, by rw [hmore]; rfl⟩
      · obtain ⟨t, rfl⟩ := eq_type_of_mem_flatten hroots hwritten hns hgenerated hfragment
        cases hmore
    · intro definition hdefinition more hmore
      obtain ⟨rest, hkey⟩ := key?_of_mem_primitives hdefinition
      rw [hmore] at hkey
      cases hkey
  rw [definitions_completeSchema] at hmore
  obtain ⟨definition, hdefinition, hcompleted⟩ := List.mem_map.mp hmore
  cases definition with
  | typeExtension own =>
      obtain rfl := Definition.typeExtension.inj hcompleted
      exact hall _ hdefinition own rfl
  | _ => cases hcompleted

include hschema

/-- An input type of a root type that stands for inputs in the schema serves no operations. -/
theorem not_includes_of_isInput {d : Descriptor} (hd : d ∈ descriptors) {mode : InputMode}
    (hinput : schema.isOf TypeShape.isInput (.named (mode.inputName d.typeName))) :
    ¬ (RootNames.ofDocument s.working).Includes (mode.inputName d.typeName) := by
  intro hrole
  have hne : s.roots ≠ [] := List.ne_nil_of_mem ((mem_roots hroots).mpr ⟨d, hd, rfl⟩)
  have hkey := inputName_ne_schemaKey mode d.typeName
  obtain ⟨t, interfaces, fields, ht, hbody, -⟩ :=
    typeNamed?_role hroots hwritten hns hgenerated hmerged hkey hrole hne
  rw [← typeNamed?_completeSchema] at ht
  obtain ⟨-, hbuilt, -⟩ := Schema.build_eq_ok hschema
  have hobject :=
    (Schema.fields_of_typeNamed? hbuilt (inputName_not_standard mode d.typeName) ht hbody).1
  obtain ⟨shape, hshape, hsort⟩ := (Option.any_eq_true _ _).mp hinput
  obtain ⟨other, hother, hsorted⟩ := (Option.any_eq_true _ _).mp hobject
  obtain rfl := Option.some.inj (hshape.symm.trans hother)
  cases shape with
  | object _ _ => cases hsort
  | _ => cases hsorted

include hdistinct

/-- An emitted input type comes into the schema with a slot for each of its fields. -/
theorem shape?_input {p : InputPair} (hdeclared : p.inputName ∉ declaredNames s.working)
    (hrole : ¬ (RootNames.ofDocument s.working).Includes p.inputName) (hp : s.Emitted p) :
    ∃ fields shapes, s.fields? p.typeName = some fields ∧
      (Assembly.completeSchema merged).typeNamed? p.inputName = some (s.inputType p fields) ∧
      schema.shape? (.named p.inputName) = some (.input
        (((fields.filter fun f => !s.working.isUnion f.type.baseName).map
          (s.inputField p.mode)).map (slotOf shapes))) ∧
      ∀ f ∈ fields, s.working.isUnion f.type.baseName = false →
        schema.isOf TypeShape.isInput (s.inputField p.mode f).type := by
  obtain ⟨fields, hfields, ht⟩ := typeNamed?_input hdistinct hroots hwritten hns hgenerated hmerged
    hdeclared hrole hp rfl
  rw [← typeNamed?_completeSchema] at ht
  obtain ⟨-, hbuilt, -⟩ := Schema.build_eq_ok hschema
  obtain ⟨shapes, hshape, hinputs⟩ := Schema.shape?_of_input hbuilt
    (inputName_not_standard p.mode p.typeName) ht rfl fun more hmore hsame => by
      have hextended := declared_of_extension hroots hwritten hns hgenerated hmerged hmore
      rw [hsame] at hextended
      exact hdeclared hextended
  refine ⟨fields, shapes, hfields, ht, hshape, fun f hf hunion => ?_⟩
  exact hinputs _ (List.mem_map_of_mem (List.mem_filter.mpr ⟨hf, by rw [hunion]; rfl⟩))

/-- The input type of a root type in the schema is the one that is emitted for its own pair. -/
theorem exists_slots {d : Descriptor} (hd : d ∈ descriptors) {mode : InputMode}
    (hdeclared : mode.inputName d.typeName ∉ declaredNames s.working)
    (hown : s.Emitted ⟨d.typeName, mode⟩)
    (hinput : schema.isOf TypeShape.isInput (.named (mode.inputName d.typeName))) :
    ∃ slots, s.HasSlots schema d mode slots := by
  have hrole := not_includes_of_isInput hroots hwritten hns hgenerated hmerged hschema hd hinput
  obtain ⟨fields, shapes, hfields, ht, hshape, hinputs⟩ :=
    shape?_input hdistinct hroots hwritten hns hgenerated hmerged hschema (p := ⟨d.typeName, mode⟩)
      hdeclared hrole hown
  have hbare : (s.inputType ⟨d.typeName, mode⟩ fields).Bare :=
    bare_inputType hdistinct hroots hwritten hns hfields
  obtain ⟨_, hbody, -⟩ | ⟨inputs, hbody, hbareInputs⟩ := hbare.body
  · cases hbody
  obtain rfl := TypeBody.input.inj hbody
  obtain ⟨-, own, idField, hobject, hid, -, -, -, hfieldsOf⟩ :=
    describeRoot_eq_ok (describeRoot_of_mem hroots hd)
  obtain rfl : s.dataFields d.typeName own = fields :=
    Option.some.inj ((fields?_of_objectFields? hdistinct hroots hd hobject).symm.trans hfields)
  refine ⟨_, hbare.name, hshape, ?default, ?input, ?untimed, ?leaf⟩
  case default =>
    intro slot hslot
    obtain ⟨i, hi, rfl⟩ := List.mem_map.mp hslot
    rw [slotOf, (hbareInputs i hi).default]
    rfl
  case input =>
    intro slot hslot
    obtain ⟨i, hi, rfl⟩ := List.mem_map.mp hslot
    refine ⟨(hbareInputs i hi).type, ?_⟩
    obtain ⟨f, hf, rfl⟩ := List.mem_map.mp hi
    obtain ⟨hf, hunion⟩ := List.mem_filter.mp hf
    exact hinputs f hf (by simpa using hunion)
  case untimed =>
    intro htimes slot hslot
    obtain ⟨i, hi, rfl⟩ := List.mem_map.mp hslot
    obtain ⟨f, hf, rfl⟩ := List.mem_map.mp hi
    exact ((Sources.mem_dataFields hid).mp (List.mem_filter.mp hf).1).2.2 htimes
  case leaf =>
    intro f hf hleaf huntimed
    rw [hfieldsOf] at hf
    obtain ⟨x, hx, rfl⟩ := List.mem_map.mp hf
    obtain ⟨hx, hother⟩ := List.mem_filter.mp hx
    obtain ⟨hcomposite, hunion⟩ := plain_of_isLeaf hdistinct hleaf
    have hmem : x ∈ s.dataFields d.typeName own :=
      (Sources.mem_dataFields hid).mpr ⟨hx, bne_iff_ne.mp hother, huntimed⟩
    have hslot : s.inputField mode x ∈
        ((s.dataFields d.typeName own).filter fun f => !s.working.isUnion f.type.baseName).map
          (s.inputField mode) :=
      List.mem_map_of_mem (List.mem_filter.mpr ⟨hmem, by simpa using hunion⟩)
    refine ⟨_, List.mem_map_of_mem hslot, rfl, type_inputField hcomposite, ?_⟩
    intro other hmem hname
    obtain ⟨i, hi, rfl⟩ := List.mem_map.mp hmem
    rw [Schema.eq_of_inputs hschema ht rfl hi hslot hname]

/-- A mutation that nothing is merged over must be given data of the input type of its mode. -/
theorem takesData_of_kept {d : Descriptor} (hd : d ∈ descriptors) {name : String}
    {mode : InputMode} (hmutation : (name, mode) ∈ dataMutations)
    (hkept : s.KeepsMutation d.typeName name) {field : OutputField}
    (hfield : schema.field? (d.typeName ++ "Mutation") name = some field) :
    field.TakesData (mode.inputName d.typeName) := by
  obtain ⟨f, hf, rfl, a, ha, hdata, hdefault, htype⟩ := dataField_mutationType d hmutation
  obtain ⟨t, interfaces, fields, ht, hbody, hoffered⟩ :=
    mutation_offers hdistinct hroots hwritten hns hgenerated hmerged hd hf hkept
  rw [← typeNamed?_completeSchema] at ht
  have hgiven : (Assembly.completeSchema merged).Defines (d.typeName ++ "Mutation") f := by
    refine ⟨_, mem_types.mp (List.mem_of_find?_eq_some ht), ?_, ?_⟩
    · have hname := List.find?_some ht
      exact congrArg some (beq_iff_eq.mp hname)
    · rw [Definition.fields, hbody]
      exact hoffered
  have hplain : f.name ≠ "__typename" := by
    have hnames : ∀ mutation ∈ dataMutations, mutation.1 ≠ "__typename" := by decide
    exact hnames _ hmutation
  rw [Schema.field?, if_neg hplain] at hfield
  obtain ⟨-, hbuilt, -⟩ := Schema.build_eq_ok hschema
  obtain ⟨shapes, hall⟩ := Schema.exists_given hbuilt
  obtain ⟨-, g, hg, rfl⟩ := hall _ _ (List.mem_of_find?_eq_some hfield)
  have hname := List.find?_some hfield
  obtain rfl := Schema.eq_of_defines hschema hgiven hg (beq_iff_eq.mp hname).symm
  refine ⟨slotOf shapes a, List.mem_map_of_mem ha, hdata, ?_, htype⟩
  rw [slotOf, hdefault]
  rfl

end Slots

end RecordApi
