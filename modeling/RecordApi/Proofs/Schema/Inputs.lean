import RecordApi.Proofs.Outcomes
import RecordApi.Proofs.Schema.Fields

/-!
# Inputs of a schema

What a schema is built from has been checked: whatever a field or an input type takes is of a type
that values can be given for, and no field takes two arguments of one name. An input type without
extensions has just its own fields.
-/

namespace RecordApi

open RecordApi.Language

theorem InputDef.toField_injective : Function.Injective InputDef.toField := by
  rintro ⟨_, _, _, _, _⟩ ⟨_, _, _, _, _⟩ h
  simp only [InputDef.toField, FieldDef.mk.injEq] at h
  obtain ⟨rfl, rfl, -, rfl, rfl, rfl, -⟩ := h
  rfl

namespace SchemaBuild

theorem isInput_shapeOf (shapes others : ShapeLookup) (d : TypeDef) :
    (shapeOf shapes d).isInput = (shapeOf others d).isInput := by
  unfold shapeOf
  cases d.body <;> rfl

/-- Extensions of other types add nothing. -/
theorem foldl_extendType_of_ne {extensions : List TypeDef} {d : TypeDef}
    (h : ∀ more ∈ extensions, more.name ≠ d.name) : extensions.foldl extendType d = d := by
  induction extensions with
  | nil => rfl
  | cons more rest ih =>
      obtain ⟨hmore, hrest⟩ := List.forall_mem_cons.mp h
      rw [List.foldl_cons, extendType, if_neg hmore]
      exact ih hrest

section Checks

variable {types : List TypeDef}

theorem isInput_of_checkArgument {d : InputDef} (h : checkArgument types d = .ok ()) :
    isOf types TypeShape.isInput d.type.baseName := by
  unfold checkArgument at h
  split at h
  · next hinput => exact hinput
  · split at h <;> cases h

theorem isInput_of_checkSlot {d : InputDef} (h : checkSlot types d = .ok ()) :
    isOf types TypeShape.isInput d.type.baseName := by
  unfold checkSlot at h
  split at h
  · cases h
  · exact isInput_of_checkArgument h

theorem checkFields_eq_ok {typeName : String} {outcome : Except BuildFault Unit} :
    checkFields typeName outcome = .ok () ↔ outcome = .ok () := by
  unfold checkFields
  split <;> simp_all

/-- The fields that can be selected on a type that has been checked take inputs. -/
theorem isInput_of_field {d : TypeDef} (h : checkType types d = .ok ()) {shapes : ShapeLookup}
    {g : OutputField} (hg : g ∈ (shapeOf shapes d).fields) {slot : InputSlot}
    (hslot : slot ∈ g.arguments) :
    slot.type.baseName ∈ mentions d ∧ isOf types TypeShape.isInput slot.type.baseName := by
  have hfield (fields : List FieldDef) (hfields : fields.forM (checkField types) = .ok ())
      (hg : g ∈ fields.map (fieldOf shapes)) :
      slot.type.baseName ∈ fields.flatMap (fun f =>
          f.type.baseName :: f.arguments.map (·.type.baseName)) ∧
        isOf types TypeShape.isInput slot.type.baseName := by
    obtain ⟨f, hf, rfl⟩ := List.mem_map.mp hg
    obtain ⟨a, ha, rfl⟩ := List.mem_map.mp hslot
    obtain ⟨_, harguments, -⟩ := bind_eq_ok.mp (forM_eq_ok.mp hfields f hf)
    refine ⟨List.mem_flatMap.mpr ⟨f, hf, List.mem_cons_of_mem _ ?_⟩, ?_⟩
    · exact List.mem_map_of_mem (f := fun a : InputDef => a.type.baseName) ha
    · exact isInput_of_checkArgument (forM_eq_ok.mp harguments a ha)
  obtain ⟨_, _, _, body⟩ := d
  cases body with
  | object interfaces fields | interface interfaces fields =>
      simp only [checkType] at h
      split at h
      · cases h
      · obtain ⟨hmention, hinput⟩ := hfield fields (checkFields_eq_ok.mp h) hg
        exact ⟨List.mem_append_right _ hmention, hinput⟩
  | _ => cases hg

/-- The fields of an input type that has been checked are inputs. -/
theorem isInput_of_slot {d : TypeDef} (h : checkType types d = .ok ()) {fields : List InputDef}
    (hbody : d.body = .input fields) {f : InputDef} (hf : f ∈ fields) :
    f.type.baseName ∈ mentions d ∧ isOf types TypeShape.isInput f.type.baseName := by
  rw [checkType, hbody] at h
  rw [mentions, hbody]
  exact ⟨List.mem_map_of_mem (f := fun f : InputDef => f.type.baseName) hf,
    isInput_of_checkSlot (forM_eq_ok.mp (checkFields_eq_ok.mp h) f hf)⟩

end Checks

end SchemaBuild

open SchemaBuild

namespace Schema

variable {definitions : List Definition} {document : Document} {schema : Schema}

theorem checkType_of_mem (h : Schema.ofDefinitions definitions = .ok schema) {d : TypeDef}
    (hd : d ∈ extendedTypes definitions) : checkType (extendedTypes definitions) d = .ok () := by
  obtain ⟨_, -, h⟩ := bind_eq_ok.mp h
  obtain ⟨_, hchecked, -⟩ := bind_eq_ok.mp h
  exact forM_eq_ok.mp hchecked d hd

/-- A type that is mentioned stands for inputs in the schema if its definition shows it. -/
theorem isInput_of_mention (h : Schema.ofDefinitions definitions = .ok schema) {d : TypeDef}
    (hd : d ∈ extendedTypes definitions) {name : String} (hname : name ∈ mentions d)
    (hinput : SchemaBuild.isOf (extendedTypes definitions) TypeShape.isInput name) :
    schema.isOf TypeShape.isInput (.named name) := by
  obtain ⟨shapes, directives, roots, htypes⟩ := types_eq h
  rw [isOf, shape?, type?, TypeExpr.baseName, htypes, List.append_assoc]
  unfold SchemaBuild.isOf at hinput
  split at hinput
  · next standard hstandard =>
      have hstands := List.mem_append.mp (List.mem_of_find?_eq_some hstandard)
      obtain rfl : standard.name = name := by simpa using List.find?_some hstandard
      have hnone : (extendedTypes definitions).find? (·.name == standard.name) = none := by
        rw [List.find?_eq_none]
        intro t ht hsame
        refine not_standard_of_mem_extendedTypes ht ?_
        rw [beq_iff_eq.mp hsame]
        exact List.mem_map_of_mem (List.mem_append.mpr hstands)
      have hmem : standard ∈
          usedBuiltins definitions (extendedTypes definitions) directives roots ++
            introspectionTypes := by
        refine List.mem_append.mpr (hstands.imp_left fun hbuiltin => List.mem_filter.mpr
          ⟨hbuiltin, List.contains_iff_mem.mpr ?_⟩)
        simp only [List.mem_append]
        exact .inl (.inr (List.mem_flatMap.mpr ⟨d, hd, hname⟩))
      have hnodup : ((usedBuiltins definitions (extendedTypes definitions) directives roots ++
          introspectionTypes).map (·.name)).Nodup := by
        have hall : ((builtinTypes ++ introspectionTypes).map (·.name)).Nodup := by decide
        exact hall.sublist ((List.filter_sublist.append_right _).map _)
      have hfind := (find?_eq_some_of_nodup hnodup).mpr ⟨hmem, rfl⟩
      rw [List.find?_append, List.find?_map]
      change (((((extendedTypes definitions).find? (·.name == standard.name)).map _).or _).map
        _).any _ = true
      rw [hnone, Option.map_none, Option.none_or, hfind]
      exact hinput
  · next hnone =>
      obtain ⟨t, hfind, hinput⟩ := (Option.any_eq_true _ _).mp hinput
      rw [List.find?_append, List.find?_map]
      change (((((extendedTypes definitions).find? (·.name == name)).map _).or _).map
        _).any _ = true
      rw [hfind]
      exact (isInput_shapeOf shapes _ t).trans hinput

/-- Whatever a field of a schema takes is of a type that values can be given for. -/
theorem isInput_of_argument (h : Schema.ofDefinitions definitions = .ok schema) {typeName : String}
    {g : OutputField} (hg : g ∈ schema.fieldsOf typeName) {slot : InputSlot}
    (hslot : slot ∈ g.arguments) : schema.isOf TypeShape.isInput slot.type := by
  obtain ⟨⟨shapes, builtins, hbuiltins, htypes⟩, -⟩ := ofDefinitions_eq_ok h
  obtain ⟨t, ht, -, hg⟩ := exists_type_of_mem_fieldsOf hg
  rw [htypes, List.mem_append, List.mem_append] at ht
  rcases ht with (hdeclared | hbuiltin) | hintrospection
  · obtain ⟨d, hd, rfl⟩ := List.mem_map.mp hdeclared
    obtain ⟨hmention, hinput⟩ := isInput_of_field (checkType_of_mem h hd) hg hslot
    exact isInput_of_mention h hd hmention hinput
  · obtain ⟨scalar, -, rfl⟩ := List.mem_map.mp (hbuiltins t hbuiltin)
    cases hg
  · have hnone : ∀ t ∈ introspectionTypes, t.shape.fields = [] := by decide
    rw [hnone t hintrospection] at hg
    cases hg

/-- No field of a schema takes two arguments of one name. -/
theorem nodup_arguments (h : Schema.build document = .ok schema) {typeName : String}
    {g : OutputField} (hg : g ∈ schema.fieldsOf typeName) :
    (g.arguments.map (·.name)).Nodup := by
  obtain ⟨hreports, hbuilt, -⟩ := build_eq_ok h
  obtain ⟨shapes, hgiven⟩ := exists_given hbuilt
  obtain ⟨-, f, ⟨d, hd, -, hf⟩, rfl⟩ := hgiven typeName g hg
  have hnames : (fieldOf shapes f).arguments.map (·.name) = f.arguments.map (·.name) :=
    List.map_map
  rw [hnames]
  exact Validation.nodup_arguments hreports hd hf

/-- An input type without extensions has just its own fields in the schema, which are inputs. -/
theorem shape?_of_input (h : Schema.ofDefinitions document.definitions = .ok schema)
    {name : String} (hname : name ∉ standardNames) {t : TypeDef}
    (ht : document.typeNamed? name = some t) {fields : List InputDef}
    (hbody : t.body = .input fields)
    (hplain : ∀ more, .typeExtension more ∈ document.definitions → more.name ≠ name) :
    ∃ shapes, schema.shape? (.named name) = some (.input (fields.map (slotOf shapes))) ∧
      ∀ f ∈ fields, schema.isOf TypeShape.isInput f.type := by
  obtain ⟨shapes, hshape⟩ := shape?_extended h hname ht
  have hsame : t.name = name := by simpa using List.find?_some ht
  have halone : (extensionsOf document.definitions).foldl extendType t = t := by
    refine foldl_extendType_of_ne fun more hmore => ?_
    obtain ⟨definition, hdefinition, hsome⟩ := List.mem_filterMap.mp hmore
    cases definition with
    | typeExtension own =>
        obtain rfl := Option.some.inj hsome
        exact hsame ▸ hplain own hdefinition
    | _ => simp at hsome
  rw [halone, shapeOf, hbody] at hshape
  refine ⟨shapes, hshape, fun f hf => ?_⟩
  have hmem : t ∈ extendedTypes document.definitions := by
    have hfind : (extendedTypes document.definitions).find? (·.name == name) = _ :=
      find?_extendedTypes hname
    rw [ht, Option.map_some, halone] at hfind
    exact List.mem_of_find?_eq_some hfind
  obtain ⟨hmention, hinput⟩ := isInput_of_slot (checkType_of_mem h hmem) hbody hf
  exact isInput_of_mention h hmem hmention hinput

/-- Fields of one name of an input type in the document of a schema are the same. -/
theorem eq_of_inputs (h : Schema.build document = .ok schema) {name : String} {t : TypeDef}
    (ht : document.typeNamed? name = some t) {fields : List InputDef}
    (hbody : t.body = .input fields) {i j : InputDef} (hi : i ∈ fields) (hj : j ∈ fields)
    (hsame : i.name = j.name) : i = j := by
  have hname : t.name = name := by simpa using List.find?_some ht
  have hdefines : ∀ i ∈ fields, document.Defines name i.toField := fun i hi => by
    refine ⟨_, mem_types.mp (List.mem_of_find?_eq_some ht), congrArg some hname, ?_⟩
    rw [Definition.fields, hbody]
    exact List.mem_map_of_mem hi
  exact InputDef.toField_injective (eq_of_defines h (hdefines i hi) (hdefines j hj) hsame)

end Schema

end RecordApi
