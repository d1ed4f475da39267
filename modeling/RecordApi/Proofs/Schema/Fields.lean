import RecordApi.Proofs.Binding.ResolverMaps
import RecordApi.Proofs.Derivation.EntryPoints
import RecordApi.Proofs.Schema.Built
import RecordApi.Proofs.Validation.Members

/-!
# Fields of a schema

Every field of a schema is given to its type by a definition or by an extension. No type is given a
field twice, so a lookup finds the one field of a name.
-/

namespace RecordApi

open RecordApi.Language

/-- Whether a definition or an extension gives a type a field. -/
def Language.Document.Defines (document : Document) (typeName : String) (f : FieldDef) : Prop :=
  ∃ d ∈ document.definitions, d.name? = some typeName ∧ f ∈ d.fields

/-- Whether a definition or an extension gives a type a field of a name. -/
def Language.Document.Gives (document : Document) (typeName name : String) : Prop :=
  ∃ d ∈ document.definitions, d.name? = some typeName ∧ Merge.HasName FieldDef.name name d.fields

instance (document : Document) (typeName name : String) :
    Decidable (document.Gives typeName name) :=
  inferInstanceAs (Decidable (∃ d ∈ document.definitions, d.name? = some typeName ∧
    Merge.HasName FieldDef.name name d.fields))

namespace SchemaBuild

theorem mem_fields_extendType {d more : TypeDef} {f : FieldDef}
    (h : f ∈ (Definition.type (extendType d more)).fields) :
    f ∈ (Definition.type d).fields ∨
      more.name = d.name ∧ f ∈ (Definition.type more).fields := by
  unfold extendType at h
  split at h
  · next hname =>
      obtain ⟨_, name, _, body⟩ := d
      obtain ⟨_, other, _, extra⟩ := more
      obtain rfl : other = name := hname
      cases body <;> cases extra <;> simp_all [Definition.fields, extendBody]
  · exact .inl h

/-- The fields of a type with extensions are its own and those of extensions of its name. -/
theorem mem_fields_foldl_extendType {extensions : List TypeDef} {d : TypeDef} {f : FieldDef}
    (h : f ∈ (Definition.type (extensions.foldl extendType d)).fields) :
    ∃ e, (e = d ∨ e ∈ extensions) ∧ e.name = d.name ∧ f ∈ (Definition.type e).fields := by
  induction extensions generalizing d with
  | nil => exact ⟨d, .inl rfl, rfl, h⟩
  | cons more rest ih =>
      have hname : (extendType d more).name = d.name := name_foldl_extendType [more] d
      obtain ⟨e, he, hsame, hf⟩ := ih h
      rcases he with rfl | hrest
      · rcases mem_fields_extendType hf with hf | ⟨hmore, hf⟩
        · exact ⟨d, .inl rfl, rfl, hf⟩
        · exact ⟨more, .inr List.mem_cons_self, hmore, hf⟩
      · exact ⟨e, .inr (List.mem_cons_of_mem _ hrest), hsame.trans hname, hf⟩

theorem mem_fields_shapeOf {shapes : ShapeLookup} {d : TypeDef} {g : OutputField}
    (h : g ∈ (shapeOf shapes d).fields) :
    ∃ f ∈ (Definition.type d).fields, g = fieldOf shapes f := by
  obtain ⟨_, _, _, body⟩ := d
  cases body with
  | object _ fields | interface _ fields =>
      obtain ⟨f, hf, rfl⟩ := List.mem_map.mp h
      exact ⟨f, hf, rfl⟩
  | _ => cases h

end SchemaBuild

open SchemaBuild

namespace Schema

variable {document : Document} {schema : Schema}

theorem exists_type_of_mem_fieldsOf {typeName : String} {g : OutputField}
    (h : g ∈ schema.fieldsOf typeName) :
    ∃ t ∈ schema.types, t.name = typeName ∧ g ∈ t.shape.fields := by
  rw [fieldsOf, shape?, Option.map_map] at h
  cases hfind : schema.type? typeName with
  | none => simp [TypeExpr.baseName, hfind] at h
  | some t =>
      refine ⟨t, List.mem_of_find?_eq_some hfind, by simpa using List.find?_some hfind, ?_⟩
      simpa [TypeExpr.baseName, hfind] using h

/-- Every field of a schema is given to its type by a definition or an extension. -/
theorem exists_given (h : Schema.ofDefinitions document.definitions = .ok schema) :
    ∃ shapes, ∀ typeName, ∀ g ∈ schema.fieldsOf typeName, typeName ∉ standardNames ∧
      ∃ f, document.Defines typeName f ∧ g = fieldOf shapes f := by
  obtain ⟨⟨shapes, builtins, hbuiltins, htypes⟩, -⟩ := ofDefinitions_eq_ok h
  refine ⟨shapes, fun typeName g hfield => ?_⟩
  obtain ⟨t, ht, rfl, hg⟩ := exists_type_of_mem_fieldsOf hfield
  rw [htypes, List.mem_append, List.mem_append] at ht
  rcases ht with (hdeclared | hbuiltin) | hintrospection
  · obtain ⟨d, hd, rfl⟩ := List.mem_map.mp hdeclared
    obtain ⟨f, hf, hgf⟩ := mem_fields_shapeOf hg
    refine ⟨not_standard_of_mem_extendedTypes hd, ?_⟩
    obtain ⟨e, he, rfl⟩ := List.mem_map.mp hd
    obtain ⟨definition, hdefinition, hsome⟩ := List.mem_filterMap.mp he
    obtain ⟨x, hx, hname, hown⟩ := mem_fields_foldl_extendType hf
    dsimp only
    rw [name_foldl_extendType, ← hname]
    rcases hx with rfl | hx
    · cases definition with
      | type own =>
          dsimp only at hsome
          split at hsome
          · cases hsome
          · obtain rfl := Option.some.inj hsome
            exact ⟨f, ⟨_, hdefinition, rfl, hown⟩, hgf⟩
      | _ => simp at hsome
    · obtain ⟨extension, hextension, hsome⟩ := List.mem_filterMap.mp hx
      cases extension with
      | typeExtension own =>
          obtain rfl := Option.some.inj hsome
          exact ⟨f, ⟨_, hextension, rfl, hown⟩, hgf⟩
      | _ => simp at hsome
  · obtain ⟨scalar, -, rfl⟩ := List.mem_map.mp (hbuiltins t hbuiltin)
    cases hg
  · have hnone : ∀ t ∈ introspectionTypes, t.shape.fields = [] := by decide
    rw [hnone t hintrospection] at hg
    cases hg

/-- An object type of a schema that is not a standard one is among those of the document. -/
theorem any_of_isObject (h : Schema.ofDefinitions document.definitions = .ok schema) {name : String}
    (hplain : name ∉ standardNames) (hobject : schema.isOf TypeShape.isObject (.named name)) :
    (extendedTypes document.definitions).any (·.name == name) := by
  obtain ⟨⟨shapes, builtins, hbuiltins, htypes⟩, -⟩ := ofDefinitions_eq_ok h
  rw [isOf, shape?, Option.any_map, Option.any_eq_true] at hobject
  obtain ⟨t, hfind, -⟩ := hobject
  have hname : t.name = name := by simpa [TypeExpr.baseName] using List.find?_some hfind
  have hmem := List.mem_of_find?_eq_some hfind
  rw [htypes, List.mem_append, List.mem_append] at hmem
  have hstandard (h : t ∈ builtinTypes ∨ t ∈ introspectionTypes) : t.name ∈ standardNames :=
    List.mem_map_of_mem (List.mem_append.mpr h)
  rcases hmem with (hdeclared | hbuiltin) | hintrospection
  · obtain ⟨d, hd, rfl⟩ := List.mem_map.mp hdeclared
    exact List.any_eq_true.mpr ⟨d, hd, beq_iff_eq.mpr hname⟩
  · exact absurd (hname ▸ hstandard (.inl (hbuiltins t hbuiltin))) hplain
  · exact absurd (hname ▸ hstandard (.inr hintrospection)) hplain

/-- No field of a schema without faults has a reserved name. -/
theorem nameFaults_of_mem_fieldsOf (h : schema.faults = []) {typeName : String}
    (hplain : typeName ∉ standardNames) {g : OutputField}
    (hfield : g ∈ schema.fieldsOf typeName) : nameFaults g.name = [] := by
  obtain ⟨t, ht, rfl, hg⟩ := exists_type_of_mem_fieldsOf hfield
  obtain ⟨visited, hnone⟩ :=
    typeFaults_of_mem h (List.mem_filter.mpr ⟨ht, by simpa using hplain⟩)
  have hfields : fieldFaults t = [] := by
    unfold typeFaults at hnone
    cases hshape : t.shape with
    | object _ fields | interface _ fields =>
        simp only [hshape, List.append_eq_nil_iff] at hnone
        exact hnone.1.2
    | _ =>
        rw [hshape] at hg
        cases hg
  rw [fieldFaults, List.append_eq_nil_iff, List.flatMap_eq_nil_iff] at hfields
  exact (List.append_eq_nil_iff.mp (hfields.2 g hg)).1

/-- A lookup in a schema finds what a definition or an extension gives to the type. -/
theorem exists_field? (h : Schema.build document = .ok schema) :
    ∃ shapes, ∀ typeName name, schema.HasField typeName name →
      typeName ∉ standardNames ∧ ∃ f, document.Defines typeName f ∧ f.name = name ∧
        schema.field? typeName name = some (fieldOf shapes f) := by
  obtain ⟨-, hbuilt, hfaults⟩ := build_eq_ok h
  obtain ⟨shapes, hgiven⟩ := exists_given hbuilt
  refine ⟨shapes, fun typeName name hfield => ?_⟩
  obtain ⟨g, hg, rfl⟩ := hfield
  obtain ⟨hplain, -⟩ := hgiven typeName g hg
  have hother : g.name ≠ "__typename" := by
    intro hname
    have hnone := nameFaults_of_mem_fieldsOf hfaults hplain hg
    rw [hname] at hnone
    exact absurd hnone (by decide +kernel)
  have hsome : ((schema.fieldsOf typeName).find? (·.name == g.name)).isSome :=
    List.find?_isSome.mpr ⟨g, hg, beq_self_eq_true _⟩
  obtain ⟨found, hfound⟩ := Option.isSome_iff_exists.mp hsome
  obtain ⟨-, f, hf, rfl⟩ := hgiven typeName found (List.mem_of_find?_eq_some hfound)
  have hmatch := List.find?_some hfound
  have hname : f.name = g.name := beq_iff_eq.mp hmatch
  exact ⟨hplain, f, hf, hname, by rw [field?, if_neg hother, hfound]⟩

/-- Fields of one name that the document of a schema gives to one type are the same. -/
theorem eq_of_defines (h : Schema.build document = .ok schema) {typeName : String}
    {f g : FieldDef} (hf : document.Defines typeName f) (hg : document.Defines typeName g)
    (hsame : f.name = g.name) : f = g := by
  obtain ⟨hreports, -⟩ := build_eq_ok h
  obtain ⟨d, hd, hdname, hf⟩ := hf
  obtain ⟨e, he, hename, hg⟩ := hg
  exact Validation.eq_of_given hreports hd he hdname hename hf hg hsame

end Schema

/-- What a lookup finds in a document, the document gives to the type. -/
theorem defines_of_field? {document : Document} {typeName name : String} {f : FieldDef}
    (h : document.field? typeName name = some f) :
    document.Defines typeName f ∧ f.name = name := by
  unfold Document.field? at h
  split at h
  · next hfind =>
      have hname := List.find?_some hfind
      have hmem := mem_types.mp (List.mem_of_find?_eq_some hfind)
      exact ⟨⟨_, hmem, congrArg some (beq_iff_eq.mp hname), Merge.mem_of_lastOfName? h⟩,
        Merge.name_of_lastOfName? h⟩
  · cases h

end RecordApi
