import RecordApi.Proofs.Derivation.ServingTypes

/-!
# Entry points

All entry points of a schema are fields of the two types that serve it, called by the lower camel
case form of their root types. Uniting keeps one field of a name, the last one. So a root type can
be entered unless a later one has a name of the same form, provided that queries and mutations are
served by different types, and that nothing else which is derived has such a field there.
-/

namespace RecordApi

open RecordApi.Language

/-- The field of a name in the object type of a name; of two fields the later counts. -/
def Language.Document.field? (document : Document) (typeName name : String) : Option FieldDef :=
  match document.typeNamed? typeName with
  | some ⟨_, _, _, .object _ fields⟩ => Merge.lastOfName? FieldDef.name name fields
  | _ => none

namespace Sources

variable (s : Sources)

/-- The field by which a root type is entered for an operation. -/
def entryField (suffix root : String) : FieldDef :=
  Fragment.plainField (Naming.lowerCamel root) [] (.named (root ++ suffix))

/-- Whether a root type has entry points of its own. -/
def Enters (document : Document) (root : String) : Prop :=
  let names := RootNames.ofDocument s.working
  document.field? names.query (Naming.lowerCamel root) = some (entryField "Query" root) ∧
    document.field? names.mutation (Naming.lowerCamel root) = some (entryField "Mutation" root)

/-- Whether nothing but entry points gives the types that serve the schema fields of their names: no
type of a page, no root type with its times, and no input type. -/
structure Uncovered (descriptors : List Descriptor) : Prop where
  schema : ¬ (RootNames.ofDocument s.working).Includes Merge.schemaKey
  inputs : ∀ p : InputPair, (RootNames.ofDocument s.working).Includes p.inputName →
    p.inputName ∈ declaredNames s.working
  pages : ∀ d ∈ descriptors, ∀ t ∈ Fragment.pageTypes s.options d,
    (RootNames.ofDocument s.working).Includes t.name → ∀ root ∈ s.roots,
      ¬ Merge.HasName FieldDef.name (Naming.lowerCamel root) (Definition.type t).fields
  times : ∀ d ∈ descriptors, ∀ t, s.options.timestamps →
    Fragment.withTimestamps (Assembly.rootBasis s.working s.options descriptors) d.typeName =
      some t →
    (RootNames.ofDocument s.working).Includes t.name → ∀ root ∈ s.roots,
      ¬ Merge.HasName FieldDef.name (Naming.lowerCamel root) (Definition.type t).fields

variable {s}

theorem mem_entryFields {key : String} {f : FieldDef} :
    f ∈ s.entryFields key ↔ ∃ root ∈ s.roots,
      (key = (RootNames.ofDocument s.working).query ∧ f = entryField "Query" root) ∨
        (key = (RootNames.ofDocument s.working).mutation ∧ f = entryField "Mutation" root) := by
  simp only [entryFields, Fragment.entryFields, List.mem_flatMap, List.mem_eraseDups,
    List.mem_append, List.mem_ite_nil_right, List.mem_singleton]
  rfl

theorem isSome_lastEntry {key : String} (hrole : (RootNames.ofDocument s.working).Includes key)
    {root : String} (hroot : root ∈ s.roots) :
    (Merge.lastOfName? FieldDef.name (Naming.lowerCamel root) (s.entryFields key)).isSome := by
  rw [Option.isSome_iff_ne_none, ne_eq, Merge.lastOfName?_eq_none, not_not]
  rcases hrole with hquery | hmutation
  · exact ⟨_, mem_entryFields.mpr ⟨root, hroot, .inl ⟨hquery, rfl⟩⟩, rfl⟩
  · exact ⟨_, mem_entryFields.mpr ⟨root, hroot, .inr ⟨hmutation, rfl⟩⟩, rfl⟩

/-- Where names have different forms, the last entry point of a name is that of its root type. -/
theorem lastEntry_eq {key suffix : String}
    (hrole : (RootNames.ofDocument s.working).Includes key)
    (hentries : ∀ f ∈ s.entryFields key, ∃ root ∈ s.roots, f = entryField suffix root)
    (hforms : ∀ a ∈ s.roots, ∀ b ∈ s.roots, Naming.lowerCamel a = Naming.lowerCamel b → a = b)
    {root : String} (hroot : root ∈ s.roots) :
    Merge.lastOfName? FieldDef.name (Naming.lowerCamel root) (s.entryFields key) =
      some (entryField suffix root) := by
  obtain ⟨f, hf⟩ := Option.isSome_iff_exists.mp (isSome_lastEntry hrole hroot)
  obtain ⟨other, hother, rfl⟩ := hentries f (Merge.mem_of_lastOfName? hf)
  have hname : (entryField suffix other).name = Naming.lowerCamel root :=
    Merge.name_of_lastOfName? hf
  obtain rfl : other = root := hforms other hother root hroot hname
  exact hf

theorem entryField_injective {suffix a b : String} (h : entryField suffix a = entryField suffix b) :
    a = b := by
  have htype : TypeExpr.named (a ++ suffix) = .named (b ++ suffix) := congrArg FieldDef.type h
  exact (String.append_left_inj suffix).mp (TypeExpr.named.inj htype)

end Sources

section Entries

variable {s : Sources} {descriptors : List Descriptor} {generated : List (List Definition)}
  (hroots : s.roots.eraseDups.mapM (Assembly.describeRoot s.working s.options.selector) =
    .ok descriptors)
  (hwritten : s.working.Written)
  (hns : s.options.ns.toList.all isNameContinue)
  (hgenerated : Assembly.fragments (Assembly.rootBasis s.working s.options descriptors)
    descriptors = .ok generated)
  (huncovered : s.Uncovered descriptors)

/-- The entry points of a name in one fragment are all that it has of the name under the key of a
type that serves the schema. -/
theorem Fragment.filter_fields_outputs {d : Descriptor} (hd : d ∈ descriptors)
    (huncovered : s.Uncovered descriptors) {key : String}
    (hrole : (RootNames.ofDocument s.working).Includes key) {root : String}
    (hroot : root ∈ s.roots) :
    (((Merge.keyed key (outputs (Assembly.rootBasis s.working s.options descriptors) d)).flatMap
        Definition.fields).filter fun f => f.name = Naming.lowerCamel root) =
      (entryFields (RootNames.ofDocument s.working) key d.typeName).filter
        fun f => f.name = Naming.lowerCamel root := by
  have hnone (definitions : List Definition) (h : ∀ e ∈ definitions, Merge.key? e = some key →
      ¬ Merge.HasName FieldDef.name (Naming.lowerCamel root) e.fields) :
      (((Merge.keyed key definitions).flatMap Definition.fields).filter
        fun f => f.name = Naming.lowerCamel root) = [] := by
    rw [List.filter_eq_nil_iff]
    intro f hf hname
    obtain ⟨e, he, hf⟩ := List.mem_flatMap.mp hf
    obtain ⟨he, hkey⟩ := Merge.mem_keyed.mp he
    exact h e he hkey ⟨f, hf, by simpa using hname⟩
  have hpages := hnone ((pageTypes s.options d).map .type) fun e he hkey => by
    obtain ⟨t, ht, rfl⟩ := List.mem_map.mp he
    obtain rfl : t.name = key := Option.some.inj hkey
    exact huncovered.pages d hd t ht hrole root hroot
  have htimes := hnone (augmented (Assembly.rootBasis s.working s.options descriptors) d.typeName)
    fun e he hkey => by
      unfold augmented at he
      split at he
      · next hasked =>
          obtain ⟨t, ht, rfl⟩ := List.mem_map.mp he
          obtain rfl : t.name = key := Option.some.inj hkey
          exact huncovered.times d hd t hasked (Option.mem_toList.mp ht) hrole root hroot
      · simp at he
  have hentries : (Merge.keyed key ((entryPoints (RootNames.ofDocument s.working) d.typeName).map
      .type)).flatMap Definition.fields =
        entryFields (RootNames.ofDocument s.working) key d.typeName := by
    rw [keyed_entryPoints, List.flatMap_map]
    exact List.flatMap_singleton' _
  have houtputs : outputs (Assembly.rootBasis s.working s.options descriptors) d =
      (pageTypes s.options d).map .type ++
        (entryPoints (RootNames.ofDocument s.working) d.typeName).map .type ++
          augmented (Assembly.rootBasis s.working s.options descriptors) d.typeName := by
    rw [outputs, outputTypes_eq, List.map_append]
    rfl
  rw [houtputs, Merge.keyed_append, Merge.keyed_append, List.flatMap_append, List.flatMap_append,
    List.filter_append, List.filter_append, hpages, htimes, hentries, List.nil_append,
    List.append_nil]

include hroots hwritten hns hgenerated huncovered

/-- No input type of the fragments serves the schema. -/
theorem fragmentInputs_of_uncovered {key : String}
    (hrole : (RootNames.ofDocument s.working).Includes key) :
    ∀ t ∈ fragmentInputs generated, t.name ≠ key := by
  intro t ht hname
  obtain ⟨p, hp, hfresh⟩ := inputName_of_mem_fragmentInputs hroots hwritten hns hgenerated ht
  exact hfresh (huncovered.inputs p (by rwa [← hp, hname]))

/-- All fields of the name of an entry point that fragments have under the key of a type that serves
the schema are entry points. -/
theorem filter_fields_generated {key : String}
    (hrole : (RootNames.ofDocument s.working).Includes key) {root : String}
    (hroot : root ∈ s.roots) :
    (((Merge.keyed key generated.flatten).flatMap Definition.fields).filter
        fun f => f.name = Naming.lowerCamel root) =
      (s.entryFields key).filter fun f => f.name = Naming.lowerCamel root := by
  rw [keyed_generated hroots hwritten hns hgenerated
      (fragmentInputs_of_uncovered hroots hwritten hns hgenerated huncovered hrole),
    Sources.entryFields, ← typeNames_descriptors hroots, List.flatMap_assoc, List.flatMap_map,
    List.filter_flatMap, List.filter_flatMap]
  exact List.flatMap_congr fun d hd => Fragment.filter_fields_outputs hd huncovered hrole hroot

/-- Merging leaves a type that serves the schema the last of the entry points of each name. -/
theorem field?_merged {merged : Document}
    (hmerged : Merge.mergeDocuments (mergedPolicies s) (mergedDocuments s generated) = .ok merged)
    {key : String} (hrole : (RootNames.ofDocument s.working).Includes key) {root : String}
    (hroot : root ∈ s.roots) :
    merged.field? key (Naming.lowerCamel root) =
      Merge.lastOfName? FieldDef.name (Naming.lowerCamel root) (s.entryFields key) := by
  have hschema : key ≠ Merge.schemaKey := fun hkey => huncovered.schema (hkey ▸ hrole)
  have hfilter := filter_fields_generated hroots hwritten hns hgenerated huncovered hrole hroot
  obtain ⟨entry, hentry⟩ := Option.isSome_iff_exists.mp (Sources.isSome_lastEntry hrole hroot)
  obtain ⟨t, interfaces, fields, hfind, hbody, hlast⟩ := find?_role hroots hwritten hns hgenerated
    hmerged hschema hrole (List.ne_nil_of_mem hroot)
  have hgeneratedLast := Merge.lastOfName?_congr hfilter
  have hown := hlast (Naming.lowerCamel root)
  rw [Merge.keyed_append, List.flatMap_append, ← List.append_assoc, Merge.lastOfName?_append,
    hgeneratedLast, hentry, Option.some_or] at hown
  rw [Document.field?, typeNamed?_of_find? hfind, hentry, ← hown]
  obtain ⟨_, _, _, body⟩ := t
  obtain rfl : body = _ := hbody
  rfl

end Entries

section Content

variable {sources : List Source} {s : Sources} {assembled : Assembled}
  (hgiven : ∀ d, .document d ∈ sources → d.Written)
  (hload : Assembly.workingDocument s.options.reading sources = .ok s.working)
  (hbuilt : Assembly.assemble sources s.roots s.options = .ok assembled)
  (huncovered : s.Uncovered assembled.descriptors)

include hgiven hload hbuilt huncovered

theorem field?_assembled {key : String} (hrole : (RootNames.ofDocument s.working).Includes key)
    {root : String} (hroot : root ∈ s.roots) :
    assembled.document.field? key (Naming.lowerCamel root) =
      Merge.lastOfName? FieldDef.name (Naming.lowerCamel root) (s.entryFields key) := by
  have hwritten := workingDocument_written hgiven hload
  obtain ⟨hroots, hns, generated, merged, hgenerated, hmerged, hdocument⟩ :=
    assembleFrom_eq_ok (assembleFrom_of_assemble hload hbuilt)
  rw [← field?_merged hroots hwritten hns hgenerated huncovered hmerged hrole hroot, hdocument,
    Document.field?, typeNamed?_completeSchema, Document.field?]

/-- The types that serve an assembled schema have the last of the entry points of each name. So
every root type has entry points of its own just if no two names have the same form, and queries and
mutations are served by different types. If the consumer declares no key twice, these are the types
that the assembled document names as its roots. -/
theorem entry_points :
    (∀ key, (RootNames.ofDocument s.working).Includes key → ∀ root ∈ s.roots,
      assembled.document.field? key (Naming.lowerCamel root) =
        Merge.lastOfName? FieldDef.name (Naming.lowerCamel root) (s.entryFields key)) ∧
    ((∀ root ∈ s.roots, s.Enters assembled.document root) ↔
      (∀ a ∈ s.roots, ∀ b ∈ s.roots, Naming.lowerCamel a = Naming.lowerCamel b → a = b) ∧
        (s.roots ≠ [] → (RootNames.ofDocument s.working).query ≠
          (RootNames.ofDocument s.working).mutation)) ∧
    (Merge.UniqueKeys s.working.definitions →
      RootNames.ofDocument assembled.document = RootNames.ofDocument s.working) := by
  have hfield (key : String) (hrole : (RootNames.ofDocument s.working).Includes key)
      (root : String) (hroot : root ∈ s.roots) :=
    field?_assembled hgiven hload hbuilt huncovered hrole hroot
  refine ⟨hfield, ⟨fun hall => ⟨fun a ha b hb hform => ?_, fun hne hsame => ?_⟩, ?_⟩,
    fun hkeys => ?_⟩
  · have hown := (hall a ha).1
    rw [hform, (hall b hb).1] at hown
    exact (Sources.entryField_injective (Option.some.inj hown)).symm
  · obtain ⟨root, hroot⟩ := List.exists_mem_of_ne_nil _ hne
    obtain ⟨hquery, hmutation⟩ := hall root hroot
    rw [hsame, hmutation] at hquery
    have htype : TypeExpr.named (root ++ "Mutation") = .named (root ++ "Query") :=
      congrArg FieldDef.type (Option.some.inj hquery)
    have hsuffix := (String.append_right_inj root).mp (TypeExpr.named.inj htype)
    exact absurd hsuffix (by decide)
  · rintro ⟨hforms, hapart⟩ root hroot
    have hne := hapart (List.ne_nil_of_mem hroot)
    constructor
    · rw [hfield _ (.inl rfl) root hroot]
      refine Sources.lastEntry_eq (.inl rfl) (fun f hf => ?_) hforms hroot
      obtain ⟨other, hother, ⟨-, rfl⟩ | ⟨hsame, -⟩⟩ := Sources.mem_entryFields.mp hf
      · exact ⟨other, hother, rfl⟩
      · exact absurd hsame hne
    · rw [hfield _ (.inr rfl) root hroot]
      refine Sources.lastEntry_eq (.inr rfl) (fun f hf => ?_) hforms hroot
      obtain ⟨other, hother, ⟨hsame, -⟩ | ⟨-, rfl⟩⟩ := Sources.mem_entryFields.mp hf
      · exact absurd hsame.symm hne
      · exact ⟨other, hother, rfl⟩
  · have hwritten := workingDocument_written hgiven hload
    obtain ⟨hroots, hns, generated, merged, hgenerated, hmerged, hdocument⟩ :=
      assembleFrom_eq_ok (assembleFrom_of_assemble hload hbuilt)
    rw [hdocument, ofDocument_completeSchema (uniqueKeys_merged hmerged)]
    exact ofDocument_merged hroots hwritten hns hgenerated hmerged hkeys huncovered.schema

end Content

/-! ## Two root types -/

/-- Widgets and another root type. -/
def widgetsAnd (other : String) : Sources where
  working := Document.ofDefinitions
    [ .type (Fragment.objectType "Widget"
        [ Fragment.plainField "id" [] (.nonNull (.named "ID")),
          Fragment.plainField "name" [] (.named "String") ]),
      .type (Fragment.objectType other
        [ Fragment.plainField "id" [] (.nonNull (.named "ID")),
          Fragment.plainField "label" [] (.named "String") ]) ]
  options := {}
  roots := ["Widget", other]

/-- The descriptor of a type with one data field. -/
def flatDescriptor (typeName field : String) : Descriptor :=
  { typeName := typeName
    idName := "id"
    idType := .nonNull (.named (.scalar "ID"))
    fields := [⟨field, .named (.scalar "String")⟩] }

def widgetsAndBasis (other : String) : Basis :=
  Assembly.rootBasis (widgetsAnd other).working (widgetsAnd other).options
    [flatDescriptor "Widget" "name", flatDescriptor other "label"]

/-- The fragment of a type with one data field. -/
def flatFragment (other typeName field : String) : List Definition :=
  Fragment.ofPairs (widgetsAndBasis other) (flatDescriptor typeName field)
    [⟨typeName, .create⟩, ⟨typeName, .update⟩]

section TwoRoots

variable {other : String} (h : other ∈ ["Gadget", "widget"])

include h

theorem written_widgetsAnd : (widgetsAnd other).working.Written := by
  revert other
  decide

theorem describe_widgetsAnd :
    (widgetsAnd other).roots.eraseDups.mapM (Assembly.describeRoot (widgetsAnd other).working
      (widgetsAnd other).options.selector) =
        .ok [flatDescriptor "Widget" "name", flatDescriptor other "label"] := by
  simp only [List.mem_cons, List.not_mem_nil, or_false] at h
  rcases h with rfl | rfl
  · rfl
  · rfl

theorem derivations_widgetsAnd :
    Fragment.Derivations (widgetsAndBasis other)
      [flatDescriptor "Widget" "name", flatDescriptor other "label"] []
      [ [⟨"Widget", .create⟩, ⟨"Widget", .update⟩], [⟨other, .create⟩, ⟨other, .update⟩] ] := by
  simp only [List.mem_cons, List.not_mem_nil, or_false] at h
  rcases h with rfl | rfl
  · exact .cons (by decide) rfl (by decide) (.cons (by decide) rfl (by decide) (.nil _))
  · exact .cons (by decide) rfl (by decide) (.cons (by decide) rfl (by decide) (.nil _))

theorem assemble_widgetsAnd :
    Assembly.assemble [.document (widgetsAnd other).working] (widgetsAnd other).roots
        (widgetsAnd other).options =
      .ok ⟨Assembly.completeSchema (Document.ofDefinitions
        (Merge.mergeDefinitions (mergedPolicies (widgetsAnd other))
          ((mergedDocuments (widgetsAnd other)
            [flatFragment other "Widget" "name", flatFragment other other "label"]).map
              (·.definitions)))),
        [flatDescriptor "Widget" "name", flatDescriptor other "label"]⟩ := by
  have hworking : Merge.Named (widgetsAnd other).working := by
    revert other
    decide
  exact (assemble_of_derivations rfl (describe_widgetsAnd h) (written_widgetsAnd h) hworking rfl rfl
    (derivations_widgetsAnd h)).2

end TwoRoots

/-- Widgets and gadgets have entry points of their own. -/
theorem entry_points_gadgets :
    (∀ d, .document d ∈ [Source.document (widgetsAnd "Gadget").working] → d.Written) ∧
    Assembly.workingDocument (widgetsAnd "Gadget").options.reading
      [.document (widgetsAnd "Gadget").working] = .ok (widgetsAnd "Gadget").working ∧
    ∃ assembled,
      Assembly.assemble [.document (widgetsAnd "Gadget").working] (widgetsAnd "Gadget").roots
        (widgetsAnd "Gadget").options = .ok assembled ∧
      (widgetsAnd "Gadget").Uncovered assembled.descriptors ∧
      ∀ root ∈ ["Widget", "Gadget"], (widgetsAnd "Gadget").Enters assembled.document root := by
  have hother : "Gadget" ∈ ["Gadget", "widget"] := by decide
  have hwritten := written_widgetsAnd hother
  have hgiven : ∀ d, .document d ∈ [Source.document (widgetsAnd "Gadget").working] →
      d.Written := by
    intro d hd
    obtain rfl : d = (widgetsAnd "Gadget").working := by simpa using hd
    exact hwritten
  have hload : Assembly.workingDocument (widgetsAnd "Gadget").options.reading
      [.document (widgetsAnd "Gadget").working] = .ok (widgetsAnd "Gadget").working := rfl
  have hbuilt := assemble_widgetsAnd hother
  have huncovered : (widgetsAnd "Gadget").Uncovered
      [flatDescriptor "Widget" "name", flatDescriptor "Gadget" "label"] := by
    have hpages : ∀ d ∈ [flatDescriptor "Widget" "name", flatDescriptor "Gadget" "label"],
        ∀ t ∈ Fragment.pageTypes (widgetsAnd "Gadget").options d,
          ¬ (RootNames.ofDocument (widgetsAnd "Gadget").working).Includes t.name := by
      decide
    constructor
    · decide
    · intro p hrole
      exact absurd hrole (not_includes_inputName (by decide) (by decide) p)
    · intro d hd t ht hrole
      exact absurd hrole (hpages d hd t ht)
    · intro d hd t htimes
      exact absurd htimes (by decide)
  obtain ⟨-, hown, -⟩ := entry_points hgiven hload hbuilt huncovered
  exact ⟨hgiven, hload, _, hbuilt, huncovered, hown.mpr ⟨by decide, fun _ => by decide⟩⟩

/-- Of two root types that differ by a capital, the first has no entry point at all. -/
theorem entry_points_namesakes :
    (∀ d, .document d ∈ [Source.document (widgetsAnd "widget").working] → d.Written) ∧
    Merge.UniqueKeys (widgetsAnd "widget").working.definitions ∧
    (widgetsAnd "widget").roots = ["Widget", "widget"] ∧
    ∃ assembled,
      Assembly.assemble [.document (widgetsAnd "widget").working] (widgetsAnd "widget").roots
        (widgetsAnd "widget").options = .ok assembled ∧
      RootNames.ofDocument assembled.document = ⟨"Query", "Mutation"⟩ ∧
      assembled.document.typeNamed? "Query" = some (Fragment.objectType "Query"
        [Fragment.plainField "widget" [] (.named "widgetQuery")]) ∧
      assembled.document.typeNamed? "Mutation" = some (Fragment.objectType "Mutation"
        [Fragment.plainField "widget" [] (.named "widgetMutation")]) := by
  have hother : "widget" ∈ ["Gadget", "widget"] := by decide
  have hgiven : ∀ d, .document d ∈ [Source.document (widgetsAnd "widget").working] →
      d.Written := by
    intro d hd
    obtain rfl : d = (widgetsAnd "widget").working := by simpa using hd
    exact written_widgetsAnd hother
  exact ⟨hgiven, by decide, rfl, _, assemble_widgetsAnd hother, rfl, rfl, rfl⟩

end RecordApi
