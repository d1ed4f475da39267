import RecordApi.Proofs.Derivation.Kept

/-!
# Describing an assembled document

The schema definition of an assembled document names both roots already, and completing it once more
changes nothing. Its root types have their times and its input types are declared, so the fragments
that it is described by hold the types of pages and the entry points only, and these are the ones
that it has been assembled with.
-/

namespace RecordApi

open RecordApi.Language

/-! ## Schema definitions completed again -/

theorem completeRoots_completeRoots (names : RootNames) (d : SchemaDef) :
    Assembly.completeRoots names (Assembly.completeRoots names d) =
      Assembly.completeRoots names d := by
  have hnone : [RootDef.mk .query names.query, RootDef.mk .mutation names.mutation].filter
      (fun root => !((Assembly.completeRoots names d).roots.map (·.operation)).contains
        root.operation) = [] := by
    rw [List.filter_eq_nil_iff]
    intro root hroot
    by_cases h : (d.roots.map (·.operation)).contains root.operation
    · simp_all [Assembly.completeRoots]
    · have hmissing : root ∈ (Assembly.completeRoots names d).roots :=
        List.mem_append_right _ (List.mem_filter.mpr ⟨hroot, by simpa using h⟩)
      have hpresent := List.mem_map_of_mem (f := RootDef.operation) hmissing
      simpa using hpresent
  conv => lhs; rw [Assembly.completeRoots]
  rw [hnone, List.append_nil]

theorem completeDefinition_completeDefinition (names : RootNames) (d : Definition) :
    completeDefinition names (completeDefinition names d) = completeDefinition names d := by
  cases d with
  | schema definition => exact congrArg Definition.schema (completeRoots_completeRoots names _)
  | _ => rfl

/-- A schema definition with the roots that it leaves out names the same roots. -/
theorem foldl_set_completeRoots (start : RootNames) (d : SchemaDef) :
    (Assembly.completeRoots (d.roots.foldl RootNames.set start) d).roots.foldl RootNames.set start =
      d.roots.foldl RootNames.set start := by
  generalize hnames : d.roots.foldl RootNames.set start = names
  have hset : ∀ root ∈ [RootDef.mk .query names.query, RootDef.mk .mutation names.mutation],
      names.set root = names := by
    simp [RootNames.set]
  have hfold (missing : List RootDef) (h : ∀ root ∈ missing, names.set root = names) :
      missing.foldl RootNames.set names = names := by
    induction missing with
    | nil => rfl
    | cons root rest ih =>
        obtain ⟨hroot, hrest⟩ := List.forall_mem_cons.mp h
        rw [List.foldl_cons, hroot, ih hrest]
  rw [Assembly.completeRoots, List.foldl_append, hnames]
  exact hfold _ fun root hroot => hset root (List.mem_filter.mp hroot).1

theorem ofDocument_completeSchema {document : Document}
    (h : Merge.UniqueKeys document.definitions) :
    RootNames.ofDocument (Assembly.completeSchema document) = RootNames.ofDocument document := by
  have hfold (definitions : List Definition) (hkeys : Merge.UniqueKeys definitions)
      (start : RootNames) :
      ((definitions.map (completeDefinition
        ((definitions.flatMap rootsIn).foldl RootNames.set start))).flatMap rootsIn).foldl
          RootNames.set start = (definitions.flatMap rootsIn).foldl RootNames.set start := by
    induction definitions with
    | nil => rfl
    | cons d rest ih =>
        obtain ⟨hd, hrest⟩ := Merge.uniqueKeys_cons.mp hkeys
        cases d with
        | schema definition =>
            have hnone : ∀ e ∈ rest, rootsIn e = [] := by
              intro e he
              cases e with
              | schema other => exact absurd ⟨_, he, rfl⟩ (hd _ rfl)
              | _ => rfl
            have hnone' (names : RootNames) :
                (rest.map (completeDefinition names)).flatMap rootsIn = [] := by
              rw [List.flatMap_map, List.flatMap_eq_nil_iff]
              intro e he
              cases e with
              | schema other => exact absurd ⟨_, he, rfl⟩ (hd _ rfl)
              | _ => rfl
            rw [List.map_cons, List.flatMap_cons, List.flatMap_cons, hnone',
              List.flatMap_eq_nil_iff.mpr hnone, List.append_nil, List.append_nil]
            exact foldl_set_completeRoots start definition
        | _ => exact ih hrest
  rw [ofDocument_eq, ofDocument_eq, definitions_completeSchema, ofDocument_eq]
  exact hfold _ h _

theorem named_completeSchema {document : Document} (h : Merge.Named document) :
    Merge.Named (Assembly.completeSchema document) := by
  unfold Merge.Named
  rw [definitions_completeSchema]
  intro d hd
  obtain ⟨e, he, rfl⟩ := List.mem_map.mp hd
  have hnamed := h e he
  cases e <;> exact hnamed

theorem completeSchema_completeSchema {document : Document}
    (h : Merge.UniqueKeys document.definitions) :
    Assembly.completeSchema (Assembly.completeSchema document) =
      Assembly.completeSchema document := by
  rw [completeSchema_eq (Assembly.completeSchema document), ofDocument_completeSchema h,
    definitions_completeSchema, completeSchema_eq, List.map_map]
  refine congrArg Document.ofDefinitions (List.map_congr_left fun d _ => ?_)
  exact completeDefinition_completeDefinition _ d

/-! ## Roots described again -/

/-- Whether two descriptors tell of the same identifier of a type. -/
structure Descriptor.SameIdentifier (d e : Descriptor) : Prop where
  typeName : e.typeName = d.typeName
  idName : e.idName = d.idName
  idType : e.idType.toExpr = d.idType.toExpr

namespace TypeRef

theorem toExpr_nullable (ref : TypeRef) : ref.nullable.toExpr = ref.toExpr.nullable := by
  cases ref <;> rfl

theorem toExpr_required (ref : TypeRef) : ref.required.toExpr = .nonNull ref.toExpr.nullable := by
  cases ref <;> rfl

end TypeRef

/-- Of distinct types, the object type of a name is the root type of that name. -/
theorem objectFields?_of_mem {working : Document}
    (hdistinct : (working.types.map (·.name)).Nodup) {t : TypeDef} (ht : t ∈ working.types)
    {interfaces : List String} {fields : List FieldDef}
    (hbody : t.body = .object interfaces fields) :
    Assembly.objectFields? working t.name = some fields := by
  have hsome : (Assembly.objectFields? working t.name).isSome := by
    refine List.findSome?_isSome_iff.mpr ⟨t, List.mem_reverse.mpr ht, ?_⟩
    rw [hbody]
    simp
  obtain ⟨own, hown⟩ := Option.isSome_iff_exists.mp hsome
  obtain ⟨u, hu, hname, interfaces', hbody'⟩ := exists_object_of_objectFields? hown
  obtain rfl := List.inj_on_of_nodup_map hdistinct hu ht hname
  obtain ⟨-, rfl⟩ := TypeBody.object.inj (hbody.symm.trans hbody')
  exact hown

/-- Fields that are added behind the others leave the identifier as it is. -/
theorem describeRoot_append {working document : Document} {selector : Option IdSelector}
    {name : String} {fields added : List FieldDef} {d : Descriptor}
    (h : Assembly.describeRoot working selector name = .ok d)
    (hfields : Assembly.objectFields? working name = some fields)
    (hgrown : Assembly.objectFields? document name = some (fields ++ added)) :
    ∃ e, Assembly.describeRoot document selector name = .ok e ∧ d.SameIdentifier e := by
  rw [Assembly.describeRoot, hfields] at h
  rw [Assembly.describeRoot, hgrown]
  dsimp only at h ⊢
  unfold Descriptor.describe at h ⊢
  cases hid : Descriptor.idNameOf fields name selector with
  | none => simp [hid] at h
  | some idName =>
      have hsame : Descriptor.idNameOf (fields ++ added) name selector = some idName := by
        cases selector with
        | some choose => exact hid
        | none =>
            obtain ⟨f, hf, hname⟩ := Option.map_eq_some_iff.mp hid
            rw [Descriptor.idNameOf, Descriptor.firstRequiredId, List.find?_append, hf]
            exact congrArg some hname
      rw [hid] at h
      rw [hsame]
      dsimp only at h ⊢
      cases hfind : fields.find? (·.name == idName) with
      | none => simp [hfind] at h
      | some idField =>
          rw [hfind] at h
          rw [List.find?_append, hfind]
          obtain rfl := Except.ok.inj h
          exact ⟨_, rfl, rfl, rfl, by simp⟩

/-- The types behind the input types of a fragment depend on the identifier and the roots alone. -/
theorem Fragment.outputTypes_congr {basis again : Basis} {d e : Descriptor}
    (hoptions : again.options = basis.options) (hroots : again.roots = basis.roots)
    (h : d.SameIdentifier e) : outputTypes again e = outputTypes basis d := by
  simp only [outputTypes, entryPoints, edgeType, connectionType, queryType, mutationType, hoptions,
    hroots, h.typeName, h.idName, h.idType, TypeRef.toExpr_nullable, TypeRef.toExpr_required]

/-- The times that are added to the fields of a root type. -/
def Sources.addedTimes (s : Sources) (fields : List FieldDef) : List FieldDef :=
  if s.options.timestamps then missingTimes fields else []

theorem missingTimes_append (fields : List FieldDef) :
    missingTimes (fields ++ missingTimes fields) = [] := by
  rw [missingTimes, List.map_eq_nil_iff, List.filter_eq_nil_iff]
  intro time htime hlacks
  rw [List.all_eq_true] at hlacks
  by_cases h : fields.all fun f => f.name != time
  · have hmem : Fragment.plainField time [] (.nonNull (.named "Float")) ∈ missingTimes fields :=
      List.mem_map_of_mem (List.mem_filter.mpr ⟨htime, h⟩)
    exact absurd (hlacks _ (List.mem_append_right _ hmem)) (by simp [Fragment.plainField])
  · apply h
    rw [List.all_eq_true]
    intro f hf
    exact hlacks f (List.mem_append_left _ hf)

/-- The types of all fragments behind their input types. -/
def Sources.outputs (s : Sources) (descriptors : List Descriptor) : List (List Definition) :=
  descriptors.map fun d =>
    (Fragment.outputTypes (Assembly.rootBasis s.working s.options descriptors) d).map .type

/-! ## Fragments again -/

section Again

variable {s : Sources} {descriptors : List Descriptor} {generated : List (List Definition)}
  {merged : Document}
  (hroots : s.roots.eraseDups.mapM (Assembly.describeRoot s.working s.options.selector) =
    .ok descriptors)
  (hwritten : s.working.Written)
  (hns : s.options.ns.toList.all isNameContinue)
  (hgenerated : Assembly.fragments (Assembly.rootBasis s.working s.options descriptors)
    descriptors = .ok generated)
  (hmerged : Merge.mergeDocuments (mergedPolicies s) (mergedDocuments s generated) = .ok merged)
  (hkeys : Merge.UniqueKeys s.working.definitions)
  (hapart : s.Apart)

include hroots hwritten hns hgenerated hmerged

/-- A root type that stands alone has the times that it lacks in the assembled document. -/
theorem root_completeSchema (hdistinct : (s.working.types.map (·.name)).Nodup) {d : Descriptor}
    (hd : d ∈ descriptors) (hstands : s.StandsAlone d.typeName) :
    ∃ t interfaces fields, t.name = d.typeName ∧
      Assembly.objectFields? s.working d.typeName = some fields ∧
      t.body = .object interfaces (fields ++ s.addedTimes fields) ∧
      .type t ∈ (Assembly.completeSchema merged).definitions := by
  have hroot : d.typeName ∈ s.roots := (mem_roots hroots).mpr ⟨d, hd, rfl⟩
  obtain ⟨-, fields, -, hfields, -⟩ := describeRoot_eq_ok (describeRoot_of_mem hroots hd)
  obtain ⟨t, ht, hname, interfaces, hbody⟩ := exists_object_of_objectFields? hfields
  rw [← hname] at hroot hstands
  have hsole : Merge.keyed t.name s.working.definitions = [.type t] := by
    have htmem : .type t ∈ Merge.keyed t.name s.working.definitions :=
      Merge.mem_keyed.mpr ⟨mem_types.mp ht, rfl⟩
    obtain ⟨u, hu⟩ := List.length_eq_one_iff.mp
      (Nat.le_antisymm hstands.sole (List.length_pos_of_mem htmem))
    rw [hu, List.mem_singleton] at htmem
    rw [hu, htmem]
  have hmem := overlaid_mem_merged_of_sole hmerged hsole hstands.role
  refine ⟨{ t with body := .object interfaces (fields ++ s.addedTimes fields) }, interfaces, fields,
    hname, hfields, rfl, ?_⟩
  have hover : Merge.overlaid (mergedPolicies s) generated.flatten (.type t) =
      .type { t with body := .object interfaces (fields ++ s.addedTimes fields) } := by
    by_cases htimes : s.options.timestamps
    · rw [overlaid_root hroots hwritten hns hgenerated hdistinct ht hbody htimes hroot hstands,
        Sources.addedTimes, if_pos htimes]
    · have hnone : Merge.keyed t.name generated.flatten = [] := by
        refine keyed_generated_eq_nil hroots hwritten hns hgenerated
          (fragmentInputs_of_declared hroots hwritten hns hgenerated (mem_types.mp ht) rfl) ?_
        rintro (⟨other, hother, hpage⟩ | ⟨hrole, -⟩ | ⟨hasked, -⟩)
        · exact hstands.pages _ hother hpage
        · exact hstands.role hrole
        · exact htimes hasked
      rw [Merge.overlaid_of_key rfl, hnone, Sources.addedTimes, if_neg htimes, List.append_nil,
        ← hbody]
      rfl
  rw [hover] at hmem
  rw [definitions_completeSchema]
  exact List.mem_map.mpr ⟨_, hmem, rfl⟩

include hkeys hapart

/-- The root types of an assembled document have the same identifiers. -/
theorem describe_again :
    ∃ again, s.roots.eraseDups.mapM
        (Assembly.describeRoot (Assembly.completeSchema merged) s.options.selector) = .ok again ∧
      List.Forall₂ Descriptor.SameIdentifier descriptors again := by
  have hone : ∀ d ∈ descriptors, ∃ e, Assembly.describeRoot (Assembly.completeSchema merged)
      s.options.selector d.typeName = .ok e ∧ d.SameIdentifier e := by
    intro d hd
    obtain ⟨t, interfaces, fields, hname, hfields, hbody, hmem⟩ :=
      root_completeSchema hroots hwritten hns hgenerated hmerged (nodup_types hkeys) hd
        (hapart.standsAlone hkeys ((mem_roots hroots).mpr ⟨d, hd, rfl⟩))
    have hgrown := objectFields?_of_mem
      (nodup_types (uniqueKeys_completeSchema (uniqueKeys_merged hmerged))) (mem_types.mpr hmem)
      hbody
    rw [hname] at hgrown
    exact describeRoot_append (describeRoot_of_mem hroots hd) hfields hgrown
  have hall (ds : List Descriptor) (h : ∀ d ∈ ds, d ∈ descriptors) :
      ∃ again, (ds.map (·.typeName)).map (Assembly.describeRoot (Assembly.completeSchema merged)
          s.options.selector) = again.map .ok ∧
        List.Forall₂ Descriptor.SameIdentifier ds again := by
    induction ds with
    | nil => exact ⟨[], rfl, .nil⟩
    | cons d rest ih =>
        obtain ⟨hd, hrest⟩ := List.forall_mem_cons.mp h
        obtain ⟨e, he, hsame⟩ := hone d hd
        obtain ⟨again, hagain, hrest⟩ := ih hrest
        exact ⟨e :: again, by rw [List.map_cons, List.map_cons, he, hagain]; rfl,
          .cons hsame hrest⟩
  obtain ⟨again, hagain, hsame⟩ := hall descriptors fun d hd => hd
  rw [typeNames_descriptors hroots] at hagain
  exact ⟨again, mapM_eq_ok.mpr hagain, hsame⟩

/-- No root type of an assembled document lacks times. -/
theorem augmented_again {d : Descriptor} (hd : d ∈ descriptors) (again : List Descriptor) :
    Fragment.augmented (Assembly.rootBasis (Assembly.completeSchema merged) s.options again)
      d.typeName = [] := by
  unfold Fragment.augmented
  split
  · next htimes =>
      have hnone : Fragment.withTimestamps (Assembly.rootBasis (Assembly.completeSchema merged)
          s.options again) d.typeName = none := by
        rw [Option.eq_none_iff_forall_ne_some]
        intro u hu
        obtain ⟨e, interfaces, own, htype, hown, hmissing, -⟩ := withTimestamps_eq_some.mp hu
        obtain ⟨he, hename⟩ := mem_of_type? htype
        obtain ⟨t, interfaces', fields, hname, -, hbody, hmem⟩ :=
          root_completeSchema hroots hwritten hns hgenerated hmerged (nodup_types hkeys) hd
            (hapart.standsAlone hkeys ((mem_roots hroots).mpr ⟨d, hd, rfl⟩))
        have hsame : Definition.type e = .type t :=
          Merge.eq_of_key? (uniqueKeys_completeSchema (uniqueKeys_merged hmerged))
            (mem_types.mp he) hmem (congrArg some hename) (congrArg some hname)
        obtain rfl := Definition.type.inj hsame
        obtain ⟨-, rfl⟩ := TypeBody.object.inj (hown.symm.trans hbody)
        apply hmissing
        have hasked : s.options.timestamps := htimes
        rw [Sources.addedTimes, if_pos hasked, missingTimes_append]
      rw [hnone]
      rfl
  · rfl

omit hapart in
/-- The input types of root types are declared by an assembled document. -/
theorem declared_inputName {name : String} (hname : name ∈ s.roots) (mode : InputMode) :
    mode.inputName name ∈ declaredNames (Assembly.completeSchema merged) := by
  have hne := inputName_ne_schemaKey mode name
  rw [declaredNames_completeSchema]
  rcases (supplies_of_inputName hroots hwritten hns hgenerated).1 name hname mode with
    hdeclared | hemitted
  · exact declared_merged hmerged hkeys hdeclared hne
  · obtain ⟨t, ht, htname⟩ := List.mem_map.mp hemitted
    obtain ⟨part, hpart, ht⟩ := List.mem_flatMap.mp ht
    obtain ⟨definition, hdefinition, htype⟩ := List.mem_filterMap.mp ht
    have hmem : .type t ∈ generated.flatten := by
      refine List.mem_flatten.mpr ⟨part, hpart, ?_⟩
      cases definition with
      | type u =>
          obtain ⟨description, own, directives, body⟩ := u
          cases body <;> simp_all
      | _ => simp at htype
    rw [← htname] at hne ⊢
    exact mem_declaredNames_merged hmerged (List.mem_append_right _ hmem) hne

/-- The fragments of an assembled document hold the types of pages and the entry points. -/
theorem fragments_again {again : List Descriptor}
    (hagain : List.Forall₂ Descriptor.SameIdentifier descriptors again)
    (hrole : RootNames.ofDocument (Assembly.completeSchema merged) =
      RootNames.ofDocument s.working) :
    Assembly.fragments
        (Assembly.rootBasis (Assembly.completeSchema merged) s.options again) again =
      .ok (s.outputs descriptors) := by
  have hplain := plain_rootBasis hroots hwritten hns
  have hds : ∀ d ∈ descriptors, d.Plain ∧
      (Assembly.rootBasis s.working s.options descriptors).descriptors.lookup d.typeName =
        some d := fun d hd =>
    ⟨plain_descriptors hroots hwritten hd, (lookup_descriptors hroots).mpr ⟨hd, rfl⟩⟩
  have hread := Fragment.reread_of_generateEach hplain hds hgenerated
  have hpaired : List.Forall₂ (fun d e => d ∈ descriptors ∧ d.SameIdentifier e) descriptors again :=
    (List.forall₂_and_left _ _).mpr ⟨fun d hd => hd, hagain⟩
  have hsource : ∀ e ∈ again, ∃ d ∈ descriptors, d.SameIdentifier e := by
    have hflipped : List.Forall₂ (fun e _ => (∃ d ∈ descriptors, d.SameIdentifier e) ∧ True) again
        descriptors :=
      hpaired.flip.imp fun e d hd => ⟨⟨d, hd⟩, trivial⟩
    exact ((List.forall₂_and_left _ _).mp hflipped).1
  have houtput {d e : Descriptor} (hsame : d.SameIdentifier e) :
      Fragment.outputTypes
          (Assembly.rootBasis (Assembly.completeSchema merged) s.options again) e =
        Fragment.outputTypes (Assembly.rootBasis s.working s.options descriptors) d :=
    Fragment.outputTypes_congr rfl hrole hsame
  rw [Assembly.fragments, Fragment.generateEach_of_declared]
  · refine congrArg Except.ok (List.forall₂_eq_eq_eq ▸ ?_)
    rw [Sources.outputs, List.forall₂_map_left_iff, List.forall₂_map_right_iff]
    apply hpaired.flip.imp
    intro e d hpair
    obtain ⟨hd, hsame⟩ := hpair
    rw [houtput hsame, hsame.typeName,
      augmented_again hroots hwritten hns hgenerated hmerged hkeys hapart hd, List.append_nil]
  · intro e he mode
    obtain ⟨d, hd, hsame⟩ := hsource e he
    rw [hsame.typeName]
    exact declared_inputName hroots hwritten hns hgenerated hmerged hkeys
      ((mem_roots hroots).mpr ⟨d, hd, rfl⟩) mode
  · intro e he
    obtain ⟨d, hd, hsame⟩ := hsource e he
    rw [houtput hsame]
    exact hread d hd

end Again

end RecordApi
