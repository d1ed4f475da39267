import RecordApi.Proofs.Derivation.MergedPlaces

/-!
# What an assembled document keeps

The primitives stand first, each with the consumer's definition of its key merged over it. Behind
them stand the consumer's other definitions in their order, and then what has a new key. A
definition of the consumer is altered only where a fragment has its key: the types of pages give way
to the generated ones, root types gain the times that they lack, and the types that serve the schema
gain the entry points. The schema definition gains the roots that it leaves out.
-/

namespace RecordApi

open RecordApi.Language

namespace Sources

variable (s : Sources)

/-- The entry points of all root types in their order, where a type serves queries or mutations. -/
def entryFields (name : String) : List FieldDef :=
  s.roots.eraseDups.flatMap (Fragment.entryFields (RootNames.ofDocument s.working) name)

/-- The roots that a schema definition leaves out. -/
def missingRoots (definition : SchemaDef) : List RootDef :=
  [ ⟨.query, (RootNames.ofDocument s.working).query⟩,
    ⟨.mutation, (RootNames.ofDocument s.working).mutation⟩ ].filter
      fun root => root.operation ∉ definition.roots.map (·.operation)

/-- What stands in the place of a primitive that the consumer defines: the consumer's definition,
united with the primitive if it serves the schema. -/
def overPrimitive (primitive d : Definition) : Definition :=
  match Merge.key? primitive with
  | some key =>
    if (RootNames.ofDocument s.working).Includes key then Merge.fieldUnion key primitive d else d
  | none => d

/-- What an assembled document has for a definition of the consumer. -/
structure KeptAs (descriptors : List Descriptor) (d e : Definition) : Prop where
  key : Merge.key? e = Merge.key? d
  page : ∀ t, d = .type t → ∀ r ∈ descriptors, ∀ page ∈ Fragment.pageTypes s.options r,
    page.name = t.name → e = .type page
  root : ∀ t interfaces fields, d = .type t → t.body = .object interfaces fields →
    s.options.timestamps → t.name ∈ s.roots →
      e = .type { t with body := .object interfaces (fields ++ missingTimes fields) }
  role : ∀ t interfaces fields, d = .type t → t.body = .object interfaces fields →
    t.name ≠ Merge.schemaKey → (RootNames.ofDocument s.working).Includes t.name →
      e = .type { t with
        body := .object interfaces
          (Merge.unitedByName FieldDef.name fields (s.entryFields t.name)) }
  schema : ∀ definition, d = .schema definition →
    ¬ (RootNames.ofDocument s.working).Includes Merge.schemaKey →
      e = .schema { definition with roots := definition.roots ++ s.missingRoots definition }
  other : (∀ definition, d ≠ .schema definition) →
    (∀ key, Merge.key? d = some key → ¬ s.Generates key) → e = d

end Sources

/-! ## What is merged over a definition -/

section Overlaid

theorem not_mem_standard_of_mem_pageNames {typeName key : String} (hname : isName typeName.toList)
    (h : key ∈ pageNames typeName) : key ∉ ["Query", "Mutation", "Subscription"] := by
  have hapart : ∀ suffix ∈ ["Edge", "Connection", "Query", "Mutation"],
      ∀ other ∈ ["Query", "Mutation", "Subscription"], suffix ≠ other →
        ¬ suffix.toList <:+ other.toList := by
    decide
  obtain ⟨suffix, hsuffix, rfl⟩ := List.mem_map.mp h
  intro hother
  by_cases hsame : suffix = typeName ++ suffix
  · have hempty : "" ++ suffix = typeName ++ suffix := by rwa [String.empty_append]
    obtain rfl := (String.append_left_inj _).mp hempty
    exact absurd hname (by decide)
  · exact append_ne (hapart suffix hsuffix _ hother hsame) typeName rfl

/-- The times that some fields lack are added behind them. -/
theorem nameMerge_missingTimes (fields : List FieldDef) :
    Merge.nameMerge FieldDef.name fields (fields ++ missingTimes fields) =
      fields ++ missingTimes fields := by
  rw [Merge.nameMerge_append, Merge.nameMerge_self]
  apply Merge.nameMerge_of_new
  · intro f hf
    obtain ⟨time, -, hlacks, rfl⟩ := exists_time_of_mem_missingTimes hf
    rintro ⟨g, hg, hsame⟩
    have hname : g.name = time := hsame
    exact hlacks (hname ▸ List.mem_map_of_mem hg)
  · have hnames : (missingTimes fields).map (·.name) =
        timestampFields.filter fun name => fields.all fun f => f.name != name := by
      rw [missingTimes, List.map_map]
      exact List.map_id _
    rw [hnames]
    exact List.Nodup.filter _ (by decide)

/-- The root type with the times that it lacks, merged over the root type. -/
theorem combine_timed {policy : MergePolicy} {t : TypeDef} {interfaces : List String}
    {fields : List FieldDef} (h : t.body = .object interfaces fields) :
    Merge.combine policy t.name (.type t)
        (.type { t with body := .object interfaces (fields ++ missingTimes fields) }) =
      .type { t with body := .object interfaces (fields ++ missingTimes fields) } := by
  obtain ⟨description, name, directives, body⟩ := t
  obtain rfl : body = _ := h
  cases policy with
  | override => rfl
  | fieldUnion =>
      simp [Merge.combine, Merge.fieldUnion, Definition.description, Definition.directives,
        Definition.interfaces, Definition.fields, nameMerge_missingTimes]

/-- Entry points merged over an object type. -/
theorem foldl_combine_entries {t : TypeDef} {interfaces : List String} {fields : List FieldDef}
    (h : t.body = .object interfaces fields) (entries : List FieldDef) :
    (entries.map fun f => Definition.type (Fragment.objectType t.name [f])).foldl
        (Merge.combine .fieldUnion t.name) (.type t) =
      .type { t with
        body := .object interfaces (Merge.nameMerge FieldDef.name fields entries) } := by
  obtain ⟨description, name, directives, body⟩ := t
  obtain rfl : body = _ := h
  induction entries generalizing fields with
  | nil => rfl
  | cons f rest ih =>
      have hfirst : Merge.combine .fieldUnion name
          (.type ⟨description, name, directives, .object interfaces fields⟩)
          (.type (Fragment.objectType name [f])) =
          .type ⟨description, name, directives,
            .object interfaces (Merge.putByName FieldDef.name f fields)⟩ := by
        simp [Merge.combine, Merge.fieldUnion, Definition.description, Definition.directives,
          Definition.interfaces, Definition.fields, Fragment.objectType, Merge.nameMerge]
      rw [List.map_cons, List.foldl_cons]
      dsimp only at ih ⊢
      rw [hfirst, ih]
      rfl

theorem type?_of_mem {working : Document} (hdistinct : (working.types.map (·.name)).Nodup)
    (options : Options) (descriptors : List Descriptor) {t : TypeDef} (ht : t ∈ working.types)
    {interfaces : List String} {fields : List FieldDef}
    (hbody : t.body = .object interfaces fields) :
    (Assembly.rootBasis working options descriptors).type? t.name = some t := by
  have htypes : ((Assembly.rootBasis working options descriptors).types.map (·.name)).Nodup :=
    hdistinct.sublist (List.filter_sublist.map _)
  rw [Basis.type?, find?_reverse_of_nodup htypes, find?_eq_some_of_nodup htypes]
  refine ⟨List.mem_filter.mpr ⟨ht, ?_⟩, rfl⟩
  rw [hbody]

theorem combine_overPrimitive {s : Sources} {p : Definition}
    (hp : p ∈ Primitives.definitions s.options.ns) {key : String} (hkey : Merge.key? p = some key)
    (d : Definition) :
    Merge.combine (Merge.policyOf (mergedPolicies s) key) key p d = s.overPrimitive p d := by
  rw [Sources.overPrimitive, hkey, policyOf_primitive hp hkey]
  dsimp only
  split <;> rfl

variable {s : Sources} {descriptors : List Descriptor} {generated : List (List Definition)}
  (hroots : s.roots.eraseDups.mapM (Assembly.describeRoot s.working s.options.selector) =
    .ok descriptors)
  (hwritten : s.working.Written)
  (hns : s.options.ns.toList.all isNameContinue)
  (hgenerated : Assembly.fragments (Assembly.rootBasis s.working s.options descriptors)
    descriptors = .ok generated)
  (hkeys : Merge.UniqueKeys s.working.definitions)
  (hapart : s.Apart)
  (hpages : ∀ root ∈ s.roots, ∀ name ∈ pageNames root,
    ¬ (RootNames.ofDocument s.working).Includes name)

include hroots

/-- The types of all pages are told apart by their names. -/
theorem eq_of_page {r r' : Descriptor} (hr : r ∈ descriptors) (hr' : r' ∈ descriptors)
    {page page' : TypeDef} (hpage : page ∈ Fragment.pageTypes s.options r)
    (hpage' : page' ∈ Fragment.pageTypes s.options r') (hname : page.name = page'.name) :
    page = page' := by
  have hnodup : (descriptors.map (·.typeName)).Nodup := by
    rw [typeNames_descriptors hroots]
    exact nodup_eraseDups s.roots
  have hsame : r.typeName = r'.typeName :=
    eq_of_mem_pageNames (mem_pageNames hpage) (hname ▸ mem_pageNames hpage')
  obtain rfl := List.inj_on_of_nodup_map hnodup hr hr' hsame
  have hpages : ((Fragment.pageTypes s.options r).map (·.name)).Nodup := nodup_pageNames _
  exact List.inj_on_of_nodup_map hpages hpage hpage' hname

include hwritten hns hgenerated

theorem mem_keyed_generated {key : String} (hinputs : ∀ t ∈ fragmentInputs generated, t.name ≠ key)
    {e : Definition} :
    e ∈ Merge.keyed key generated.flatten ↔ ∃ r ∈ descriptors, Merge.key? e = some key ∧
      e ∈ Fragment.outputs (Assembly.rootBasis s.working s.options descriptors) r := by
  rw [keyed_generated hroots hwritten hns hgenerated hinputs]
  simp [Merge.mem_keyed, and_comm]

include hapart hpages in
/-- Under the name of a page there is just the type of that page. -/
theorem overlaid_page {t page : TypeDef} {r : Descriptor} (hr : r ∈ descriptors)
    (hpage : page ∈ Fragment.pageTypes s.options r) (hname : page.name = t.name)
    (hinputs : ∀ u ∈ fragmentInputs generated, u.name ≠ t.name) :
    Merge.overlaid (mergedPolicies s) generated.flatten (.type t) = .type page := by
  have hroot : r.typeName ∈ s.roots := (mem_roots hroots).mpr ⟨r, hr, rfl⟩
  have hkeyPage : t.name ∈ pageNames r.typeName := hname ▸ mem_pageNames hpage
  have hrole := hpages r.typeName hroot t.name hkeyPage
  have hpolicy : Merge.policyOf (mergedPolicies s) t.name = .override :=
    policyOf_eq_override hrole
      (not_mem_standard_of_mem_pageNames (plain_descriptors hroots hwritten hr).typeName hkeyPage)
  have hmem := @mem_keyed_generated s descriptors generated hroots hwritten hns hgenerated _ hinputs
  rw [Merge.overlaid_of_key rfl, hpolicy]
  apply Merge.foldl_of_forall_eq
  · apply List.ne_nil_of_mem (a := .type page)
    refine hmem.mpr ⟨r, hr, congrArg some hname, ?_⟩
    exact List.mem_append_left _ (List.mem_map_of_mem (List.mem_append_left _ hpage))
  · intro e he
    obtain ⟨r', hr', hkey, he⟩ := hmem.mp he
    rcases Fragment.mem_outputs_of_key he hkey with
      ⟨page', hpage', hname', rfl⟩ | ⟨hincludes, -⟩ | ⟨hself, -⟩
    · rw [eq_of_page hroots hr' hr hpage' hpage (hname'.trans hname.symm)]
    · exact absurd hincludes hrole
    · have hroot' : r'.typeName ∈ s.roots := (mem_roots hroots).mpr ⟨r', hr', rfl⟩
      exact absurd (hself ▸ hkeyPage) (hapart.pages _ hroot' _ hroot)
  · rfl
  · rfl

section Root

variable (hdistinct : (s.working.types.map (·.name)).Nodup) {t : TypeDef}
  (ht : t ∈ s.working.types) {interfaces : List String} {fields : List FieldDef}
  (hbody : t.body = .object interfaces fields)

include hdistinct ht hbody

/-- Under the name of a root type that stands alone there is the type with its times at most. -/
theorem eq_of_mem_keyed_root (hstands : s.StandsAlone t.name) {e : Definition}
    (he : e ∈ Merge.keyed t.name generated.flatten) :
    e = .type { t with body := .object interfaces (fields ++ missingTimes fields) } := by
  have hinputs := fragmentInputs_of_declared hroots hwritten hns hgenerated (mem_types.mp ht) rfl
  obtain ⟨r, hr, hkey, he⟩ := (mem_keyed_generated hroots hwritten hns hgenerated hinputs).mp he
  rcases Fragment.mem_outputs_of_key he hkey with
    ⟨page, hpage, hname, -⟩ | ⟨hincludes, -⟩ | ⟨hself, u, -, htimed, rfl⟩
  · have hother : r.typeName ∈ s.roots := (mem_roots hroots).mpr ⟨r, hr, rfl⟩
    exact absurd (hname ▸ mem_pageNames hpage) (hstands.pages _ hother)
  · exact absurd hincludes hstands.role
  · obtain ⟨e, interfaces', fields', htype', hbody', -, rfl⟩ := withTimestamps_eq_some.mp htimed
    rw [hself, type?_of_mem hdistinct s.options descriptors ht hbody] at htype'
    obtain rfl := Option.some.inj htype'
    obtain ⟨rfl, rfl⟩ := TypeBody.object.inj (hbody.symm.trans hbody')
    rfl

/-- Times that a root type lacks are generated. -/
theorem mem_keyed_root (htimes : s.options.timestamps) (hroot : t.name ∈ s.roots)
    (hmissing : missingTimes fields ≠ []) :
    .type { t with body := .object interfaces (fields ++ missingTimes fields) } ∈
      Merge.keyed t.name generated.flatten := by
  have hinputs := fragmentInputs_of_declared hroots hwritten hns hgenerated (mem_types.mp ht) rfl
  obtain ⟨r, hr, hself⟩ := (mem_roots hroots).mp hroot
  have htype := type?_of_mem hdistinct s.options descriptors ht hbody
  have htimed : Fragment.withTimestamps (Assembly.rootBasis s.working s.options descriptors)
      r.typeName =
        some { t with body := .object interfaces (fields ++ missingTimes fields) } := by
    rw [hself]
    exact withTimestamps_eq_some.mpr ⟨t, interfaces, fields, htype, hbody, hmissing, rfl⟩
  have hasked : (Assembly.rootBasis s.working s.options descriptors).options.timestamps := htimes
  refine (mem_keyed_generated hroots hwritten hns hgenerated hinputs).mpr
    ⟨r, hr, rfl, List.mem_append_right _ ?_⟩
  rw [Fragment.augmented, if_pos hasked, htimed]
  exact List.mem_singleton_self _

/-- A root type gains the times that it lacks. -/
theorem overlaid_root (htimes : s.options.timestamps) (hroot : t.name ∈ s.roots)
    (hstands : s.StandsAlone t.name) :
    Merge.overlaid (mergedPolicies s) generated.flatten (.type t) =
      .type { t with body := .object interfaces (fields ++ missingTimes fields) } := by
  have hall : ∀ e ∈ Merge.keyed t.name generated.flatten,
      e = .type { t with body := .object interfaces (fields ++ missingTimes fields) } :=
    fun e => eq_of_mem_keyed_root hroots hwritten hns hgenerated hdistinct ht hbody hstands
  rw [Merge.overlaid_of_key rfl]
  by_cases hmissing : missingTimes fields = []
  · -- Whatever is merged over the root type is the root type itself.
    have hsame : ({ t with body := .object interfaces (fields ++ missingTimes fields) } : TypeDef) =
        t := by
      rw [hmissing, List.append_nil, ← hbody]
    rw [hsame] at hall ⊢
    cases hkeyed : Merge.keyed t.name generated.flatten with
    | nil => rfl
    | cons e rest =>
        rw [hkeyed] at hall
        exact Merge.foldl_of_forall_eq (List.cons_ne_nil _ _) hall (Merge.combine_self hbody)
          (Merge.combine_self hbody)
  · have hmem := mem_keyed_root hroots hwritten hns hgenerated hdistinct ht hbody htimes hroot
      hmissing
    exact Merge.foldl_of_forall_eq (List.ne_nil_of_mem hmem) hall (combine_timed hbody)
      (Merge.combine_self rfl)

end Root

include hapart hpages in
/-- An object type that serves the schema gains the entry points. -/
theorem overlaid_role {t : TypeDef} {interfaces : List String} {fields : List FieldDef}
    (hbody : t.body = .object interfaces fields) (hschema : t.name ≠ Merge.schemaKey)
    (hrole : (RootNames.ofDocument s.working).Includes t.name)
    (hinputs : ∀ u ∈ fragmentInputs generated, u.name ≠ t.name) :
    Merge.overlaid (mergedPolicies s) generated.flatten (.type t) =
      .type { t with
        body := .object interfaces
          (Merge.unitedByName FieldDef.name fields (s.entryFields t.name)) } := by
  have hkeyed : Merge.keyed t.name generated.flatten =
      (s.entryFields t.name).map fun f => .type (Fragment.objectType t.name [f]) := by
    rw [keyed_generated hroots hwritten hns hgenerated hinputs, Sources.entryFields,
      ← typeNames_descriptors hroots, List.flatMap_map, List.map_flatMap]
    refine List.flatMap_congr fun r hr => ?_
    have hroot : r.typeName ∈ s.roots := (mem_roots hroots).mpr ⟨r, hr, rfl⟩
    apply Fragment.keyed_outputs_of_role
    · intro hself
      exact hapart.roles _ hroot (hself ▸ hrole)
    · intro hpage
      exact hpages _ hroot _ hpage hrole
  rw [Merge.overlaid_of_key rfl, policyOf_root hschema hrole, hkeyed,
    foldl_combine_entries hbody, Merge.nameMerge_eq_unitedByName]

include hkeys hapart hpages in
/-- A definition under a declared key comes to what the schema keeps of it. -/
theorem keptAs_overlaid {base : Definition} {names : RootNames}
    (hbase : ∀ key, Merge.key? base = some key → ∃ d ∈ s.working.definitions,
      Merge.key? d = some key ∧ (¬ (RootNames.ofDocument s.working).Includes key → base = d))
    (hnames : ¬ (RootNames.ofDocument s.working).Includes Merge.schemaKey →
      names = RootNames.ofDocument s.working) :
    s.KeptAs descriptors base
      (completeDefinition names
        (Merge.overlaid (mergedPolicies s) generated.flatten base)) where
  key := by rw [key?_completeDefinition, Merge.key?_overlaid]
  page := by
    rintro t rfl r hr page hpage hname
    obtain ⟨d, hd, hkey, -⟩ := hbase t.name rfl
    rw [overlaid_page hroots hwritten hns hgenerated hapart hpages hr hpage hname
      (fragmentInputs_of_declared hroots hwritten hns hgenerated hd hkey)]
    rfl
  root := by
    rintro t interfaces fields rfl hbody htimes hroot
    obtain ⟨d, hd, hkey, hself⟩ := hbase t.name rfl
    obtain rfl := hself (hapart.roles _ hroot)
    rw [overlaid_root hroots hwritten hns hgenerated (nodup_types hkeys) (mem_types.mpr hd) hbody
      htimes hroot (hapart.standsAlone hkeys hroot)]
    rfl
  role := by
    rintro t interfaces fields rfl hbody hschema hrole
    obtain ⟨d, hd, hkey, -⟩ := hbase t.name rfl
    rw [overlaid_role hroots hwritten hns hgenerated hapart hpages hbody hschema hrole
      (fragmentInputs_of_declared hroots hwritten hns hgenerated hd hkey)]
    rfl
  schema := by
    rintro definition rfl hrole
    obtain ⟨d, hd, -, hself⟩ := hbase Merge.schemaKey rfl
    obtain rfl := hself hrole
    rw [Merge.overlaid_of_key rfl, keyed_schemaKey hroots hwritten hns hgenerated hkeys hd hrole,
      hnames hrole]
    refine congrArg (fun missing => Definition.schema
      { definition with roots := definition.roots ++ missing }) ?_
    refine List.filter_congr fun root _ => ?_
    rw [decide_not, List.contains_eq_mem]
  other := by
    intro hschema hother
    have hsame : Merge.overlaid (mergedPolicies s) generated.flatten base = base := by
      apply Merge.overlaid_of_isNew
      intro key hkey
      obtain ⟨d, hd, hdkey, -⟩ := hbase key hkey
      rw [← Merge.keyed_eq_nil]
      exact keyed_generated_eq_nil hroots hwritten hns hgenerated
        (fragmentInputs_of_declared hroots hwritten hns hgenerated hd hdkey) (hother key hkey)
    rw [hsame]
    cases base with
    | schema definition => exact absurd rfl (hschema definition)
    | _ => rfl

end Overlaid

/-! ## The assembled document -/

section Content

variable {sources : List Source} {s : Sources} {assembled : Assembled}
  (hgiven : ∀ d, .document d ∈ sources → d.Written)
  (hload : Assembly.workingDocument s.options.reading sources = .ok s.working)
  (hkeys : Merge.UniqueKeys s.working.definitions)
  (hapart : s.Apart)
  (hpages : ∀ root ∈ s.roots, ∀ name ∈ pageNames root,
    ¬ (RootNames.ofDocument s.working).Includes name)
  (hbuilt : Assembly.assemble sources s.roots s.options = .ok assembled)

include hgiven hload hkeys hapart hpages hbuilt

/-- An assembled document declares no key twice. The primitives come first, each with what the
consumer's definition of its key comes to; then what all other definitions of the consumer come to,
in their order; and then definitions of new keys. -/
theorem assembled_keeps :
    Merge.UniqueKeys assembled.document.definitions ∧
    ∃ front kept news,
      assembled.document.definitions = front ++ kept ++ news ∧
      List.Forall₂
        (fun p e => Merge.key? e = Merge.key? p ∧ ∀ d ∈ s.working.definitions,
          Merge.key? d = Merge.key? p →
            s.KeptAs assembled.descriptors (s.overPrimitive p d) e)
        (Primitives.definitions s.options.ns) front ∧
      List.Forall₂ (s.KeptAs assembled.descriptors)
        (s.working.definitions.filter (Merge.IsNew (Primitives.definitions s.options.ns))) kept ∧
      ∀ e ∈ news, ∃ key, Merge.key? e = some key ∧
        ¬ Merge.HasKey key (Primitives.definitions s.options.ns ++ s.working.definitions) := by
  have hwritten := workingDocument_written hgiven hload
  obtain ⟨hroots, hns, generated, merged, hgenerated, hmerged, hdocument⟩ :=
    assembleFrom_eq_ok (assembleFrom_of_assemble hload hbuilt)
  have hnames := ofDocument_merged hroots hwritten hns hgenerated hmerged hkeys
  have hunique : Merge.UniqueKeys assembled.document.definitions :=
    hdocument ▸ uniqueKeys_completeSchema (uniqueKeys_merged hmerged)
  have hdefinitions := hdocument ▸ definitions_completeSchema merged
  rw [merged_places hmerged hkeys] at hdefinitions
  simp only [List.map_append] at hdefinitions
  refine ⟨hunique, _, _, _, hdefinitions, ?_, ?_, ?_⟩
  · rw [List.map_map, List.forall₂_map_right_iff, List.forall₂_same]
    intro p hp
    refine ⟨by simp, fun d hd hkey => ?_⟩
    obtain ⟨rest, hpkey⟩ := key?_of_mem_primitives hp
    have hdkey := hkey.trans hpkey
    rw [Function.comp_apply, Merge.overlaid_append,
      Merge.overlaid_of_uniqueKeys hkeys hd hpkey hdkey, combine_overPrimitive hp hpkey]
    refine keptAs_overlaid hroots hwritten hns hgenerated hkeys hapart hpages ?_ hnames
    intro key hbase
    have hover : Merge.key? (s.overPrimitive p d) = some ("DataSource" ++ rest) := by
      rw [← combine_overPrimitive hp hpkey]
      exact Merge.key?_combine hdkey p
    obtain rfl : key = _ := Option.some.inj (hbase.symm.trans hover)
    refine ⟨d, hd, hdkey, fun hrole => ?_⟩
    simp [Sources.overPrimitive, hpkey, hrole]
  · rw [List.map_map, List.forall₂_map_right_iff, List.forall₂_same]
    intro d hd
    have hmem := (List.mem_filter.mp hd).1
    refine keptAs_overlaid hroots hwritten hns hgenerated hkeys hapart hpages ?_ hnames
    intro key hkey
    exact ⟨d, hmem, hkey, fun _ => rfl⟩
  · intro e he
    obtain ⟨e, hplaced, rfl⟩ := List.mem_map.mp he
    rw [key?_completeDefinition]
    rcases Merge.mem_placed hplaced with ⟨hkey, hmem⟩ | ⟨key, -, -, hkey, hnew, -⟩
    · obtain ⟨t, rfl⟩ := eq_type_of_mem_flatten hroots hwritten hns hgenerated hmem
      simp [Merge.key?, Definition.name?] at hkey
    · exact ⟨key, hkey, hnew⟩

end Content

/-- The widget stands in the assembled document with the times that it lacks. -/
theorem assembled_keeps_widget :
    (∀ d, .document d ∈ [Source.document sizedWidgets.working] → d.Written) ∧
    Assembly.workingDocument sizedWidgets.options.reading [.document sizedWidgets.working] =
      .ok sizedWidgets.working ∧
    Merge.UniqueKeys sizedWidgets.working.definitions ∧ sizedWidgets.Apart ∧
    (∀ root ∈ sizedWidgets.roots, ∀ name ∈ pageNames root,
      ¬ (RootNames.ofDocument sizedWidgets.working).Includes name) ∧
    ∃ assembled,
      Assembly.assemble [.document sizedWidgets.working] sizedWidgets.roots sizedWidgets.options =
        .ok assembled ∧
      .type timedWidget ∈ assembled.document.definitions := by
  have hkeys : Merge.UniqueKeys sizedWidgets.working.definitions := by decide
  have hapart : sizedWidgets.Apart := ⟨by decide, by decide⟩
  have hpages : ∀ root ∈ sizedWidgets.roots, ∀ name ∈ pageNames root,
      ¬ (RootNames.ofDocument sizedWidgets.working).Includes name := by
    decide
  obtain ⟨-, hbuilt⟩ := assemble_sizedWidgets
  obtain ⟨-, front, kept, news, hdefinitions, -, hkept, -⟩ :=
    assembled_keeps sizedWidgets_written load_sizedWidgets hkeys hapart hpages hbuilt
  refine ⟨sizedWidgets_written, load_sizedWidgets, hkeys, hapart, hpages, _, hbuilt, ?_⟩
  have hall : sizedWidgets.working.definitions.filter
      (Merge.IsNew (Primitives.definitions sizedWidgets.options.ns)) =
        sizedWidgets.working.definitions := by
    decide
  rw [hall] at hkept
  obtain ⟨e, rest, he, -, rfl⟩ := List.forall₂_cons_left_iff.mp hkept
  have hwidget : e = .type timedWidget :=
    he.root _ _ _ rfl rfl (by decide) (List.mem_singleton_self _)
  rw [hdefinitions, hwidget]
  simp

/-- Widgets whose queries are served by the type that describes a page. -/
def pagedWidgets : Sources where
  working := Document.ofDefinitions
    [ .schema ⟨none, [], [⟨.query, "DataSourcePageInfo"⟩]⟩,
      .type (Fragment.objectType "DataSourcePageInfo"
        [Fragment.plainField "total" [] (.named "Int"), Primitives.flagField "hasNextPage"]),
      .type (Fragment.objectType "Widget"
        [ Fragment.plainField "id" [] (.nonNull (.named "ID")),
          Fragment.plainField "name" [] (.named "String") ]) ]
  options := {}
  roots := ["Widget"]

def pagedDescriptor : Descriptor :=
  { typeName := "Widget"
    idName := "id"
    idType := .nonNull (.named (.scalar "ID"))
    fields := [⟨"name", .named (.scalar "String")⟩] }

/-- A primitive that serves the schema has its own fields first, so the consumer's definition of it
does not keep the order of its fields. -/
theorem assembled_reorders :
    Assembly.workingDocument pagedWidgets.options.reading [.document pagedWidgets.working] =
      .ok pagedWidgets.working ∧
    Merge.UniqueKeys pagedWidgets.working.definitions ∧ pagedWidgets.Apart ∧
    (∀ root ∈ pagedWidgets.roots, ∀ name ∈ pageNames root,
      ¬ (RootNames.ofDocument pagedWidgets.working).Includes name) ∧
    (RootNames.ofDocument pagedWidgets.working).Includes "DataSourcePageInfo" ∧
    ∃ assembled,
      Assembly.assemble [.document pagedWidgets.working] pagedWidgets.roots pagedWidgets.options =
        .ok assembled ∧
      ∀ e ∈ assembled.document.definitions, Merge.key? e = some "DataSourcePageInfo" →
        ¬ ["total", "hasNextPage"].Sublist (e.fields.map (·.name)) := by
  have hload : Assembly.workingDocument pagedWidgets.options.reading
      [.document pagedWidgets.working] = .ok pagedWidgets.working := rfl
  have hdescribed : pagedWidgets.roots.eraseDups.mapM
      (Assembly.describeRoot pagedWidgets.working pagedWidgets.options.selector) =
        .ok [pagedDescriptor] := rfl
  obtain ⟨-, hbuilt⟩ := assemble_singleton [⟨"Widget", .create⟩, ⟨"Widget", .update⟩] hload
    hdescribed (by decide) (by decide) (by decide) rfl (by decide) rfl (by decide)
  refine ⟨hload, by decide, ⟨by decide, by decide⟩, by decide, by decide, _, hbuilt, ?_⟩
  decide

end RecordApi
