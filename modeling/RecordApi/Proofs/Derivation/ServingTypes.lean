import RecordApi.Proofs.Derivation.Redescribed

/-!
# Types that serve requests

The fragments of all root types unite an object type with their entry points under the name of each
type that serves the schema. The types of pages stand under their names in the merged document,
unless another definition of a fragment has that name.
-/

namespace RecordApi

open RecordApi.Language

/-! ## Fields under a key -/

namespace Merge

/-- The fields of what a key stands for. -/
def fieldsOf (found : Option Definition) : List FieldDef :=
  (found.map (·.fields)).getD []

variable {table : PolicyTable} {key : String}

/-- Once a definition has been united under a key, the key stands for something good, if all that
comes of uniting under the key is good. -/
theorem exists_foldl_united (good : Definition → Prop) {definitions : List Definition}
    (hcombine : ∀ e ∈ definitions, key? e = some key → ∀ earlier,
      good (combine (policyOf table key) key earlier e))
    {d : Definition} (hd : d ∈ definitions) (hkey : key? d = some key) (hgood : good d)
    (found : Option Definition) :
    ∃ e, definitions.foldl (united table key) found = some e ∧ good e := by
  have hkept (behind : List Definition) (hbehind : ∀ e ∈ behind, e ∈ definitions) (e : Definition)
      (he : good e) : ∃ x, behind.foldl (united table key) (some e) = some x ∧ good x := by
    induction behind generalizing e with
    | nil => exact ⟨e, rfl, he⟩
    | cons x rest ih =>
        obtain ⟨hx, hrest⟩ := List.forall_mem_cons.mp hbehind
        rw [List.foldl_cons, united]
        split
        · next hxkey => exact ih hrest _ (hcombine x hx hxkey e)
        · exact ih hrest e he
  obtain ⟨front, behind, hsplit⟩ := List.append_of_mem hd
  have hbehind : ∀ e ∈ behind, e ∈ definitions := fun e he => by
    rw [hsplit]
    exact List.mem_append_right _ (List.mem_cons_of_mem _ he)
  rw [hsplit, List.foldl_append, List.foldl_cons]
  cases front.foldl (united table key) found with
  | none =>
      rw [united, if_pos hkey]
      exact hkept behind hbehind d hgood
  | some e =>
      rw [united, if_pos hkey]
      exact hkept behind hbehind _ (hcombine d hd hkey e)

/-- The last field of a name, among the fields of all definitions of a key, is the last one of the
name in what the key stands for. -/
theorem lastField_foldl_united (hpolicy : policyOf table key = .fieldUnion) (n : String)
    (definitions : List Definition)
    (found : Option Definition) :
    lastOfName? FieldDef.name n (fieldsOf (definitions.foldl (united table key) found)) =
      lastOfName? FieldDef.name n
        (fieldsOf found ++ (keyed key definitions).flatMap Definition.fields) := by
  induction definitions generalizing found with
  | nil => simp [keyed]
  | cons d rest ih =>
      rw [List.foldl_cons, ih]
      by_cases hd : key? d = some key
      · have hkeyed : keyed key (d :: rest) = d :: keyed key rest := by simp [keyed, hd]
        have hfields : lastOfName? FieldDef.name n (fieldsOf (united table key found d)) =
            lastOfName? FieldDef.name n (fieldsOf found ++ d.fields) := by
          cases found with
          | none => simp [united, hd, fieldsOf]
          | some e =>
              simp only [united, hd, if_true, hpolicy]
              exact lastOfName?_nameMerge n e.fields d.fields
        rw [hkeyed, List.flatMap_cons, ← List.append_assoc, lastOfName?_append, hfields,
          ← lastOfName?_append]
      · have hkeyed : keyed key (d :: rest) = keyed key rest := by simp [keyed, hd]
        have hsame : united table key found d = found := if_neg hd
        rw [hkeyed, hsame]

/-- What has been united under a key with an object type is an object type. -/
theorem isObject_foldl_united (hpolicy : policyOf table key = .fieldUnion)
    {definitions : List Definition} {t : TypeDef} {interfaces : List String}
    {fields : List FieldDef} (hmem : .type t ∈ definitions) (hkey : t.name = key)
    (hbody : t.body = .object interfaces fields) (found : Option Definition) :
    ∃ u allInterfaces allFields, definitions.foldl (united table key) found = some (.type u) ∧
      u.body = .object allInterfaces allFields := by
  have hcombine (e : Definition) (_ : e ∈ definitions) (_ : key? e = some key)
      (earlier : Definition) : ∃ u allInterfaces allFields,
        combine (policyOf table key) key earlier e = .type u ∧
          u.body = .object allInterfaces allFields := by
    rw [hpolicy]
    exact ⟨_, _, _, rfl, rfl⟩
  obtain ⟨_, hstands, u, allInterfaces, allFields, rfl, hobject⟩ :=
    exists_foldl_united
      (fun e => ∃ u allInterfaces allFields, e = .type u ∧
        u.body = .object allInterfaces allFields)
      hcombine hmem (congrArg some hkey) ⟨t, interfaces, fields, rfl, hbody⟩ found
  exact ⟨u, allInterfaces, allFields, hstands, hobject⟩

end Merge

section Generated

variable {s : Sources} {descriptors : List Descriptor} {generated : List (List Definition)}
  (hroots : s.roots.eraseDups.mapM (Assembly.describeRoot s.working s.options.selector) =
    .ok descriptors)
  (hwritten : s.working.Written)
  (hns : s.options.ns.toList.all isNameContinue)
  (hgenerated : Assembly.fragments (Assembly.rootBasis s.working s.options descriptors)
    descriptors = .ok generated)

include hroots hwritten hns hgenerated

/-- What a fragment holds behind its input types is generated. -/
theorem mem_generated {r : Descriptor} (hr : r ∈ descriptors) {e : Definition}
    (he : e ∈ Fragment.outputs (Assembly.rootBasis s.working s.options descriptors) r) :
    e ∈ generated.flatten := by
  obtain ⟨parts, hlength, rfl, -⟩ := exists_grown hroots hwritten hns hgenerated
  obtain ⟨i, hi, rfl⟩ := List.mem_iff_getElem.mp hr
  refine List.mem_flatten.mpr
    ⟨_, List.mem_iff_getElem.mpr ⟨i, by simpa [hlength] using hi, rfl⟩, ?_⟩
  rw [List.getElem_zipWith, Fragment.ofPairs, List.map_append, List.append_assoc]
  exact List.mem_append_right _ he

/-- The entry points of every root type are generated. -/
theorem entry_mem_generated {key : String} (hrole : (RootNames.ofDocument s.working).Includes key)
    {root : String} (hroot : root ∈ s.roots) :
    ∃ f, f.name = Naming.lowerCamel root ∧
      .type (Fragment.objectType key [f]) ∈ generated.flatten := by
  obtain ⟨r, hr, rfl⟩ := (mem_roots hroots).mp hroot
  have hentry (t : TypeDef) (ht : t ∈ Fragment.entryPoints (RootNames.ofDocument s.working)
      r.typeName) : .type t ∈ generated.flatten := by
    refine mem_generated hroots hwritten hns hgenerated hr ?_
    rw [Fragment.outputs, Fragment.outputTypes_eq, List.map_append]
    exact List.mem_append_left _ (List.mem_append_right _ (List.mem_map_of_mem ht))
  rcases hrole with rfl | rfl
  · exact ⟨_, rfl, hentry _ List.mem_cons_self⟩
  · exact ⟨_, rfl, hentry _ (List.mem_cons_of_mem _ List.mem_cons_self)⟩

variable {merged : Document}
  (hmerged : Merge.mergeDocuments (mergedPolicies s) (mergedDocuments s generated) = .ok merged)

include hmerged

/-- A type that serves the schema is an object type in the merged document. For every name it has
the last field among those that all definitions of its key give it. -/
theorem find?_role {key : String} (hschema : key ≠ Merge.schemaKey)
    (hrole : (RootNames.ofDocument s.working).Includes key) (hne : s.roots ≠ []) :
    ∃ t interfaces fields, merged.definitions.find? (Merge.key? · == some key) = some (.type t) ∧
      t.body = .object interfaces fields ∧ ∀ name,
        Merge.lastOfName? FieldDef.name name fields = Merge.lastOfName? FieldDef.name name
          (Merge.fieldsOf
              ((Primitives.definitions s.options.ns).find? (Merge.key? · == some key)) ++
            (Merge.keyed key (s.working.definitions ++ generated.flatten)).flatMap
              Definition.fields) := by
  have hpolicy := policyOf_root hschema hrole
  obtain ⟨root, hroot⟩ := List.exists_mem_of_ne_nil _ hne
  obtain ⟨f, -, hf⟩ := entry_mem_generated hroots hwritten hns hgenerated hrole hroot
  obtain ⟨t, interfaces, fields, hstands, hbody⟩ := Merge.isObject_foldl_united hpolicy
    (List.mem_append_right s.working.definitions hf) rfl rfl
    ((Primitives.definitions s.options.ns).find? (Merge.key? · == some key))
  refine ⟨t, interfaces, fields, (find?_merged hmerged key).trans hstands, hbody, fun name => ?_⟩
  have hlast := Merge.lastField_foldl_united hpolicy name
    (s.working.definitions ++ generated.flatten)
    ((Primitives.definitions s.options.ns).find? (Merge.key? · == some key))
  rw [hstands] at hlast
  rw [← hlast]
  obtain ⟨_, _, _, body⟩ := t
  obtain rfl : body = _ := hbody
  rfl

/-- A type that serves the schema has a field for every root type. -/
theorem typeNamed?_role {key : String} (hschema : key ≠ Merge.schemaKey)
    (hrole : (RootNames.ofDocument s.working).Includes key) (hne : s.roots ≠ []) :
    ∃ t interfaces fields, merged.typeNamed? key = some t ∧ t.body = .object interfaces fields ∧
      ∀ root ∈ s.roots, Merge.HasName FieldDef.name (Naming.lowerCamel root) fields := by
  obtain ⟨t, interfaces, fields, hfind, hbody, hlast⟩ :=
    find?_role hroots hwritten hns hgenerated hmerged hschema hrole hne
  refine ⟨t, interfaces, fields, typeNamed?_of_find? hfind, hbody, fun root hroot => ?_⟩
  obtain ⟨f, hname, hf⟩ := entry_mem_generated hroots hwritten hns hgenerated hrole hroot
  by_contra hlacks
  rw [← Merge.lastOfName?_eq_none, hlast, Merge.lastOfName?_eq_none] at hlacks
  have hkeyed : .type (Fragment.objectType key [f]) ∈
      Merge.keyed key (s.working.definitions ++ generated.flatten) :=
    Merge.mem_keyed.mpr ⟨List.mem_append_right _ hf, rfl⟩
  exact hlacks ⟨f, List.mem_append_right _ (List.mem_flatMap.mpr
    ⟨_, hkeyed, List.mem_singleton_self f⟩), hname⟩

/-- A schema definition gives way to an entry point of its key. -/
theorem typeNamed?_schemaKey (hrole : (RootNames.ofDocument s.working).Includes Merge.schemaKey)
    (hne : s.roots ≠ []) : (merged.typeNamed? Merge.schemaKey).isSome := by
  obtain ⟨root, hroot⟩ := List.exists_mem_of_ne_nil _ hne
  obtain ⟨f, -, hf⟩ := entry_mem_generated hroots hwritten hns hgenerated hrole hroot
  have hfind := find?_merged hmerged Merge.schemaKey
  rw [List.foldl_append] at hfind
  generalize s.working.definitions.foldl _ _ = found at hfind
  obtain ⟨_, hstands, t, rfl⟩ : ∃ e,
      generated.flatten.foldl (Merge.united (mergedPolicies s) Merge.schemaKey) found = some e ∧
        ∃ t, e = .type t :=
    Merge.exists_foldl_united (fun e => ∃ t, e = .type t)
      (fun e he _ _ => combine_type (eq_type_of_mem_flatten hroots hwritten hns hgenerated he))
      hf rfl ⟨_, rfl⟩ found
  rw [typeNamed?_of_find? (hfind.trans hstands)]
  rfl

/-- A type of a page stands under its name, unless that is the name of a root type or of a type that
serves the schema. -/
theorem typeNamed?_page {r : Descriptor} (hr : r ∈ descriptors) {page : TypeDef}
    (hpage : page ∈ Fragment.pageTypes s.options r) (hroot : page.name ∉ s.roots)
    (hrole : ¬ (RootNames.ofDocument s.working).Includes page.name) :
    merged.typeNamed? page.name = some page := by
  have hname := mem_pageNames hpage
  have hpolicy : Merge.policyOf (mergedPolicies s) page.name = .override :=
    policyOf_eq_override hrole
      (not_mem_standard_of_mem_pageNames (plain_descriptors hroots hwritten hr).typeName hname)
  have hinputs : ∀ t ∈ fragmentInputs generated, t.name ≠ page.name := by
    intro t ht hsame
    obtain ⟨p, hp, -⟩ := inputName_of_mem_fragmentInputs hroots hwritten hns hgenerated ht
    rw [← hsame, hp] at hname
    exact inputName_not_mem_pageNames p.mode p.typeName r.typeName hname
  have hmem : .type page ∈ generated.flatten := by
    refine mem_generated hroots hwritten hns hgenerated hr ?_
    exact List.mem_append_left _ (List.mem_map_of_mem (List.mem_append_left _ hpage))
  apply typeNamed?_of_find?
  rw [find?_merged hmerged, List.foldl_append]
  refine Merge.foldl_united_of_last hpolicy rfl (fun e he hkey => ?_) (.inr hmem)
  obtain ⟨r', hr', -, he⟩ := (mem_keyed_generated hroots hwritten hns hgenerated hinputs).mp
    (Merge.mem_keyed.mpr ⟨he, hkey⟩)
  rcases Fragment.mem_outputs_of_key he hkey with
    ⟨other, hother, hsame, rfl⟩ | ⟨hincludes, -⟩ | ⟨hself, -⟩
  · rw [eq_of_page hroots hr' hr hother hpage hsame]
  · exact absurd hincludes hrole
  · exact absurd ((mem_roots hroots).mpr ⟨r', hr', hself⟩) hroot

end Generated

end RecordApi
