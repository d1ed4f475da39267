import RecordApi.Proofs.Derivation.EntryPoints

/-!
# Assembling an assembled document

An assembled document is assembled to itself. What its fragments hold has been merged before, under
the same policies, and merging over the same places twice is merging over them once. That a type
which serves the schema has a name of its own cannot be left out: three documents, in which it is
called like something else, are not assembled to themselves.
-/

namespace RecordApi

open RecordApi.Language

/-- The names of the primitives that are no object types. -/
def Primitives.leaves (ns : String) : List String :=
  [filterInput ns, filterOperation ns, orderInput ns]

theorem Fragment.exists_entryPoint {roots : RootNames} {name : String} (h : roots.Includes name)
    (typeName : String) : ∃ t ∈ entryPoints roots typeName, t.name = name := by
  rcases h with rfl | rfl
  · exact ⟨_, List.mem_cons_self, rfl⟩
  · exact ⟨_, List.mem_cons_of_mem _ List.mem_cons_self, rfl⟩

/-! ## Merging again -/

/-- Whether a definition is an object type of a name. -/
def IsObjectOf (name : String) (d : Definition) : Prop :=
  ∃ t interfaces fields, d = .type t ∧ t.name = name ∧ t.body = .object interfaces fields

theorem foldl_combine_object {policy : MergePolicy} {key : String} {d : Definition}
    {later : List Definition} (hd : IsObjectOf key d) (hlater : ∀ e ∈ later, IsObjectOf key e) :
    IsObjectOf key (later.foldl (Merge.combine policy key) d) := by
  induction later generalizing d with
  | nil => exact hd
  | cons e rest ih =>
      obtain ⟨he, hrest⟩ := List.forall_mem_cons.mp hlater
      apply ih _ hrest
      cases policy with
      | override => exact he
      | fieldUnion => exact ⟨_, _, _, rfl, rfl, rfl⟩

theorem combine_object {policy : MergePolicy} {key : String} {d : Definition}
    (h : IsObjectOf key d) : Merge.combine policy key d d = d := by
  obtain ⟨t, interfaces, fields, rfl, rfl, hbody⟩ := h
  exact Merge.combine_self hbody

theorem isObjectOf_outputTypes {basis : Basis} {d : Descriptor} {e : Definition} {key : String}
    (he : e ∈ (Fragment.outputTypes basis d).map .type) (hkey : Merge.key? e = some key) :
    IsObjectOf key e := by
  obtain ⟨t, ht, rfl⟩ := List.mem_map.mp he
  have hobject : ∃ interfaces fields, t.body = .object interfaces fields := by
    simp only [Fragment.outputTypes, Fragment.entryPoints, List.mem_append, List.mem_cons,
      List.not_mem_nil, or_false] at ht
    rcases ht with (rfl | rfl | rfl | rfl) | rfl | rfl <;> exact ⟨_, _, rfl⟩
  obtain ⟨interfaces, fields, hbody⟩ := hobject
  exact ⟨t, interfaces, fields, rfl, Option.some.inj hkey, hbody⟩

theorem completeDefinition_of_key (names : RootNames) {d : Definition} {key : String}
    (h : Merge.key? d = some key) (hkey : key ≠ Merge.schemaKey) :
    completeDefinition names d = d := by
  cases d with
  | schema definition => exact absurd (Option.some.inj h).symm hkey
  | _ => rfl

section Merging

variable {s : Sources} {descriptors : List Descriptor} {generated : List (List Definition)}
  {merged : Document}
  (hroots : s.roots.eraseDups.mapM (Assembly.describeRoot s.working s.options.selector) =
    .ok descriptors)
  (hwritten : s.working.Written)
  (hns : s.options.ns.toList.all isNameContinue)
  (hgenerated : Assembly.fragments (Assembly.rootBasis s.working s.options descriptors)
    descriptors = .ok generated)
  (hmerged : Merge.mergeDocuments (mergedPolicies s) (mergedDocuments s generated) = .ok merged)
  (hkeys : Merge.UniqueKeys s.working.definitions)
  (hapart : s.Apart)
  (hinputs : ∀ t ∈ fragmentInputs generated, ¬ (RootNames.ofDocument s.working).Includes t.name)

include hroots in
/-- What the outputs hold under a key is a page or an entry point. -/
theorem mem_keyed_outputs {key : String} {e : Definition}
    (h : e ∈ Merge.keyed key (s.outputs descriptors).flatten) :
    IsObjectOf key e ∧ ((∃ root ∈ s.roots, key ∈ pageNames root) ∨
      (RootNames.ofDocument s.working).Includes key) := by
  obtain ⟨he, hkey⟩ := Merge.mem_keyed.mp h
  obtain ⟨part, hpart, he⟩ := List.mem_flatten.mp he
  obtain ⟨d, hd, rfl⟩ := List.mem_map.mp hpart
  refine ⟨isObjectOf_outputTypes he hkey, ?_⟩
  rw [Fragment.outputTypes_eq, List.map_append, List.mem_append] at he
  obtain hpage | hentry := he
  · left
    obtain ⟨page, hmem, rfl⟩ := List.mem_map.mp hpage
    obtain rfl : page.name = key := Option.some.inj hkey
    exact ⟨d.typeName, (mem_roots hroots).mpr ⟨d, hd, rfl⟩, mem_pageNames hmem⟩
  · right
    obtain ⟨t, ht, rfl⟩ := List.mem_map.mp hentry
    obtain rfl : t.name = key := Option.some.inj hkey
    simp only [Fragment.entryPoints, List.mem_cons, List.not_mem_nil, or_false] at ht
    rcases ht with rfl | rfl
    · exact .inl rfl
    · exact .inr rfl

include hroots hwritten hns hgenerated hapart hinputs

/-- Where the outputs hold anything, the fragments have held just that. -/
theorem keyed_again {key : String} (h : Merge.keyed key (s.outputs descriptors).flatten ≠ []) :
    Merge.keyed key (s.outputs descriptors).flatten = Merge.keyed key generated.flatten := by
  obtain ⟨e, he⟩ := List.exists_mem_of_ne_nil _ h
  obtain ⟨-, hwhere⟩ := mem_keyed_outputs hroots he
  have hnone : ∀ t ∈ fragmentInputs generated, t.name ≠ key := by
    intro t ht
    rintro rfl
    rcases hwhere with ⟨root, -, hpage⟩ | hrole
    · obtain ⟨p, hname, -⟩ := inputName_of_mem_fragmentInputs hroots hwritten hns hgenerated ht
      rw [hname] at hpage
      exact inputName_not_mem_pageNames p.mode p.typeName root hpage
    · exact hinputs t ht hrole
  rw [keyed_generated hroots hwritten hns hgenerated hnone, Sources.outputs, ← List.flatMap_def,
    Merge.keyed, List.filter_flatMap]
  refine List.flatMap_congr fun d hd => ?_
  have hroot : d.typeName ∈ s.roots := (mem_roots hroots).mpr ⟨d, hd, rfl⟩
  have hother : d.typeName ≠ key := by
    rintro rfl
    rcases hwhere with ⟨root, hmem, hpage⟩ | hrole
    · exact hapart.pages _ hroot _ hmem hpage
    · exact hapart.roles _ hroot hrole
  rw [Fragment.keyed_outputs hother]
  rfl

/-- The outputs change nothing that the fragments have been merged over. -/
theorem overlaid_again (d : Definition) :
    Merge.overlaid (mergedPolicies s) (s.outputs descriptors).flatten
        (Merge.overlaid (mergedPolicies s) generated.flatten d) =
      Merge.overlaid (mergedPolicies s) generated.flatten d := by
  cases hkey : Merge.key? d with
  | none => rw [Merge.overlaid_of_extension ((Merge.key?_overlaid _ d).trans hkey)]
  | some key =>
      have hover : Merge.key? (Merge.overlaid (mergedPolicies s) generated.flatten d) = some key :=
        (Merge.key?_overlaid _ d).trans hkey
      by_cases h : Merge.keyed key (s.outputs descriptors).flatten = []
      · rw [Merge.overlaid_of_key hover, h]
        rfl
      · have hsame := keyed_again hroots hwritten hns hgenerated hapart hinputs h
        rw [Merge.overlaid_of_key hover, hsame, ← Merge.overlaid_of_key hover,
          Merge.overlaid_overlaid]

/-- The outputs change nothing that the fragments have brought. -/
theorem overlaid_placed {e : Definition}
    (he : e ∈ Merge.placed (Merge.policyOf (mergedPolicies s))
      (Primitives.definitions s.options.ns ++ s.working.definitions) generated.flatten) :
    Merge.overlaid (mergedPolicies s) (s.outputs descriptors).flatten e = e := by
  rcases Merge.mem_placed he with ⟨hkey, -⟩ | ⟨key, d, rest, hkey, -, hkeyed, rfl⟩
  · exact Merge.overlaid_of_extension hkey _
  · rw [Merge.overlaid_of_key hkey]
    by_cases h : Merge.keyed key (s.outputs descriptors).flatten = []
    · rw [h]
      rfl
    · have hsame := keyed_again hroots hwritten hns hgenerated hapart hinputs h
      have hobjects : ∀ e ∈ d :: rest, IsObjectOf key e := by
        intro e he
        rw [← hkeyed, ← hsame] at he
        exact (mem_keyed_outputs hroots he).1
      obtain ⟨hd, hrest⟩ := List.forall_mem_cons.mp hobjects
      rw [hsame, hkeyed, Merge.foldl_combine_cons]
      exact combine_object (foldl_combine_object hd hrest)

omit hapart in
/-- A primitive may be merged with what stands in its place once more. Where nothing stands there
but itself and it serves the schema, it must be an object type. -/
theorem combine_primitive {p : Definition} (hp : p ∈ Primitives.definitions s.options.ns)
    {key : String} (hkey : Merge.key? p = some key)
    (hempty : s.roots = [] → ∀ name ∈ Primitives.leaves s.options.ns,
      ¬ Merge.HasKey name s.working.definitions →
        ¬ (RootNames.ofDocument s.working).Includes name) :
    Merge.combine (Merge.policyOf (mergedPolicies s) key) key p
        (Merge.overlaid (mergedPolicies s) (s.working.definitions ++ generated.flatten) p) =
      Merge.overlaid (mergedPolicies s) (s.working.definitions ++ generated.flatten) p := by
  rw [Merge.overlaid_of_key hkey]
  cases hlater : Merge.keyed key (s.working.definitions ++ generated.flatten) with
  | cons e rest => rw [Merge.foldl_combine_cons, Merge.combine_combine_left]
  | nil =>
      rw [Merge.keyed_append, List.append_eq_nil_iff] at hlater
      obtain ⟨hworking, hfragments⟩ := hlater
      rw [List.foldl_nil, policyOf_primitive hp hkey]
      split
      · next hrole =>
          have hnone : ∀ t ∈ fragmentInputs generated, t.name ≠ key := by
            rintro t ht rfl
            exact hinputs t ht hrole
          -- An entry point would have been merged over the primitive.
          have hroot : s.roots = [] := by
            by_contra hsome
            obtain ⟨root, hroot⟩ := List.exists_mem_of_ne_nil _ hsome
            obtain ⟨d, hd, -⟩ := (mem_roots hroots).mp hroot
            obtain ⟨t, ht, hname⟩ := Fragment.exists_entryPoint hrole d.typeName
            have hmem : .type t ∈ Merge.keyed key generated.flatten := by
              refine (mem_keyed_generated hroots hwritten hns hgenerated hnone).mpr
                ⟨d, hd, congrArg some hname, ?_⟩
              exact List.mem_append_left _ (List.mem_map_of_mem (List.mem_append_right _ ht))
            simp [hfragments] at hmem
          have hleaf (h : key ∈ Primitives.leaves s.options.ns) : False :=
            hempty hroot key h (Merge.keyed_eq_nil.mp hworking) hrole
          simp only [Primitives.definitions, List.mem_cons, List.not_mem_nil, or_false] at hp
          rcases hp with rfl | rfl | rfl | rfl
          · obtain rfl := Option.some.inj hkey
            exact absurd (by simp [Primitives.leaves]) hleaf
          · obtain rfl := Option.some.inj hkey
            exact absurd (by simp [Primitives.leaves]) hleaf
          · obtain rfl := Option.some.inj hkey
            exact absurd (by simp [Primitives.leaves]) hleaf
          · obtain rfl := Option.some.inj hkey
            exact Merge.combine_self rfl
      · rfl

omit hwritten hns hgenerated hapart hinputs in
/-- Nothing is merged over a schema definition, so it may be completed before the outputs are
merged or after. -/
theorem overlaid_completeDefinition
    (hschema : ¬ (RootNames.ofDocument s.working).Includes Merge.schemaKey) {e : Definition}
    (he : Merge.overlaid (mergedPolicies s) (s.outputs descriptors).flatten e = e)
    (names : RootNames) :
    Merge.overlaid (mergedPolicies s) (s.outputs descriptors).flatten
      (completeDefinition names e) = completeDefinition names e := by
  cases e with
  | schema definition =>
      have hnone : Merge.keyed Merge.schemaKey (s.outputs descriptors).flatten = [] := by
        rw [Merge.keyed_eq_nil]
        rintro ⟨e, he, hkey⟩
        rcases (mem_keyed_outputs hroots (Merge.mem_keyed.mpr ⟨he, hkey⟩)).2 with
          ⟨root, -, hpage⟩ | hrole
        · exact schemaKey_not_mem_pageNames root hpage
        · exact hschema hrole
      rw [completeDefinition, Merge.overlaid_of_key rfl, hnone]
      rfl
  | _ => exact he

include hmerged

omit hwritten hns hgenerated hroots hapart hinputs in
theorem hasKey_completeSchema {key : String} {d : Definition} (hd : d ∈ generated.flatten)
    (hkey : Merge.key? d = some key) :
    Merge.HasKey key (Assembly.completeSchema merged).definitions := by
  have hhas : Merge.HasKey key merged.definitions := by
    rw [merged_definitions hmerged, Merge.hasKey_foldl_add]
    exact .inl ⟨d, List.mem_append_right _ hd, hkey⟩
  obtain ⟨e, he, hekey⟩ := hhas
  refine ⟨completeDefinition (RootNames.ofDocument merged) e, ?_, ?_⟩
  · rw [definitions_completeSchema]
    exact List.mem_map_of_mem he
  · rwa [key?_completeDefinition]

/-- The outputs bring nothing that an assembled document does not have. -/
theorem placed_outputs (before : List Definition) :
    Merge.placed (Merge.policyOf (mergedPolicies s))
      (before ++ (Assembly.completeSchema merged).definitions) (s.outputs descriptors).flatten =
        [] := by
  apply Merge.placed_eq_nil
  intro d hd
  obtain ⟨key, hkey⟩ : ∃ key, Merge.key? d = some key := by
    obtain ⟨part, hpart, hd⟩ := List.mem_flatten.mp hd
    obtain ⟨r, -, rfl⟩ := List.mem_map.mp hpart
    obtain ⟨t, -, rfl⟩ := List.mem_map.mp hd
    exact ⟨t.name, rfl⟩
  have hmem : d ∈ Merge.keyed key (s.outputs descriptors).flatten :=
    Merge.mem_keyed.mpr ⟨hd, hkey⟩
  rw [keyed_again hroots hwritten hns hgenerated hapart hinputs (List.ne_nil_of_mem hmem)] at hmem
  exact ⟨key, hkey, Merge.hasKey_append.mpr
    (.inr (hasKey_completeSchema hmerged (Merge.mem_keyed.mp hmem).1 hkey))⟩

include hkeys

/-- What stands in the place of a primitive is what it comes to again. -/
theorem overlaid_primitive_again {p : Definition} (hp : p ∈ Primitives.definitions s.options.ns)
    (hempty : s.roots = [] → ∀ name ∈ Primitives.leaves s.options.ns,
      ¬ Merge.HasKey name s.working.definitions →
        ¬ (RootNames.ofDocument s.working).Includes name) :
    Merge.overlaid (mergedPolicies s)
        ((Assembly.completeSchema merged).definitions ++ (s.outputs descriptors).flatten) p =
      completeDefinition (RootNames.ofDocument merged)
        (Merge.overlaid (mergedPolicies s) (s.working.definitions ++ generated.flatten) p) := by
  obtain ⟨rest, hkey⟩ := key?_of_mem_primitives hp
  have hover : Merge.key? (Merge.overlaid (mergedPolicies s)
      (s.working.definitions ++ generated.flatten) p) = some ("DataSource" ++ rest) :=
    (Merge.key?_overlaid _ p).trans hkey
  have hsame := completeDefinition_of_key (RootNames.ofDocument merged) hover
    (primitiveKey_ne (by decide))
  have hmem : Merge.overlaid (mergedPolicies s) (s.working.definitions ++ generated.flatten) p ∈
      (Assembly.completeSchema merged).definitions := by
    rw [definitions_completeSchema]
    refine List.mem_map.mpr ⟨_, ?_, hsame⟩
    rw [merged_places hmerged hkeys]
    exact List.mem_append_left _ (List.mem_append_left _ (List.mem_map_of_mem hp))
  have hunique := uniqueKeys_completeSchema (uniqueKeys_merged hmerged)
  rw [hsame, Merge.overlaid_append, Merge.overlaid_of_uniqueKeys hunique hmem hkey hover,
    combine_primitive hroots hwritten hns hgenerated hinputs hp hkey hempty,
    Merge.overlaid_append, overlaid_again hroots hwritten hns hgenerated hapart hinputs]

/-- The definitions of a merged document behind those in the places of the primitives have keys of
their own, and the outputs change none of them. -/
theorem exists_behind :
    ∃ behind,
      merged.definitions =
        (Primitives.definitions s.options.ns).map
          (Merge.overlaid (mergedPolicies s) (s.working.definitions ++ generated.flatten)) ++
            behind ∧
      ∀ e ∈ behind, Merge.IsNew (Primitives.definitions s.options.ns) e ∧
        Merge.overlaid (mergedPolicies s) (s.outputs descriptors).flatten e = e := by
  refine ⟨_, (merged_places hmerged hkeys).trans (List.append_assoc _ _ _), fun e he => ?_⟩
  rcases List.mem_append.mp he with hkept | hnews
  · obtain ⟨d, hd, rfl⟩ := List.mem_map.mp hkept
    have hnew : Merge.IsNew (Primitives.definitions s.options.ns) d := by
      simpa using (List.mem_filter.mp hd).2
    constructor
    · intro key hkey
      rw [Merge.key?_overlaid] at hkey
      exact hnew key hkey
    · exact overlaid_again hroots hwritten hns hgenerated hapart hinputs d
  · constructor
    · intro key hkey
      rcases Merge.mem_placed hnews with ⟨hnone, -⟩ | ⟨other, -, -, hother, hnew, -⟩
      · simp [hnone] at hkey
      · obtain rfl : other = key := Option.some.inj (hother.symm.trans hkey)
        exact fun hhas => hnew (Merge.hasKey_append.mpr (.inl hhas))
    · exact overlaid_placed hroots hwritten hns hgenerated hapart hinputs hnews

/-- An assembled document is what it is merged to with the outputs of its fragments. -/
theorem merged_again
    (hschema : ¬ (RootNames.ofDocument s.working).Includes Merge.schemaKey)
    (hempty : s.roots = [] → ∀ name ∈ Primitives.leaves s.options.ns,
      ¬ Merge.HasKey name s.working.definitions →
        ¬ (RootNames.ofDocument s.working).Includes name) :
    ((Assembly.completeSchema merged).definitions ++ (s.outputs descriptors).flatten).foldl
        (Merge.add (mergedPolicies s)) (Primitives.definitions s.options.ns) =
      (Assembly.completeSchema merged).definitions := by
  have hunique := uniqueKeys_completeSchema (uniqueKeys_merged hmerged)
  obtain ⟨behind, hplaces, hbehind⟩ :=
    exists_behind hroots hwritten hns hgenerated hmerged hkeys hapart hinputs
  have hdefinitions : (Assembly.completeSchema merged).definitions =
      (Primitives.definitions s.options.ns).map (fun p =>
        completeDefinition (RootNames.ofDocument merged) (Merge.overlaid (mergedPolicies s)
          (s.working.definitions ++ generated.flatten) p)) ++
        behind.map (completeDefinition (RootNames.ofDocument merged)) := by
    rw [definitions_completeSchema, hplaces, List.map_append, List.map_map]
    rfl
  have hfilter : (Assembly.completeSchema merged).definitions.filter
      (Merge.IsNew (Primitives.definitions s.options.ns)) =
      behind.map (completeDefinition (RootNames.ofDocument merged)) := by
    rw [hdefinitions, List.filter_append, List.filter_eq_nil_iff.mpr, List.nil_append,
      List.filter_eq_self]
    · intro e he
      obtain ⟨d, hd, rfl⟩ := List.mem_map.mp he
      simpa [Merge.IsNew] using (hbehind d hd).1
    · intro e he hnew
      obtain ⟨p, hp, rfl⟩ := List.mem_map.mp he
      obtain ⟨rest, hkey⟩ := key?_of_mem_primitives hp
      rw [decide_eq_true_iff] at hnew
      exact hnew _ (by simpa using hkey) ⟨p, hp, hkey⟩
  have hfront := List.map_congr_left fun p hp =>
    overlaid_primitive_again hroots hwritten hns hgenerated hmerged hkeys hapart hinputs hp hempty
  have hkept : (behind.map (completeDefinition (RootNames.ofDocument merged))).map
      (Merge.overlaid (mergedPolicies s) (s.outputs descriptors).flatten) =
        behind.map (completeDefinition (RootNames.ofDocument merged)) := by
    rw [List.map_map]
    exact List.map_congr_left fun e he =>
      overlaid_completeDefinition hroots hschema (hbehind e he).2 _
  rw [Merge.foldl_add_eq_overlaid (uniqueKeys_primitives _),
    Merge.placed_append_of_uniqueKeys hunique,
    placed_outputs hroots hwritten hns hgenerated hmerged hapart hinputs, List.append_nil, hfilter,
    hkept, hfront, hdefinitions]

end Merging

/-! ## The assembled document -/

theorem mergedPolicies_congr {s s' : Sources}
    (h : RootNames.ofDocument s'.working = RootNames.ofDocument s.working) :
    mergedPolicies s' = mergedPolicies s := by
  simp [mergedPolicies, Assembly.rootPolicies, h]

theorem workingDocument_singleton {document : Document} (h : Merge.Named document)
    (hplaced : document.placed = false) (reading : ReadOptions) :
    Assembly.workingDocument reading [.document document] = .ok document := by
  have hnamed : ∀ d ∈ [document], Merge.Named d := by simpa using h
  refine bind_eq_ok.mpr ⟨[document], rfl, ?_⟩
  rw [Merge.mergeDocuments_of_named PolicyTable.standard hnamed]
  rw [List.map_singleton, Merge.mergeDefinitions_singleton]
  obtain ⟨definitions, placed⟩ := document
  obtain rfl : placed = false := hplaced
  rfl

section Content

variable {sources : List Source} {s : Sources} {assembled : Assembled}
  (hgiven : ∀ d, .document d ∈ sources → d.Written)
  (hload : Assembly.workingDocument s.options.reading sources = .ok s.working)
  (hkeys : Merge.UniqueKeys s.working.definitions)
  (hapart : s.Apart)
  (hschema : ¬ (RootNames.ofDocument s.working).Includes Merge.schemaKey)
  (hinputs : ∀ p, s.Emitted p → ¬ (RootNames.ofDocument s.working).Includes p.inputName)
  (hempty : s.roots = [] → ∀ name ∈ Primitives.leaves s.options.ns,
    ¬ Merge.HasKey name s.working.definitions →
      ¬ (RootNames.ofDocument s.working).Includes name)
  (hbuilt : Assembly.assemble sources s.roots s.options = .ok assembled)

include hgiven hload hkeys hapart hschema hinputs hempty hbuilt

/-- An assembled document is assembled with the same root types and options to the same document,
in which they have the same identifiers. -/
theorem assemble_assembled :
    ∃ again,
      Assembly.assemble [.document assembled.document] s.roots s.options = .ok again ∧
      again.document = assembled.document ∧
      List.Forall₂ Descriptor.SameIdentifier assembled.descriptors again.descriptors := by
  have hwritten := workingDocument_written hgiven hload
  obtain ⟨hroots, hns, generated, merged, hgenerated, hmerged, hdocument⟩ :=
    assembleFrom_eq_ok (assembleFrom_of_assemble hload hbuilt)
  have hunique := uniqueKeys_merged hmerged
  have hemitted : ∀ t ∈ fragmentInputs generated,
      ¬ (RootNames.ofDocument s.working).Includes t.name := by
    obtain ⟨parts, hlength, rfl, hpairs, -⟩ :=
      fragments_of_emitted (nodup_types hkeys) hroots hwritten hns hgenerated
    intro t ht
    rw [fragmentInputs_ofPairs _ hlength] at ht
    obtain ⟨p, hp, rfl⟩ := List.mem_map.mp ht
    exact hinputs p ((hpairs p).mp hp)
  have hrole : RootNames.ofDocument (Assembly.completeSchema merged) =
      RootNames.ofDocument s.working :=
    (ofDocument_completeSchema hunique).trans
      (ofDocument_merged hroots hwritten hns hgenerated hmerged hkeys hschema)
  obtain ⟨again, hagain, hsame⟩ :=
    describe_again hroots hwritten hns hgenerated hmerged hkeys hapart
  have hfragments := fragments_again hroots hwritten hns hgenerated hmerged hkeys hapart hsame hrole
  have hnamed := named_completeSchema (Merge.named_of_mergeDocuments hmerged)
  have htypes : ∀ part ∈ s.outputs assembled.descriptors, ∀ d ∈ part, ∃ t, d = .type t := by
    intro part hpart d hd
    obtain ⟨r, -, rfl⟩ := List.mem_map.mp hpart
    obtain ⟨t, -, rfl⟩ := List.mem_map.mp hd
    exact ⟨t, rfl⟩
  have hassembled := assembleFrom_of_fragments
    (s := { s with working := Assembly.completeSchema merged }) hagain hns hfragments hnamed htypes
  have hloaded := workingDocument_singleton hnamed rfl s.options.reading
  rw [hdocument]
  refine ⟨_, bind_eq_ok.mpr ⟨_, hloaded, hassembled⟩, ?_, hsame⟩
  obtain ⟨-, -, outputs, merged', houtputs, hmerged', hdocument'⟩ := assembleFrom_eq_ok hassembled
  obtain rfl : s.outputs assembled.descriptors = outputs :=
    Except.ok.inj (hfragments.symm.trans houtputs)
  have hdefinitions : merged'.definitions = (Assembly.completeSchema merged).definitions := by
    rw [merged_definitions hmerged', mergedPolicies_congr (s := s) hrole]
    exact merged_again hroots hwritten hns hgenerated hmerged hkeys hapart hemitted hschema hempty
  have hcomplete : Assembly.completeSchema merged' =
      Assembly.completeSchema (Assembly.completeSchema merged) := by
    unfold Assembly.completeSchema RootNames.ofDocument
    rw [hdefinitions]
    rfl
  rw [hdocument', hcomplete, completeSchema_completeSchema hunique]

end Content

/-- The document of widgets with times is assembled to itself. -/
theorem assemble_assembled_widgets :
    (∀ d, .document d ∈ [Source.document sizedWidgets.working] → d.Written) ∧
    Assembly.workingDocument sizedWidgets.options.reading [.document sizedWidgets.working] =
      .ok sizedWidgets.working ∧
    Merge.UniqueKeys sizedWidgets.working.definitions ∧ sizedWidgets.Apart ∧
    ¬ (RootNames.ofDocument sizedWidgets.working).Includes Merge.schemaKey ∧
    (∀ p, sizedWidgets.Emitted p →
      ¬ (RootNames.ofDocument sizedWidgets.working).Includes p.inputName) ∧
    (sizedWidgets.roots = [] → ∀ name ∈ Primitives.leaves sizedWidgets.options.ns,
      ¬ Merge.HasKey name sizedWidgets.working.definitions →
        ¬ (RootNames.ofDocument sizedWidgets.working).Includes name) ∧
    ∃ assembled again,
      Assembly.assemble [.document sizedWidgets.working] sizedWidgets.roots sizedWidgets.options =
        .ok assembled ∧
      Assembly.assemble [.document assembled.document] sizedWidgets.roots sizedWidgets.options =
        .ok again ∧
      again.document = assembled.document := by
  have hkeys : Merge.UniqueKeys sizedWidgets.working.definitions := by decide
  have hapart : sizedWidgets.Apart := ⟨by decide, by decide⟩
  have hschema : ¬ (RootNames.ofDocument sizedWidgets.working).Includes Merge.schemaKey := by
    decide
  have hinputs : ∀ p, sizedWidgets.Emitted p →
      ¬ (RootNames.ofDocument sizedWidgets.working).Includes p.inputName :=
    fun p _ => not_includes_inputName (by decide) (by decide) p
  have hempty : sizedWidgets.roots = [] → ∀ name ∈ Primitives.leaves sizedWidgets.options.ns,
      ¬ Merge.HasKey name sizedWidgets.working.definitions →
        ¬ (RootNames.ofDocument sizedWidgets.working).Includes name :=
    fun h => absurd h (by decide)
  obtain ⟨-, hbuilt⟩ := assemble_sizedWidgets
  obtain ⟨again, hagain, hsame, -⟩ :=
    assemble_assembled sizedWidgets_written load_sizedWidgets hkeys hapart hschema hinputs hempty
      hbuilt
  exact ⟨sizedWidgets_written, load_sizedWidgets, hkeys, hapart, hschema, hinputs, hempty, _, again,
    hbuilt, hagain, hsame⟩

/-- The document that is assembled from a document when there are no root types. -/
def rootless (document : Document) : Document :=
  let s : Sources := ⟨document, {}, []⟩
  Assembly.completeSchema (Document.ofDefinitions
    (Merge.mergeDefinitions (mergedPolicies s) ((mergedDocuments s []).map (·.definitions))))

theorem assemble_rootless {document : Document} (h : Merge.Named document)
    (hplaced : document.placed = false) :
    Assembly.assemble [.document document] [] {} = .ok ⟨rootless document, []⟩ := by
  have hnone : ∀ part ∈ ([] : List (List Definition)), ∀ d ∈ part, ∃ t, d = .type t := by simp
  have hns : ({} : Options).ns.toList.all isNameContinue := by decide
  have hassembled := assembleFrom_of_fragments (s := ⟨document, {}, []⟩) rfl hns rfl h hnone
  exact bind_eq_ok.mpr ⟨_, workingDocument_singleton h hplaced _, hassembled⟩

/-- A schema without root types whose queries are said to be served by the type of an order. -/
def orderedQueries : Sources where
  working := Document.ofDefinitions [.schema ⟨none, [], [⟨.query, "DataSourceOrderInput"⟩]⟩]
  options := {}
  roots := []

/-- The type of an order is united with itself when the document is assembled again, and so becomes
an object type. -/
theorem assemble_assembled_converts :
    Assembly.workingDocument orderedQueries.options.reading [.document orderedQueries.working] =
      .ok orderedQueries.working ∧
    Merge.UniqueKeys orderedQueries.working.definitions ∧ orderedQueries.Apart ∧
    ∃ assembled again,
      Assembly.assemble [.document orderedQueries.working] orderedQueries.roots
        orderedQueries.options = .ok assembled ∧
      Assembly.assemble [.document assembled.document] orderedQueries.roots
        orderedQueries.options = .ok again ∧
      again.document ≠ assembled.document := by
  have hload : Assembly.workingDocument orderedQueries.options.reading
      [.document orderedQueries.working] = .ok orderedQueries.working := rfl
  have hbuilt := @assemble_rootless orderedQueries.working (by decide) rfl
  have hagain := @assemble_rootless (rootless orderedQueries.working) (by decide) rfl
  refine ⟨hload, by decide, ⟨by decide, by decide⟩, _, _, hbuilt, hagain, ?_⟩
  decide

/-- A widget in a schema whose queries are said to be served by the type `__schema`, which has the
key of schema definitions. -/
def hiddenSchema : Sources where
  working := Document.ofDefinitions
    [ .schema ⟨none, [], [⟨.query, "__schema"⟩]⟩,
      .type (Fragment.objectType "Widget"
        [ Fragment.plainField "id" [] (.nonNull (.named "ID")),
          Fragment.plainField "name" [] (.named "String") ]) ]
  options := {}
  roots := ["Widget"]

/-- The document of the widget. Its entry point stands in the place of the schema definition. -/
def hiddenDocument : Document :=
  hiddenSchema.documentOf [flatDescriptor "Widget" "name"]
    [[⟨"Widget", .create⟩, ⟨"Widget", .update⟩]]

/-- The document of the widget does not say any more what serves its queries, and another type does
when it is assembled again. -/
theorem assemble_assembled_hides :
    (∀ d, .document d ∈ [Source.document hiddenSchema.working] → d.Written) ∧
    Assembly.workingDocument hiddenSchema.options.reading [.document hiddenSchema.working] =
      .ok hiddenSchema.working ∧
    Merge.UniqueKeys hiddenSchema.working.definitions ∧ hiddenSchema.Apart ∧
    (RootNames.ofDocument hiddenSchema.working).Includes Merge.schemaKey ∧
    (∀ p, hiddenSchema.Emitted p →
      ¬ (RootNames.ofDocument hiddenSchema.working).Includes p.inputName) ∧
    hiddenSchema.roots ≠ [] ∧
    ∃ assembled again,
      Assembly.assemble [.document hiddenSchema.working] hiddenSchema.roots
        hiddenSchema.options = .ok assembled ∧
      Assembly.assemble [.document assembled.document] hiddenSchema.roots hiddenSchema.options =
        .ok again ∧
      again.document ≠ assembled.document := by
  have hwritten : hiddenSchema.working.Written := by decide
  have hinputs : ∀ p, hiddenSchema.Emitted p →
      ¬ (RootNames.ofDocument hiddenSchema.working).Includes p.inputName :=
    fun p _ => not_includes_inputName (by decide) (by decide) p
  have hfirst : Fragment.Derivations
      (Assembly.rootBasis hiddenSchema.working {} [flatDescriptor "Widget" "name"])
      [flatDescriptor "Widget" "name"] [] [[⟨"Widget", .create⟩, ⟨"Widget", .update⟩]] :=
    .cons (by decide) rfl (by decide) (.nil _)
  have hsecond : Fragment.Derivations
      (Assembly.rootBasis hiddenDocument {} [flatDescriptor "Widget" "name"])
      [flatDescriptor "Widget" "name"] [] [[]] :=
    .cons (by decide) rfl (by simp) (.nil _)
  have hnamed : Merge.Named hiddenDocument := by decide +kernel
  obtain ⟨-, hbuilt⟩ := assemble_of_derivations (s := hiddenSchema) rfl rfl hwritten
    (by decide) rfl rfl hfirst
  obtain ⟨-, hagain⟩ := assemble_of_derivations
    (s := { hiddenSchema with working := hiddenDocument })
    (workingDocument_singleton hnamed rfl _) rfl (by decide +kernel) hnamed rfl rfl hsecond
  refine ⟨Source.written_singleton hwritten, rfl, by decide, ⟨by decide, by decide⟩,
    by decide, hinputs, by decide, _, _, hbuilt, hagain, ?_⟩
  decide +kernel

/-- Two root types in a schema whose queries are said to be served by a type that is called like the
input type of the second. -/
def inputQueries : Sources where
  working := Document.ofDefinitions
    [ .schema ⟨none, [], [⟨.query, "AInput"⟩]⟩,
      .type (Fragment.objectType "B"
        [ Fragment.plainField "id" [] (.nonNull (.named "ID")),
          Fragment.plainField "x" [] (.named "Int") ]),
      .type (Fragment.objectType "A"
        [ Fragment.plainField "id" [] (.nonNull (.named "ID")),
          Fragment.plainField "b" [] (.named "String") ]) ]
  options := {}
  roots := ["B", "A"]

def inputDescriptors : List Descriptor :=
  [ { flatDescriptor "B" "x" with fields := [⟨"x", .named (.scalar "Int")⟩] },
    flatDescriptor "A" "b" ]

/-- The document of both root types. The field of the input type has replaced the entry point of the
first. -/
def inputDocument : Document :=
  inputQueries.documentOf inputDescriptors
    [[⟨"B", .create⟩, ⟨"B", .update⟩], [⟨"A", .create⟩, ⟨"A", .update⟩]]

/-- When the document of both root types is assembled again, the input type is declared, and the
entry point of the first root type replaces the field. -/
theorem assemble_assembled_restores :
    (∀ d, .document d ∈ [Source.document inputQueries.working] → d.Written) ∧
    Assembly.workingDocument inputQueries.options.reading [.document inputQueries.working] =
      .ok inputQueries.working ∧
    Merge.UniqueKeys inputQueries.working.definitions ∧ inputQueries.Apart ∧
    ¬ (RootNames.ofDocument inputQueries.working).Includes Merge.schemaKey ∧
    (∃ p, inputQueries.Emitted p ∧
      (RootNames.ofDocument inputQueries.working).Includes p.inputName) ∧
    inputQueries.roots ≠ [] ∧
    ∃ assembled again,
      Assembly.assemble [.document inputQueries.working] inputQueries.roots
        inputQueries.options = .ok assembled ∧
      Assembly.assemble [.document assembled.document] inputQueries.roots inputQueries.options =
        .ok again ∧
      again.document ≠ assembled.document := by
  have hwritten : inputQueries.working.Written := by decide
  have hroot : "A" ∈ inputQueries.roots := by decide
  have hdeclared : InputMode.create.inputName "A" ∉ declaredNames inputQueries.working := by decide
  obtain ⟨p, hemitted, hname⟩ := Sources.exists_emitted hroot hdeclared
  have hfirst : Fragment.Derivations
      (Assembly.rootBasis inputQueries.working {} inputDescriptors) inputDescriptors []
      [[⟨"B", .create⟩, ⟨"B", .update⟩], [⟨"A", .create⟩, ⟨"A", .update⟩]] :=
    .cons (by decide) rfl (by decide) (.cons (by decide) rfl (by decide) (.nil _))
  have hsecond : Fragment.Derivations (Assembly.rootBasis inputDocument {} inputDescriptors)
      inputDescriptors [] [[], []] :=
    .cons (by decide) rfl (by simp) (.cons (by decide) rfl (by simp) (.nil _))
  have hnamed : Merge.Named inputDocument := by decide +kernel
  obtain ⟨-, hbuilt⟩ := assemble_of_derivations (s := inputQueries) rfl rfl hwritten
    (by decide) rfl rfl hfirst
  obtain ⟨-, hagain⟩ := assemble_of_derivations
    (s := { inputQueries with working := inputDocument })
    (workingDocument_singleton hnamed rfl _) rfl (by decide +kernel) hnamed rfl rfl hsecond
  refine ⟨Source.written_singleton hwritten, rfl, by decide, ⟨by decide, by decide⟩, by decide,
    ⟨p, hemitted, .inl hname⟩, by decide, _, _, hbuilt, hagain, ?_⟩
  decide +kernel

end RecordApi
