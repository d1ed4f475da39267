import RecordApi.Proofs.Derivation.EntryPoints
import RecordApi.Proofs.Derivation.MergedPlaces
import RecordApi.Proofs.MergeUnions

/-!
# Input types that a derivation comes to

A derivation goes by the names of all declarations, those of extensions and directives included, but
merging goes by keys, which extensions do not have. So an input type that a derivation comes to and
that no type is called like may still be left out. What has its name then stands in its place, or a
primitive does where there are extensions alone, or nothing at all.
-/

namespace RecordApi

open RecordApi.Language

/-- Whether a document defines an input type of a name. -/
def DefinesInput (document : Document) (name : String) : Prop :=
  ∃ d ∈ Merge.keyed name document.definitions, kindOf? d = some .input

/-- Whether a derivation comes to a pair: it starts from the pair, or a field of an input type that
it has added leads there. -/
def Basis.ComesTo (basis : Basis) (starts : InputPair → Prop) (added : List InputPair)
    (p : InputPair) : Prop :=
  starts p ∨ ∃ q ∈ added, basis.Follows q p

section Reached

variable {s : Sources} {descriptors : List Descriptor} {generated : List (List Definition)}
  {merged : Document}
  (hroots : s.roots.eraseDups.mapM (Assembly.describeRoot s.working s.options.selector) =
    .ok descriptors)
  (hwritten : s.working.Written)
  (hns : s.options.ns.toList.all isNameContinue)
  (hgenerated : Assembly.fragments (Assembly.rootBasis s.working s.options descriptors)
    descriptors = .ok generated)
  (hmerged : Merge.mergeDocuments (mergedPolicies s) (mergedDocuments s generated) = .ok merged)

include hroots in
theorem mem_types_of_root {name : String} (h : name ∈ s.roots) :
    name ∈ s.working.types.map (·.name) := by
  obtain ⟨d, hd, rfl⟩ := (mem_roots hroots).mp h
  obtain ⟨-, fields, -, hfields, -⟩ := describeRoot_eq_ok (describeRoot_of_mem hroots hd)
  obtain ⟨t, ht, hname, -, -⟩ := exists_type_of_objectFields? hfields
  exact List.mem_map.mpr ⟨t, ht, hname⟩

variable {p : InputPair} (htype : p.inputName ∉ s.working.types.map (·.name))

section Generated

include hroots hwritten hns hgenerated htype

/-- Where a type serves no requests, fragments hold input types alone under an input name that no
type of the consumer has. -/
theorem kind_of_keyed_generated
    (hrole : ¬ (RootNames.ofDocument s.working).Includes p.inputName) :
    ∀ e ∈ Merge.keyed p.inputName generated.flatten, kindOf? e = some .input := by
  obtain ⟨parts, hlength, rfl, -⟩ := exists_grown hroots hwritten hns hgenerated
  intro e he
  obtain ⟨he, hkey⟩ := Merge.mem_keyed.mp he
  rcases (mem_flatten_ofPairs hlength).mp he with ⟨q, -, rfl⟩ | ⟨r, hr, he⟩
  · rfl
  · rcases Fragment.mem_outputs_of_key he hkey with ⟨page, hpage, hname, -⟩ | ⟨hincludes, -⟩ |
      ⟨hname, -⟩
    · exact absurd (hname ▸ mem_pageNames hpage) (inputName_not_mem_pageNames _ _ _)
    · exact absurd hincludes hrole
    · have hroot : r.typeName ∈ s.roots := (mem_roots hroots).mpr ⟨r, hr, rfl⟩
      exact absurd (mem_types_of_root hroots (hname ▸ hroot)) htype

/-- Fragments hold nothing under a declared input name that no type of the consumer has. -/
theorem keyed_generated_of_declared (hdeclared : p.inputName ∈ declaredNames s.working)
    (hrole : ¬ (RootNames.ofDocument s.working).Includes p.inputName) :
    Merge.keyed p.inputName generated.flatten = [] := by
  refine keyed_generated_eq_nil hroots hwritten hns hgenerated (fun t ht hname => ?_) ?_
  · obtain ⟨q, hq, hfresh⟩ := inputName_of_mem_fragmentInputs hroots hwritten hns hgenerated ht
    exact hfresh (hq ▸ hname ▸ hdeclared)
  · rintro (⟨root, -, hpage⟩ | ⟨hincludes, -⟩ | ⟨-, hroot⟩)
    · exact inputName_not_mem_pageNames _ _ _ hpage
    · exact hrole hincludes
    · exact htype (mem_types_of_root hroots hroot)

end Generated

/-- Fragments hold an input type of every undeclared name that the derivation comes to. -/
theorem keyed_generated_ne_nil {parts : List (List InputPair)}
    (hlength : parts.length = descriptors.length)
    (hparts : generated = List.zipWith
      (Fragment.ofPairs (Assembly.rootBasis s.working s.options descriptors)) descriptors parts)
    (hstages : Stages (Assembly.rootBasis s.working s.options descriptors) []
      (pairsOf (descriptors.map (·.typeName))) parts.flatten)
    (hcomes : (Assembly.rootBasis s.working s.options descriptors).ComesTo
      (Fragment.OfRoots descriptors) parts.flatten p)
    (hdeclared : p.inputName ∉ declaredNames s.working) :
    Merge.keyed p.inputName generated.flatten ≠ [] := by
  have hmet := (Fragment.grown_of_stages hstages).met p hcomes
  rcases hmet with hmet | hmet | hmet
  · exact absurd hmet hdeclared
  · obtain ⟨q, hq, hname⟩ := List.mem_map.mp hmet
    have hmem : .type ((Assembly.rootBasis s.working s.options descriptors).inputOf q) ∈
        generated.flatten := by
      rw [hparts]
      exact (mem_flatten_ofPairs hlength).mpr (.inl ⟨q, hq, rfl⟩)
    exact List.ne_nil_of_mem (Merge.mem_keyed.mpr ⟨hmem, congrArg some hname⟩)
  · simp at hmet

theorem roots_ne_nil_of_comesTo (hroots : s.roots.eraseDups.mapM
      (Assembly.describeRoot s.working s.options.selector) = .ok descriptors)
    {parts : List (List InputPair)} (hlength : parts.length = descriptors.length)
    (hcomes : (Assembly.rootBasis s.working s.options descriptors).ComesTo
      (·.typeName ∈ s.roots) parts.flatten p) : s.roots ≠ [] := by
  rcases hcomes with hroot | ⟨q, hq, -⟩
  · exact List.ne_nil_of_mem hroot
  · obtain ⟨part, hpart, -⟩ := List.mem_flatten.mp hq
    obtain ⟨d, hd⟩ := List.exists_mem_of_length_pos (hlength ▸ List.length_pos_of_mem hpart)
    exact List.ne_nil_of_mem ((mem_roots hroots).mpr ⟨d, hd, rfl⟩)

include htype in
/-- Where fragments hold nothing under an input name that no type of the consumer has, an input type
of the name is a primitive over which nothing is merged. -/
theorem exists_input_of_declared :
    (∃ d ∈ (Merge.keyed p.inputName (Primitives.definitions s.options.ns) ++
        Merge.keyed p.inputName s.working.definitions).getLast?.toList,
      kindOf? d = some .input) ↔
      ¬ Merge.HasKey p.inputName s.working.definitions ∧
        ∃ d ∈ Merge.keyed p.inputName (Primitives.definitions s.options.ns),
          kindOf? d = some .input := by
  by_cases hkey : Merge.HasKey p.inputName s.working.definitions
  · have hne : Merge.keyed p.inputName s.working.definitions ≠ [] :=
      fun hnil => Merge.keyed_eq_nil.mp hnil hkey
    rw [List.getLast?_append, List.getLast?_eq_some_getLast hne, Option.some_or]
    refine iff_of_false ?_ fun h => h.1 hkey
    rintro ⟨d, hd, hinput⟩
    obtain ⟨t, rfl, -⟩ := exists_type_of_kind hinput
    -- What is left is the consumer's own, and so no type.
    obtain ⟨hmem, hname⟩ := Merge.mem_keyed.mp
      (List.mem_singleton.mp hd ▸ List.getLast_mem hne)
    exact htype (List.mem_map.mpr ⟨t, mem_types.mpr hmem, Option.some.inj hname⟩)
  · have hlength := Merge.length_keyed_of_uniqueKeys (uniqueKeys_primitives s.options.ns)
      p.inputName
    obtain ⟨hsame, hlast⟩ := Merge.eq_of_tail_eq_nil ((Merge.length_le_one_iff _).mp hlength)
    rw [Merge.keyed_eq_nil.mpr hkey, List.append_nil, ← hlast, ← hsame, and_iff_right hkey]

theorem mem_roots_iff_ofRoots (hroots : s.roots.eraseDups.mapM
      (Assembly.describeRoot s.working s.options.selector) = .ok descriptors) :
    p.typeName ∈ s.roots ↔ Fragment.OfRoots descriptors p := by
  rw [← Fragment.mem_pairsOf_typeNames, mem_pairsOf, typeNames_descriptors hroots,
    List.mem_eraseDups]

section Merged

include hmerged

/-- A type that serves requests is no input type. -/
theorem kind_ne_input_of_role (hroots : s.roots.eraseDups.mapM
      (Assembly.describeRoot s.working s.options.selector) = .ok descriptors)
    (hwritten : s.working.Written) (hns : s.options.ns.toList.all isNameContinue)
    (hgenerated : Assembly.fragments (Assembly.rootBasis s.working s.options descriptors)
      descriptors = .ok generated)
    (hrole : (RootNames.ofDocument s.working).Includes p.inputName) (hne : s.roots ≠ []) :
    ∀ d ∈ Merge.keyed p.inputName merged.definitions, kindOf? d ≠ some .input := by
  have hschema : p.inputName ≠ Merge.schemaKey := inputName_ne_schemaKey p.mode p.typeName
  obtain ⟨t, interfaces, fields, hfind, hbody, -⟩ :=
    find?_role hroots hwritten hns hgenerated hmerged hschema hrole hne
  have hkey : Merge.key? (.type t) = some p.inputName := by simpa using List.find?_some hfind
  rw [Merge.keyed_of_uniqueKeys (uniqueKeys_merged hmerged) (List.mem_of_find?_eq_some hfind) hkey]
  intro d hd hinput
  obtain rfl := List.mem_singleton.mp hd
  rw [kindOf?, hbody] at hinput
  cases hinput

/-- Under an input name that serves no requests, the last definition is left. -/
theorem keyed_merged_input (hrole : ¬ (RootNames.ofDocument s.working).Includes p.inputName) :
    Merge.keyed p.inputName merged.definitions =
      (Merge.keyed p.inputName (Primitives.definitions s.options.ns) ++
        (Merge.keyed p.inputName s.working.definitions ++
          Merge.keyed p.inputName generated.flatten)).getLast?.toList := by
  rw [keyed_merged_definitions hmerged,
    policyOf_eq_override hrole (inputName_not_mem_standard p.mode p.typeName),
    Merge.combined?_override, Merge.keyed_append, Merge.keyed_append]

end Merged

end Reached

/-- An input name that the derivation comes to, and that no type of the working document has, is
that of an input type of the assembled document unless the type serves requests or something of the
working document has the name. Then an extension leaves room for a primitive of the name only, and
any other definition for nothing. -/
theorem reached_inputs {sources : List Source} {s : Sources} {assembled : Assembled}
    (hgiven : ∀ d, .document d ∈ sources → d.Written)
    (hload : Assembly.workingDocument s.options.reading sources = .ok s.working)
    (hbuilt : Assembly.assemble sources s.roots s.options = .ok assembled) :
    let basis := Assembly.rootBasis s.working s.options assembled.descriptors
    ∃ generated parts, Assembly.fragments basis assembled.descriptors = .ok generated ∧
      parts.length = assembled.descriptors.length ∧
      generated = List.zipWith (Fragment.ofPairs basis) assembled.descriptors parts ∧
      Stages basis [] (pairsOf s.roots.eraseDups) parts.flatten ∧
      ∀ p, basis.ComesTo (·.typeName ∈ s.roots) parts.flatten p →
        p.inputName ∉ s.working.types.map (·.name) →
        (DefinesInput assembled.document p.inputName ↔
          ¬ (RootNames.ofDocument s.working).Includes p.inputName ∧
            (p.inputName ∉ declaredNames s.working ∨
              ¬ Merge.HasKey p.inputName s.working.definitions ∧
                ∃ d ∈ Merge.keyed p.inputName (Primitives.definitions s.options.ns),
                  kindOf? d = some .input)) := by
  have hwritten := workingDocument_written hgiven hload
  obtain ⟨hroots, hns, generated, merged, hgenerated, hmerged, hdocument⟩ :=
    assembleFrom_eq_ok (assembleFrom_of_assemble hload hbuilt)
  have hspec := fragments_spec hroots hwritten hns
  rw [hgenerated] at hspec
  obtain ⟨-, parts, hlength, hparts, hstages⟩ := hspec
  intro basis
  refine ⟨generated, parts, hgenerated, hlength, hparts, typeNames_descriptors hroots ▸ hstages,
    fun p hcomes htype => ?_⟩
  have hschema : p.inputName ≠ Merge.schemaKey := inputName_ne_schemaKey p.mode p.typeName
  have hdefines : DefinesInput assembled.document p.inputName ↔
      ∃ d ∈ Merge.keyed p.inputName merged.definitions, kindOf? d = some .input := by
    rw [DefinesInput, hdocument, keyed_completeSchema hschema]
  rw [hdefines]
  by_cases hrole : (RootNames.ofDocument s.working).Includes p.inputName
  · have hnone := kind_ne_input_of_role hmerged hroots hwritten hns hgenerated hrole
      (roots_ne_nil_of_comesTo hroots hlength hcomes)
    refine iff_of_false ?_ fun h => h.1 hrole
    rintro ⟨d, hd, hinput⟩
    exact hnone d hd hinput
  rw [keyed_merged_input hmerged hrole, and_iff_right hrole]
  by_cases hdeclared : p.inputName ∈ declaredNames s.working
  · rw [keyed_generated_of_declared hroots hwritten hns hgenerated htype hdeclared hrole,
      List.append_nil, or_iff_right (not_not.mpr hdeclared)]
    exact exists_input_of_declared htype
  · have hstarts : basis.ComesTo (Fragment.OfRoots assembled.descriptors) parts.flatten p :=
      hcomes.imp_left (mem_roots_iff_ofRoots hroots).mp
    have hinputs :=
      kind_of_keyed_generated hroots hwritten hns hgenerated htype hrole
    have hne := keyed_generated_ne_nil hlength hparts hstages hstarts hdeclared
    refine iff_of_true ⟨_, ?_, hinputs _ (List.getLast_mem hne)⟩ (.inl hdeclared)
    rw [List.getLast?_append, List.getLast?_append, List.getLast?_eq_some_getLast hne]
    exact List.mem_singleton_self _

/-! ## An extension of an input type that is derived -/

/-- Widgets, and an extension of the input type for their creation. -/
def extendedWidgets : Sources where
  working := Document.ofDefinitions
    [ .type (Fragment.objectType "Widget"
        [ Fragment.plainField "id" [] (.nonNull (.named "ID")),
          Fragment.plainField "name" [] (.named "String") ]),
      .typeExtension
        ⟨none, "WidgetInput", [], .input [⟨none, "note", .named "String", none, []⟩]⟩ ]
  options := {}
  roots := ["Widget"]

theorem extendedWidgets_written :
    ∀ d, .document d ∈ [Source.document extendedWidgets.working] → d.Written :=
  Source.written_singleton (by decide)

theorem load_extendedWidgets :
    Assembly.workingDocument extendedWidgets.options.reading
      [.document extendedWidgets.working] = .ok extendedWidgets.working := rfl

/-- Of the widgets' input types, the one that is extended is not derived. -/
theorem assemble_extendedWidgets :
    let descriptor := flatDescriptor "Widget" "name"
    let basis := Assembly.rootBasis extendedWidgets.working extendedWidgets.options [descriptor]
    let fragment := Fragment.ofPairs basis descriptor [⟨"Widget", .update⟩]
    Assembly.assemble [.document extendedWidgets.working] extendedWidgets.roots
        extendedWidgets.options =
      .ok ⟨Assembly.completeSchema (Document.ofDefinitions
        (Merge.mergeDefinitions (mergedPolicies extendedWidgets)
          ((mergedDocuments extendedWidgets [fragment]).map (·.definitions)))), [descriptor]⟩ := by
  intro descriptor basis fragment
  have hdescribed : extendedWidgets.roots.eraseDups.mapM
      (Assembly.describeRoot extendedWidgets.working extendedWidgets.options.selector) =
        .ok [descriptor] := rfl
  exact (assemble_singleton [⟨"Widget", .update⟩] load_extendedWidgets hdescribed (by decide)
    (by decide) (by decide) rfl (by decide) rfl (by decide)).2

/-- The input type for the update of widgets, which nothing extends, is defined. -/
theorem reached_inputs_widgets :
    (∀ d, .document d ∈ [Source.document extendedWidgets.working] → d.Written) ∧
      Assembly.workingDocument extendedWidgets.options.reading
        [.document extendedWidgets.working] = .ok extendedWidgets.working ∧
      ∃ assembled, Assembly.assemble [.document extendedWidgets.working] extendedWidgets.roots
          extendedWidgets.options = .ok assembled ∧
        DefinesInput assembled.document "WidgetUpdateInput" := by
  refine ⟨extendedWidgets_written, load_extendedWidgets, _, assemble_extendedWidgets, ?_⟩
  obtain ⟨generated, parts, -, -, -, -, hreached⟩ := reached_inputs extendedWidgets_written
    load_extendedWidgets assemble_extendedWidgets
  exact (hreached ⟨"Widget", .update⟩ (.inl (by decide)) (by decide)).mpr
    ⟨by decide, .inl (by decide)⟩

/-- The input type for the creation of widgets, which no type is called like, is not defined. -/
theorem extendedWidgets_lack_input :
    "Widget" ∈ extendedWidgets.roots ∧
      "WidgetInput" ∉ extendedWidgets.working.types.map (·.name) ∧
      ∃ assembled, Assembly.assemble [.document extendedWidgets.working] extendedWidgets.roots
          extendedWidgets.options = .ok assembled ∧
        ¬ DefinesInput assembled.document "WidgetInput" ∧
        assembled.document.typeNamed? "WidgetInput" = none := by
  refine ⟨by decide, by decide, _, assemble_extendedWidgets, ?_, by decide⟩
  rintro ⟨d, hd, -⟩
  rw [Merge.keyed_eq_nil.mpr (by decide)] at hd
  exact List.not_mem_nil hd

end RecordApi
