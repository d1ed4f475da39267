import RecordApi.Proofs.Derivation.DerivedInputs
import RecordApi.Proofs.MergeAssociativity

/-!
# Assembled schemas

A schema is assembled if its root types are described, their fragments derived and all merged. Each
input type of the fragments then holds the fields of its source.
-/

namespace RecordApi

open RecordApi.Language

/-- The documents that the document of a schema is merged from. -/
def mergedDocuments (s : Sources) (generated : List (List Definition)) : List Document :=
  Document.ofDefinitions (Primitives.definitions s.options.ns) :: s.working ::
    generated.map Document.ofDefinitions

/-- The policies by which the document of a schema is merged. -/
def mergedPolicies (s : Sources) : PolicyTable :=
  Assembly.rootPolicies [s.working] ++ PolicyTable.standard

/-- What an assembled schema was assembled from. -/
theorem assembleFrom_eq_ok {s : Sources} {assembled : Assembled}
    (h : Assembly.assembleFrom s.working s.roots s.options = .ok assembled) :
    s.roots.eraseDups.mapM (Assembly.describeRoot s.working s.options.selector) =
        .ok assembled.descriptors ∧
      s.options.ns.toList.all isNameContinue ∧
      ∃ generated merged,
        Assembly.fragments
            (Assembly.rootBasis s.working s.options assembled.descriptors)
            assembled.descriptors = .ok generated ∧
          Merge.mergeDocuments (mergedPolicies s) (mergedDocuments s generated) = .ok merged ∧
          assembled.document = Assembly.completeSchema merged := by
  obtain ⟨descriptors, hroots, h⟩ := bind_eq_ok.mp h
  obtain ⟨generated, hgenerated, h⟩ := bind_eq_ok.mp h
  obtain ⟨primitives, hprimitives, h⟩ := bind_eq_ok.mp h
  obtain ⟨merged, hmerged, h⟩ := bind_eq_ok.mp h
  obtain rfl := Except.ok.inj h
  unfold Primitives.document at hprimitives
  split at hprimitives
  · next hns =>
      obtain rfl := Except.ok.inj hprimitives
      exact ⟨hroots, hns, generated, merged, hgenerated, hmerged, rfl⟩
  · simp at hprimitives

/-- A schema whose fragments can be derived is assembled. -/
theorem assembleFrom_of_fragments {s : Sources} {descriptors : List Descriptor}
    {generated : List (List Definition)}
    (hroots : s.roots.eraseDups.mapM (Assembly.describeRoot s.working s.options.selector) =
      .ok descriptors)
    (hns : s.options.ns.toList.all isNameContinue)
    (hgenerated : Assembly.fragments (Assembly.rootBasis s.working s.options descriptors)
      descriptors = .ok generated)
    (hworking : Merge.Named s.working)
    (htypes : ∀ part ∈ generated, ∀ definition ∈ part, ∃ t, definition = .type t) :
    Assembly.assembleFrom s.working s.roots s.options =
      .ok ⟨Assembly.completeSchema (Document.ofDefinitions
        (Merge.mergeDefinitions (mergedPolicies s)
          ((mergedDocuments s generated).map (·.definitions)))), descriptors⟩ := by
  have hnamed : ∀ document ∈ mergedDocuments s generated, Merge.Named document := by
    intro document hdocument
    rcases List.mem_cons.mp hdocument with rfl | hdocument
    · intro definition hdefinition
      simp only [Document.ofDefinitions, Primitives.definitions, List.mem_cons, List.not_mem_nil,
        or_false] at hdefinition
      rcases hdefinition with rfl | rfl | rfl | rfl <;> rfl
    · rcases List.mem_cons.mp hdocument with rfl | hdocument
      · exact hworking
      · obtain ⟨part, hpart, rfl⟩ := List.mem_map.mp hdocument
        intro definition hdefinition
        obtain ⟨t, rfl⟩ := htypes part hpart definition hdefinition
        rfl
  have hprimitives : Primitives.document s.options.ns =
      .ok (Document.ofDefinitions (Primitives.definitions s.options.ns)) := if_pos hns
  have hmerged := Merge.mergeDocuments_of_named (mergedPolicies s) hnamed
  exact bind_eq_ok.mpr ⟨_, hroots, bind_eq_ok.mpr ⟨_, hgenerated,
    bind_eq_ok.mpr ⟨_, hprimitives, bind_eq_ok.mpr ⟨_, hmerged, rfl⟩⟩⟩⟩

/-- The document that is assembled when the root types add some pairs each. -/
def Sources.documentOf (s : Sources) (descriptors : List Descriptor)
    (parts : List (List InputPair)) : Document :=
  Assembly.completeSchema (Document.ofDefinitions (Merge.mergeDefinitions (mergedPolicies s)
    ((mergedDocuments s
      (List.zipWith (Fragment.ofPairs (Assembly.rootBasis s.working s.options descriptors))
        descriptors parts)).map (·.definitions))))

/-- A schema is assembled from the fragments that the derivations of its root types make up. -/
theorem assemble_of_derivations {s : Sources} {descriptors : List Descriptor}
    {parts : List (List InputPair)}
    (hload : Assembly.workingDocument s.options.reading [.document s.working] = .ok s.working)
    (hroots : s.roots.eraseDups.mapM (Assembly.describeRoot s.working s.options.selector) =
      .ok descriptors)
    (hwritten : s.working.Written) (hworking : Merge.Named s.working)
    (hns : s.options.ns.toList.all isNameContinue) (hlimit : s.options.reading.mostTokens = none)
    (h : Fragment.Derivations (Assembly.rootBasis s.working s.options descriptors) descriptors []
      parts) :
    Assembly.fragments (Assembly.rootBasis s.working s.options descriptors) descriptors =
        .ok (List.zipWith (Fragment.ofPairs (Assembly.rootBasis s.working s.options descriptors))
          descriptors parts) ∧
      Assembly.assemble [.document s.working] s.roots s.options =
        .ok ⟨s.documentOf descriptors parts, descriptors⟩ := by
  have hplain := plain_rootBasis hroots hwritten hns
  have hfragments := Fragment.generateEach_of_derivations hplain
    (fun d hd => plain_descriptors hroots hwritten hd) hlimit h
  have htypes := eq_type_of_mem_fragments hroots hwritten hns hfragments
  exact ⟨hfragments, bind_eq_ok.mpr ⟨_, hload,
    assembleFrom_of_fragments hroots hns hfragments hworking htypes⟩⟩

/-- A schema with one root type is assembled from the fragment that its input types make up. -/
theorem assemble_singleton {s : Sources} {d : Descriptor} {names : List String}
    (pairs : List InputPair)
    (hload : Assembly.workingDocument s.options.reading [.document s.working] = .ok s.working)
    (hroots : s.roots.eraseDups.mapM (Assembly.describeRoot s.working s.options.selector) =
      .ok [d])
    (hwritten : s.working.Written) (hworking : Merge.Named s.working)
    (hns : s.options.ns.toList.all isNameContinue) (hlimit : s.options.reading.mostTokens = none)
    (hfield : isName (Naming.lowerCamel d.typeName).toList)
    (hinputs : (Fragment.inputs (Assembly.rootBasis s.working s.options [d]) d).run ⟨[], []⟩ =
      (.ok (), ⟨names, pairs.map (Assembly.rootBasis s.working s.options [d]).inputOf⟩))
    (hpairs : ∀ p ∈ pairs,
      ((Assembly.rootBasis s.working s.options [d]).nestedFields? p.typeName).isSome) :
    let fragment := Fragment.ofPairs (Assembly.rootBasis s.working s.options [d]) d pairs
    Assembly.fragments (Assembly.rootBasis s.working s.options [d]) [d] = .ok [fragment] ∧
      Assembly.assemble [.document s.working] s.roots s.options =
        .ok ⟨Assembly.completeSchema (Document.ofDefinitions
          (Merge.mergeDefinitions (mergedPolicies s)
            ((mergedDocuments s [fragment]).map (·.definitions)))), [d]⟩ :=
  assemble_of_derivations hload hroots hwritten hworking hns hlimit
    (.cons hfield hinputs hpairs (.nil names))

section Content

variable {sources : List Source} {s : Sources} {assembled : Assembled}
  (hgiven : ∀ d, .document d ∈ sources → d.Written)
  (hload : Assembly.workingDocument s.options.reading sources = .ok s.working)
  (hdistinct : (s.working.types.map (·.name)).Nodup)
  (hbuilt : Assembly.assemble sources s.roots s.options = .ok assembled)

include hload hbuilt

theorem assembleFrom_of_assemble :
    Assembly.assembleFrom s.working s.roots s.options = .ok assembled := by
  unfold Assembly.assemble at hbuilt
  rwa [hload] at hbuilt

include hgiven hdistinct

/-- Each derived input type of a schema has the name of an object type or an interface in one of
the modes, and holds just the fields of that type in their order, but for the fields of unions and,
at a root type, the identifier and the times that are kept. -/
theorem derivedInputs_content :
    ∃ generated,
      Assembly.fragments (Assembly.rootBasis s.working s.options assembled.descriptors)
        assembled.descriptors = .ok generated ∧
      ∀ d ∈ fragmentInputs generated, ∃ (name : String) (mode : InputMode)
          (declared : List FieldDef),
        s.working.composite? name = some declared ∧
        d = { description := none
              name := mode.inputName name
              directives := []
              body := .input
                (((if name ∈ s.roots then s.dataFields name declared else declared).filter
                  fun f => !s.working.isUnion f.type.baseName).map fun f =>
                    { description := none
                      name := f.name
                      type := mode.fieldExpr (f.type.withBase fun base =>
                        if (s.working.composite? base).isSome then mode.inputName base else base)
                      default := none
                      directives := [] }) } := by
  have hwritten := workingDocument_written hgiven hload
  obtain ⟨hroots, hns, generated, merged, hgenerated, -, -⟩ :=
    assembleFrom_eq_ok (assembleFrom_of_assemble hload hbuilt)
  refine ⟨generated, hgenerated, fun d hd => ?_⟩
  obtain ⟨⟨name, mode⟩, fields, -, -, hfields, rfl⟩ :=
    fragmentInputs_sound hdistinct hroots hwritten hns hgenerated hd
  obtain ⟨declared, hdeclared, rfl⟩ := Option.map_eq_some_iff.mp hfields
  exact ⟨name, mode, declared, hdeclared, rfl⟩

end Content

/-- The orders as they are given. -/
def orderSources : List Source :=
  [.document orders.working]

theorem orderSources_written : ∀ d, .document d ∈ orderSources → d.Written := by
  intro d hd
  obtain rfl : d = orders.working := by simpa [orderSources] using hd
  decide

theorem load_orders :
    Assembly.workingDocument orders.options.reading orderSources = .ok orders.working := rfl

theorem assemble_orders :
    ∃ assembled, Assembly.assemble orderSources orders.roots orders.options = .ok assembled := by
  obtain ⟨generated, hgenerated⟩ := fragments_orders
  have htypes : ∀ part ∈ generated, ∀ definition ∈ part, ∃ t, definition = .type t :=
    eq_type_of_mem_fragments (s := orders) orders_described (by decide) (by decide)
      hgenerated
  have hassembled := assembleFrom_of_fragments (s := orders) orders_described (by decide)
    hgenerated (by decide) htypes
  exact ⟨_, bind_eq_ok.mpr ⟨_, load_orders, hassembled⟩⟩

theorem derivedInputs_content_orders :
    (∀ d, .document d ∈ orderSources → d.Written) ∧
    Assembly.workingDocument orders.options.reading orderSources = .ok orders.working ∧
    (orders.working.types.map (·.name)).Nodup ∧
    ∃ assembled, Assembly.assemble orderSources orders.roots orders.options = .ok assembled ∧
      ∃ generated,
        Assembly.fragments (Assembly.rootBasis orders.working orders.options assembled.descriptors)
          assembled.descriptors = .ok generated ∧
        ∀ d ∈ fragmentInputs generated,
          ∃ (name : String) (mode : InputMode) (declared : List FieldDef),
            orders.working.composite? name = some declared ∧ d.name = mode.inputName name := by
  have hdistinct : (orders.working.types.map (·.name)).Nodup := by decide
  obtain ⟨assembled, hbuilt⟩ := assemble_orders
  refine ⟨orderSources_written, load_orders, hdistinct, assembled, hbuilt, ?_⟩
  obtain ⟨generated, hgenerated, hcontent⟩ :=
    derivedInputs_content orderSources_written load_orders hdistinct hbuilt
  refine ⟨generated, hgenerated, fun d hd => ?_⟩
  obtain ⟨name, mode, declared, hdeclared, rfl⟩ := hcontent d hd
  exact ⟨name, mode, declared, hdeclared, rfl⟩

end RecordApi
