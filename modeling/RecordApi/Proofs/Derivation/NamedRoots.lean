import RecordApi.Proofs.Derivation.EntryPoints
import RecordApi.Proofs.Derivation.MergedPlaces
import RecordApi.Proofs.MergeUnions

/-!
# Fields of the types that serve a schema

The consumer's documents are merged before it is known which types serve the schema. So only types
with the standard names unite their fields then; under any other name the last definition is left.
The primitives and the fragments are merged with what is left, and now every type that serves the
schema unites its fields.
-/

namespace RecordApi

open RecordApi.Language

/-- The names of the types that serve a schema unless it says otherwise. -/
def standardRoots : List String :=
  ["Query", "Mutation", "Subscription"]

/-- The field of a name in the definitions of a key; of two fields the later counts. -/
def fieldUnder? (key field : String) (definitions : List Definition) : Option FieldDef :=
  Merge.lastOfName? FieldDef.name field ((Merge.keyed key definitions).flatMap Definition.fields)

theorem fieldUnder?_append (key field : String) (first second : List Definition) :
    fieldUnder? key field (first ++ second) =
      (fieldUnder? key field second).or (fieldUnder? key field first) := by
  rw [fieldUnder?, Merge.keyed_append, List.flatMap_append, Merge.lastOfName?_append]
  rfl

theorem isSome_lastField_iff {field : String} {definitions : List Definition} :
    (Merge.lastOfName? FieldDef.name field (definitions.flatMap Definition.fields)).isSome ↔
      ∃ d ∈ definitions, Merge.HasName FieldDef.name field d.fields := by
  rw [Option.isSome_iff_ne_none, ne_eq, Merge.lastOfName?_eq_none, not_not]
  simp only [Merge.HasName, List.mem_flatMap]
  constructor
  · rintro ⟨f, ⟨d, hd, hf⟩, hname⟩
    exact ⟨d, hd, f, hf, hname⟩
  · rintro ⟨d, hd, f, hf, hname⟩
    exact ⟨f, ⟨d, hd, hf⟩, hname⟩

/-! ## The working document -/

theorem policyOf_standard (key : String) :
    Merge.policyOf PolicyTable.standard key =
      if key ∈ standardRoots then .fieldUnion else .override := by
  by_cases hschema : key = Merge.schemaKey
  · subst hschema
    rfl
  · rw [Merge.policyOf, if_neg hschema]
    by_cases hquery : key = "Query"
    · subst hquery
      rfl
    · by_cases hmutation : key = "Mutation"
      · subst hmutation
        rfl
      · by_cases hsubscription : key = "Subscription"
        · subst hsubscription
          rfl
        · simp [PolicyTable.policyFor, PolicyTable.standard, standardRoots,
            Association.lookup_cons, hquery, hmutation, hsubscription]

/-- The documents that a working document is merged from. -/
theorem exists_documents {sources : List Source} {s : Sources}
    (hload : Assembly.workingDocument s.options.reading sources = .ok s.working) :
    ∃ documents, sources.mapM (Source.load s.options.reading) = .ok documents ∧
      s.working.definitions =
        Merge.mergeDefinitions PolicyTable.standard (documents.map (·.definitions)) := by
  obtain ⟨documents, hdocuments, hmerged⟩ := bind_eq_ok.mp hload
  exact ⟨documents, hdocuments, Merge.definitions_of_mergeDocuments hmerged⟩

section Standard

variable {key : String} {lists : List (List Definition)}

/-- Under a standard name no field of any document is lost. -/
theorem isSome_fieldUnder?_standard (h : key ∈ standardRoots) (field : String) :
    (fieldUnder? key field (Merge.mergeDefinitions PolicyTable.standard lists)).isSome ↔
      (fieldUnder? key field lists.flatten).isSome := by
  have hpolicy : Merge.policyOf PolicyTable.standard key = .fieldUnion := by
    rw [policyOf_standard, if_pos h]
  have hcombined (definitions : List Definition) :
      (∃ d ∈ (Merge.combined? .fieldUnion key definitions).toList,
          Merge.HasName FieldDef.name field d.fields) ↔
        ∃ d ∈ definitions, Merge.HasName FieldDef.name field d.fields := by
    rw [← isSome_lastField_iff, ← isSome_lastField_iff, Merge.lastOfName?_combined]
  rw [fieldUnder?, fieldUnder?, isSome_lastField_iff, isSome_lastField_iff,
    Merge.keyed_mergeDefinitions_eq, hpolicy, Merge.flatten_eq, Merge.keyed_append]
  generalize Merge.keyed key (Merge.firstDefinitions lists) = first
  generalize Merge.keyed key (Merge.laterDefinitions lists) = later
  rw [Merge.exists_append_tail first, ← hcombined (first.head?.toList ++ later)]
  simp only [List.mem_append, or_and_right, exists_or]

/-- Under a standard name that merging does not begin with twice, the last field of every name is
left. -/
theorem fieldUnder?_standard (h : key ∈ standardRoots)
    (hlength : (Merge.keyed key (Merge.firstDefinitions lists)).length ≤ 1) (field : String) :
    fieldUnder? key field (Merge.mergeDefinitions PolicyTable.standard lists) =
      fieldUnder? key field lists.flatten := by
  rw [fieldUnder?, Merge.keyed_mergeDefinitions_of_length hlength, policyOf_standard, if_pos h,
    Merge.lastOfName?_combined]
  rfl

/-- Under another name that merging does not begin with twice, the last definition is left. -/
theorem keyed_not_standard (h : key ∉ standardRoots)
    (hlength : (Merge.keyed key (Merge.firstDefinitions lists)).length ≤ 1) :
    Merge.keyed key (Merge.mergeDefinitions PolicyTable.standard lists) =
      (Merge.keyed key lists.flatten).getLast?.toList := by
  refine Merge.keyed_mergeDefinitions ?_ hlength
  rw [policyOf_standard, if_neg h]

end Standard

/-! ## The assembled document -/

section United

variable {key : String} {merged primitives working generated : List Definition}
  (hmerged : Merge.keyed key merged =
    (Merge.combined? .fieldUnion key
      (Merge.keyed key (primitives ++ (working ++ generated)))).toList)

include hmerged

/-- Where a key unites, what is merged last gives each field that it has. -/
theorem fieldUnder?_united (field : String) :
    fieldUnder? key field merged =
      (fieldUnder? key field generated).or
        ((fieldUnder? key field working).or (fieldUnder? key field primitives)) := by
  rw [fieldUnder?, hmerged, Merge.lastOfName?_combined, ← fieldUnder?, fieldUnder?_append,
    fieldUnder?_append, Option.or_assoc]

/-- Where a key unites and the working document has an object type under it, so has the result. -/
theorem exists_object_united (h : ∃ d ∈ Merge.keyed key working, kindOf? d = some .object) :
    ∃ m, Merge.keyed key merged = [.type m] ∧ Kind.ofBody m.body = .object := by
  obtain ⟨d, hd, hobject⟩ := h
  obtain ⟨hmem, hkey⟩ := Merge.mem_keyed.mp hd
  have hall : d ∈ Merge.keyed key (primitives ++ (working ++ generated)) :=
    Merge.mem_keyed.mpr
      ⟨List.mem_append_right primitives (List.mem_append_left generated hmem), hkey⟩
  obtain ⟨m, hm, hkind⟩ := Merge.combined?_of_object key hall hobject
  refine ⟨m, ?_, hkind⟩
  rw [hmerged, hm]
  rfl

end United

section Assembled

variable {sources : List Source} {s : Sources} {assembled : Assembled}
  (hload : Assembly.workingDocument s.options.reading sources = .ok s.working)
  (hbuilt : Assembly.assemble sources s.roots s.options = .ok assembled)
  {root : String} (hrole : (RootNames.ofDocument s.working).Includes root)
  (hschema : root ≠ Merge.schemaKey)

include hload hbuilt hrole hschema

theorem keyed_assembled_root :
    ∃ generated,
      Assembly.fragments (Assembly.rootBasis s.working s.options assembled.descriptors)
        assembled.descriptors = .ok generated ∧
      Merge.keyed root assembled.document.definitions =
        (Merge.combined? .fieldUnion root (Merge.keyed root
          (Primitives.definitions s.options.ns ++
            (s.working.definitions ++ generated.flatten)))).toList := by
  obtain ⟨-, -, generated, merged, hgenerated, hmerged, hdocument⟩ :=
    assembleFrom_eq_ok (assembleFrom_of_assemble hload hbuilt)
  refine ⟨generated, hgenerated, ?_⟩
  rw [hdocument, keyed_completeSchema hschema, keyed_merged_definitions hmerged,
    policyOf_root hschema hrole]

/-- A type that serves the schema has the fields of the fragments, of the working document and of
the primitives under its name, an earlier one of these winning. If all documents define it as an
object type, it is one. The working document has every field of every document only under a standard
name, and the last one of every name unless the first document with any definitions repeats the
type. Under another name that it does not repeat, just the last definition is left of all documents,
so that no field is lost just if the last definition, a fragment or a primitive has each. -/
theorem namedRoot_fields :
    ∃ documents generated,
      sources.mapM (Source.load s.options.reading) = .ok documents ∧
      Assembly.fragments (Assembly.rootBasis s.working s.options assembled.descriptors)
        assembled.descriptors = .ok generated ∧
      let declared := (documents.map (·.definitions)).flatten
      let first := Merge.keyed root (Merge.firstDefinitions (documents.map (·.definitions)))
      let primitives := Primitives.definitions s.options.ns
      (∀ field, fieldUnder? root field assembled.document.definitions =
        (fieldUnder? root field generated.flatten).or
          ((fieldUnder? root field s.working.definitions).or
            (fieldUnder? root field primitives))) ∧
      (Merge.HasKey root declared →
        (∀ d ∈ Merge.keyed root declared, kindOf? d = some .object) →
        ∃ m, Merge.keyed root assembled.document.definitions = [.type m] ∧
          Kind.ofBody m.body = .object) ∧
      (root ∈ standardRoots → ∀ field,
        ((fieldUnder? root field s.working.definitions).isSome ↔
          (fieldUnder? root field declared).isSome) ∧
        (first.length ≤ 1 → fieldUnder? root field s.working.definitions =
          fieldUnder? root field declared)) ∧
      (root ∉ standardRoots → first.length ≤ 1 →
        Merge.keyed root s.working.definitions = (Merge.keyed root declared).getLast?.toList ∧
        ((∀ field, (fieldUnder? root field declared).isSome →
            (fieldUnder? root field assembled.document.definitions).isSome) ↔
          ∀ field, (fieldUnder? root field declared).isSome →
            (fieldUnder? root field generated.flatten).isSome ∨
            (∃ last, (Merge.keyed root declared).getLast? = some last ∧
              Merge.HasName FieldDef.name field last.fields) ∨
            (fieldUnder? root field primitives).isSome)) := by
  obtain ⟨documents, hdocuments, hworking⟩ := exists_documents hload
  obtain ⟨generated, hgenerated, hkeyed⟩ := keyed_assembled_root hload hbuilt hrole hschema
  refine ⟨documents, generated, hdocuments, hgenerated, ?_⟩
  intro declared first primitives
  have hfield := fieldUnder?_united hkeyed
  refine ⟨hfield, fun hhas hobjects => ?_, fun hstandard field => ⟨?_, fun hlength => ?_⟩,
    fun hother hlength => ?_⟩
  · apply exists_object_united hkeyed
    rw [hworking]
    obtain ⟨d, hd, hkey⟩ := Merge.hasKey_mergeDefinitions.mpr hhas
    have hmem := Merge.mem_keyed.mpr ⟨hd, hkey⟩
    exact ⟨d, hmem, Merge.kindOf?_mergeDefinitions hobjects d hmem⟩
  · rw [hworking]
    exact isSome_fieldUnder?_standard hstandard field
  · rw [hworking]
    exact fieldUnder?_standard hstandard hlength field
  · have hlast : Merge.keyed root s.working.definitions =
        (Merge.keyed root declared).getLast?.toList := by
      rw [hworking]
      exact keyed_not_standard hother hlength
    refine ⟨hlast, forall₂_congr fun field _ => ?_⟩
    have hleft : (fieldUnder? root field s.working.definitions).isSome ↔
        ∃ last, (Merge.keyed root declared).getLast? = some last ∧
          Merge.HasName FieldDef.name field last.fields := by
      rw [fieldUnder?, isSome_lastField_iff, hlast]
      simp
    rw [hfield, Option.isSome_or, Option.isSome_or, Bool.or_eq_true, Bool.or_eq_true, hleft]

end Assembled

/-! ## A type that serves queries in two documents -/

/-- An object type with one field. -/
def rootType (field : String) : Definition :=
  .type (Fragment.objectType "Root" [Fragment.plainField field [] (.named "Int")])

/-- A schema that names its type of queries, with that type and a root type. -/
def namedRootFirst : Document :=
  Document.ofDefinitions
    [ .schema ⟨none, [], [⟨.query, "Root"⟩]⟩,
      rootType "a",
      .type (Fragment.objectType "Widget"
        [ Fragment.plainField "id" [] (.nonNull (.named "ID")),
          Fragment.plainField "name" [] (.named "String") ]) ]

/-- Another definition of the type of queries. -/
def namedRootSecond : Document :=
  Document.ofDefinitions [rootType "b"]

/-- What is left of both: the type of queries has the field of the second alone. -/
def namedRoots : Sources where
  working := Document.ofDefinitions
    [ .schema ⟨none, [], [⟨.query, "Root"⟩]⟩,
      rootType "b",
      .type (Fragment.objectType "Widget"
        [ Fragment.plainField "id" [] (.nonNull (.named "ID")),
          Fragment.plainField "name" [] (.named "String") ]) ]
  options := {}
  roots := ["Widget"]

def namedRootSources : List Source :=
  [.document namedRootFirst, .document namedRootSecond]

theorem load_namedRoots :
    Assembly.workingDocument namedRoots.options.reading namedRootSources =
      .ok namedRoots.working := by
  decide

theorem assemble_namedRoots :
    let descriptor := flatDescriptor "Widget" "name"
    let basis := Assembly.rootBasis namedRoots.working namedRoots.options [descriptor]
    let fragment := Fragment.ofPairs basis descriptor [⟨"Widget", .create⟩, ⟨"Widget", .update⟩]
    Assembly.assemble namedRootSources namedRoots.roots namedRoots.options =
      .ok ⟨Assembly.completeSchema (Document.ofDefinitions
        (Merge.mergeDefinitions (mergedPolicies namedRoots)
          ((mergedDocuments namedRoots [fragment]).map (·.definitions)))), [descriptor]⟩ := by
  intro descriptor basis fragment
  have hdescribed : namedRoots.roots.eraseDups.mapM
      (Assembly.describeRoot namedRoots.working namedRoots.options.selector) =
        .ok [descriptor] := rfl
  have hload : Assembly.workingDocument namedRoots.options.reading
      [.document namedRoots.working] = .ok namedRoots.working := rfl
  obtain ⟨-, hbuilt⟩ := assemble_singleton [⟨"Widget", .create⟩, ⟨"Widget", .update⟩] hload
    hdescribed (by decide) (by decide) (by decide) rfl (by decide) rfl (by decide)
  exact bind_eq_ok.mpr ⟨_, load_namedRoots, assembleFrom_of_assemble hload hbuilt⟩

/-- The type of queries has the field of the last document. -/
theorem namedRoot_fields_last :
    (RootNames.ofDocument namedRoots.working).Includes "Root" ∧ "Root" ≠ Merge.schemaKey ∧
      Assembly.workingDocument namedRoots.options.reading namedRootSources =
        .ok namedRoots.working ∧
      ∃ assembled, Assembly.assemble namedRootSources namedRoots.roots namedRoots.options =
          .ok assembled ∧
        (fieldUnder? "Root" "b" assembled.document.definitions).isSome := by
  have hrole : (RootNames.ofDocument namedRoots.working).Includes "Root" := by decide
  have hschema : "Root" ≠ Merge.schemaKey := by decide
  obtain ⟨documents, generated, -, -, hfield, -⟩ :=
    namedRoot_fields load_namedRoots assemble_namedRoots hrole hschema
  refine ⟨hrole, hschema, load_namedRoots, _, assemble_namedRoots, ?_⟩
  have hworking : (fieldUnder? "Root" "b" namedRoots.working.definitions).isSome := by decide
  rw [hfield, Option.isSome_or, Option.isSome_or, hworking]
  simp

/-- The field of the first document is lost, and would not be if the type were called Query. -/
theorem namedRoot_loses_field :
    (fieldUnder? "Root" "a" namedRootFirst.definitions).isSome ∧
      (∃ assembled, Assembly.assemble namedRootSources namedRoots.roots namedRoots.options =
          .ok assembled ∧
        (RootNames.ofDocument assembled.document).query = "Root" ∧
        fieldUnder? "Root" "a" assembled.document.definitions = none) ∧
      ∀ merged, Merge.mergeDocuments PolicyTable.standard
          [ Document.ofDefinitions [.type (Fragment.objectType "Query"
              [Fragment.plainField "a" [] (.named "Int")])],
            Document.ofDefinitions [.type (Fragment.objectType "Query"
              [Fragment.plainField "b" [] (.named "Int")])] ] = .ok merged →
        (fieldUnder? "Query" "a" merged.definitions).isSome := by
  refine ⟨by decide, ⟨_, assemble_namedRoots, by decide, by decide⟩, fun merged hmerged => ?_⟩
  obtain rfl := Except.ok.inj hmerged
  decide

end RecordApi
