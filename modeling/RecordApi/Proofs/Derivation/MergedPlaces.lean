import RecordApi.Proofs.Derivation.FragmentKeys
import RecordApi.Proofs.MergeRepeats

/-!
# The places of a merged schema

The primitives stand first in a merged document, each with all that is merged over it. Behind them
stand the consumer's other definitions in their order, each with what the fragments have under its
key, and then what has a new key. Fragments hold types only, and nothing under the key of a schema
definition, so the roots of the schema are named as before.
-/

namespace RecordApi

open RecordApi.Language

namespace Sources

variable (s : Sources)

/-- Whether no root type serves the schema, and none is called like a type of another one's
pages. -/
structure Apart : Prop where
  pages : ∀ root ∈ s.roots, ∀ other ∈ s.roots, root ∉ pageNames other
  roles : ∀ root ∈ s.roots, ¬ (RootNames.ofDocument s.working).Includes root

/-- Whether nothing else is called like a type: it is declared once, is none of the pages of root
types, and does not serve the schema. -/
structure StandsAlone (name : String) : Prop where
  sole : (Merge.keyed name s.working.definitions).length ≤ 1
  pages : ∀ root ∈ s.roots, name ∉ pageNames root
  role : ¬ (RootNames.ofDocument s.working).Includes name

variable {s} in
theorem Apart.standsAlone (hapart : s.Apart) (hkeys : Merge.UniqueKeys s.working.definitions)
    {name : String} (hroot : name ∈ s.roots) : s.StandsAlone name where
  sole := Merge.length_keyed_of_uniqueKeys hkeys name
  pages := hapart.pages name hroot
  role := hapart.roles name hroot

/-- Whether a fragment may have a key that the consumer declares. -/
def Generates (key : String) : Prop :=
  (∃ root ∈ s.roots, key ∈ pageNames root) ∨
    ((RootNames.ofDocument s.working).Includes key ∧ s.roots ≠ []) ∨
    (s.options.timestamps ∧ key ∈ s.roots)

end Sources

/-! ## Keys of primitives -/

theorem key?_of_mem_primitives {ns : String} {p : Definition}
    (h : p ∈ Primitives.definitions ns) : ∃ rest, Merge.key? p = some ("DataSource" ++ rest) := by
  simp only [Primitives.definitions, List.mem_cons, List.not_mem_nil, or_false] at h
  rcases h with rfl | rfl | rfl | rfl
  · exact ⟨"FilterInput" ++ ns, by rw [← String.append_assoc]; rfl⟩
  · exact ⟨"FilterOperation" ++ ns, by rw [← String.append_assoc]; rfl⟩
  · exact ⟨"OrderInput" ++ ns, by rw [← String.append_assoc]; rfl⟩
  · exact ⟨"PageInfo" ++ ns, by rw [← String.append_assoc]; rfl⟩

theorem primitiveKey_ne {rest other : String} (h : other.toList.head? ≠ some 'D') :
    "DataSource" ++ rest ≠ other := by
  rintro rfl
  rw [String.toList_append] at h
  exact h rfl

/-- The consumer's definition takes the place of a primitive, but is united with it where it serves
the schema. -/
theorem policyOf_primitive {s : Sources} {p : Definition}
    (hp : p ∈ Primitives.definitions s.options.ns) {key : String} (hkey : Merge.key? p = some key) :
    Merge.policyOf (mergedPolicies s) key =
      if (RootNames.ofDocument s.working).Includes key then .fieldUnion else .override := by
  obtain ⟨rest, hrest⟩ := key?_of_mem_primitives hp
  obtain rfl : key = _ := Option.some.inj (hkey.symm.trans hrest)
  split
  · next hrole => exact policyOf_root (primitiveKey_ne (by decide)) hrole
  · next hrole =>
      refine policyOf_eq_override hrole ?_
      simp only [List.mem_cons, List.not_mem_nil, or_false, not_or]
      exact ⟨primitiveKey_ne (by decide), primitiveKey_ne (by decide),
        primitiveKey_ne (by decide)⟩

theorem uniqueKeys_primitives (ns : String) :
    Merge.UniqueKeys (Primitives.definitions ns) := by
  have hkeys : (Primitives.definitions ns).filterMap Merge.key? =
      ["DataSourceFilterInput", "DataSourceFilterOperation", "DataSourceOrderInput",
        "DataSourcePageInfo"].map (· ++ ns) := rfl
  rw [Merge.UniqueKeys, hkeys]
  refine List.Nodup.map (fun a b h => ?_) (by decide)
  exact (String.append_left_inj _).mp h

/-! ## Names of the schema's roots -/

/-- The roots that a definition names. -/
def rootsIn : Definition → List RootDef
  | .schema d => d.roots
  | _ => []

theorem ofDocument_eq (document : Document) :
    RootNames.ofDocument document =
      (document.definitions.flatMap rootsIn).foldl RootNames.set ⟨"Query", "Mutation"⟩ := by
  refine congrArg (List.foldl RootNames.set _) (List.flatMap_congr fun d _ => ?_)
  cases d <;> rfl

theorem rootsIn_of_key {d : Definition} {key : String} (h : Merge.key? d = some key)
    (hkey : key ≠ Merge.schemaKey) : rootsIn d = [] := by
  cases d with
  | schema definition => exact absurd (Option.some.inj h).symm hkey
  | _ => rfl

theorem combine_type {policy : MergePolicy} {key : String} {d e : Definition}
    (h : ∃ t, e = .type t) : ∃ t, Merge.combine policy key d e = .type t := by
  cases policy with
  | override => exact h
  | fieldUnion => exact ⟨_, rfl⟩

theorem foldl_combine_types {policy : MergePolicy} {key : String} {d : Definition}
    {later : List Definition} (hd : ∃ t, d = .type t) (hlater : ∀ e ∈ later, ∃ t, e = .type t) :
    ∃ t, later.foldl (Merge.combine policy key) d = .type t := by
  induction later generalizing d with
  | nil => exact hd
  | cons e rest ih =>
      obtain ⟨he, hrest⟩ := List.forall_mem_cons.mp hlater
      exact ih (combine_type he) hrest

/-- Types make a type of a definition, or leave it as it is. -/
theorem overlaid_types (table : PolicyTable) {later : List Definition}
    (h : ∀ e ∈ later, ∃ t, e = .type t) (d : Definition) :
    Merge.overlaid table later d = d ∨ ∃ t, Merge.overlaid table later d = .type t := by
  cases hkey : Merge.key? d with
  | none => exact .inl (Merge.overlaid_of_extension hkey later)
  | some key =>
      have hkeyed : ∀ e ∈ Merge.keyed key later, ∃ t, e = .type t :=
        fun e he => h e (Merge.mem_keyed.mp he).1
      rw [Merge.overlaid_of_key hkey]
      cases hlater : Merge.keyed key later with
      | nil => exact .inl rfl
      | cons e rest =>
          rw [hlater] at hkeyed
          obtain ⟨he, hrest⟩ := List.forall_mem_cons.mp hkeyed
          rw [List.foldl_cons]
          exact .inr (foldl_combine_types (combine_type he) hrest)

theorem flatMap_rootsIn_filter (ns : String) (definitions : List Definition) :
    (definitions.filter (Merge.IsNew (Primitives.definitions ns))).flatMap rootsIn =
      definitions.flatMap rootsIn := by
  induction definitions with
  | nil => rfl
  | cons d rest ih =>
      rw [List.filter_cons, List.flatMap_cons]
      split
      · rw [List.flatMap_cons, ih]
      · next hnew =>
          have hkey : ∃ key, Merge.key? d = some key ∧
              Merge.HasKey key (Primitives.definitions ns) := by
            simpa [Merge.IsNew] using hnew
          obtain ⟨key, hkey, p, hp, hpkey⟩ := hkey
          obtain ⟨rest, hrest⟩ := key?_of_mem_primitives hp
          obtain rfl : key = _ := Option.some.inj (hpkey.symm.trans hrest)
          rw [rootsIn_of_key hkey (primitiveKey_ne (by decide)), List.nil_append, ih]

theorem nodup_types {document : Document} (h : Merge.UniqueKeys document.definitions) :
    (document.types.map (·.name)).Nodup := by
  unfold Document.types
  generalize document.definitions = definitions at h
  induction definitions with
  | nil => simp
  | cons d rest ih =>
      obtain ⟨hd, hrest⟩ := Merge.uniqueKeys_cons.mp h
      cases d with
      | type t =>
          change (t.name :: _).Nodup
          rw [List.nodup_cons]
          refine ⟨fun hmem => ?_, ih hrest⟩
          obtain ⟨u, hu, hname⟩ := List.mem_map.mp hmem
          obtain ⟨e, he, htype⟩ := List.mem_filterMap.mp hu
          apply hd t.name rfl
          cases e with
          | type v =>
              obtain rfl := Option.some.inj htype
              exact ⟨_, he, congrArg some hname⟩
          | _ => simp at htype
      | _ => exact ih hrest

theorem definitions_completeSchema (merged : Document) :
    (Assembly.completeSchema merged).definitions =
      merged.definitions.map (completeDefinition (RootNames.ofDocument merged)) := by
  rw [completeSchema_eq]
  rfl

theorem uniqueKeys_completeSchema {merged : Document} (h : Merge.UniqueKeys merged.definitions) :
    Merge.UniqueKeys (Assembly.completeSchema merged).definitions := by
  unfold Merge.UniqueKeys at h ⊢
  rw [definitions_completeSchema, List.filterMap_map]
  simpa [Function.comp_def] using h

theorem keyed_completeSchema {key : String} (hkey : key ≠ Merge.schemaKey) (document : Document) :
    Merge.keyed key (Assembly.completeSchema document).definitions =
      Merge.keyed key document.definitions := by
  rw [definitions_completeSchema]
  generalize document.definitions = definitions
  induction definitions with
  | nil => rfl
  | cons d rest ih =>
      rw [List.map_cons]
      by_cases hd : Merge.key? d = some key
      · have hsame : completeDefinition (RootNames.ofDocument document) d = d := by
          cases d with
          | schema definition => exact absurd (Option.some.inj hd).symm hkey
          | _ => rfl
        rw [hsame, Merge.keyed_cons_of_key hd, Merge.keyed_cons_of_key hd, ih]
      · have hcompleted : Merge.key? (completeDefinition (RootNames.ofDocument document) d) ≠
            some key := by rwa [key?_completeDefinition]
        rw [Merge.keyed_cons_of_ne hcompleted, Merge.keyed_cons_of_ne hd, ih]

section Merged

variable {s : Sources} {descriptors : List Descriptor} {generated : List (List Definition)}
  {merged : Document}
  (hroots : s.roots.eraseDups.mapM (Assembly.describeRoot s.working s.options.selector) =
    .ok descriptors)
  (hwritten : s.working.Written)
  (hns : s.options.ns.toList.all isNameContinue)
  (hgenerated : Assembly.fragments (Assembly.rootBasis s.working s.options descriptors)
    descriptors = .ok generated)
  (hmerged : Merge.mergeDocuments (mergedPolicies s) (mergedDocuments s generated) = .ok merged)
  (hkeys : Merge.UniqueKeys s.working.definitions)

include hmerged in
/-- A key stands for what all its definitions come to, those of the primitives first. -/
theorem keyed_merged_definitions (key : String) :
    Merge.keyed key merged.definitions =
      (Merge.combined? (Merge.policyOf (mergedPolicies s) key) key
        (Merge.keyed key (Primitives.definitions s.options.ns ++
          (s.working.definitions ++ generated.flatten)))).toList := by
  have hunique := Merge.length_keyed_of_uniqueKeys (uniqueKeys_primitives s.options.ns) key
  rw [Merge.length_le_one_iff] at hunique
  rw [merged_definitions hmerged, Merge.keyed_foldl_add_eq, hunique, List.append_nil,
    ← (Merge.eq_of_tail_eq_nil hunique).1, ← Merge.keyed_append]

include hmerged hkeys in
/-- The places of a merged document. -/
theorem merged_places :
    merged.definitions =
      (Primitives.definitions s.options.ns).map
          (Merge.overlaid (mergedPolicies s) (s.working.definitions ++ generated.flatten)) ++
        (s.working.definitions.filter (Merge.IsNew (Primitives.definitions s.options.ns))).map
            (Merge.overlaid (mergedPolicies s) generated.flatten) ++
          Merge.placed (Merge.policyOf (mergedPolicies s))
            (Primitives.definitions s.options.ns ++ s.working.definitions) generated.flatten := by
  rw [merged_definitions hmerged, Merge.foldl_add_eq_overlaid (uniqueKeys_primitives _),
    Merge.placed_append_of_uniqueKeys hkeys, List.append_assoc]

include hmerged in
theorem uniqueKeys_merged : Merge.UniqueKeys merged.definitions := by
  rw [merged_definitions hmerged]
  exact Merge.uniqueKeys_foldl_add (uniqueKeys_primitives _) _

include hmerged in
/-- What becomes of the only definition of a key, if it does not serve the schema, is told from the
fragments alone. -/
theorem overlaid_mem_merged_of_sole {d : Definition} {key : String}
    (hsole : Merge.keyed key s.working.definitions = [d])
    (hrole : ¬ (RootNames.ofDocument s.working).Includes key) :
    Merge.overlaid (mergedPolicies s) generated.flatten d ∈ merged.definitions := by
  have hkey : Merge.key? d = some key :=
    (Merge.mem_keyed.mp (hsole ▸ List.mem_singleton_self d)).2
  have hprimitives := Merge.length_keyed_of_uniqueKeys (uniqueKeys_primitives s.options.ns) key
  have hkeyed := keyed_merged_definitions hmerged key
  rw [Merge.keyed_append, Merge.keyed_append, hsole, List.singleton_append] at hkeyed
  suffices hmem : Merge.overlaid (mergedPolicies s) generated.flatten d ∈
      Merge.keyed key merged.definitions from (Merge.mem_keyed.mp hmem).1
  rw [hkeyed, Merge.overlaid_of_key hkey]
  cases hfirst : Merge.keyed key (Primitives.definitions s.options.ns) with
  | nil => exact List.mem_singleton_self _
  | cons p rest =>
      -- The consumer's definition takes the place of a primitive of its key.
      obtain ⟨hp, hpkey⟩ := Merge.mem_keyed.mp (hfirst ▸ List.mem_cons_self)
      obtain rfl : rest = [] := by
        rw [hfirst, Merge.length_le_one_iff] at hprimitives
        exact hprimitives
      have hover : Merge.combine (Merge.policyOf (mergedPolicies s) key) key p d = d := by
        rw [policyOf_primitive hp hpkey, if_neg hrole, Merge.combine]
      rw [List.singleton_append, Merge.combined?, List.foldl_cons, hover]
      exact List.mem_singleton_self _

include hmerged hkeys in
/-- What becomes of a definition that does not serve the schema is told from the fragments alone. -/
theorem overlaid_mem_merged {d : Definition} (hd : d ∈ s.working.definitions)
    (hrole : ∀ key, Merge.key? d = some key → ¬ (RootNames.ofDocument s.working).Includes key) :
    Merge.overlaid (mergedPolicies s) generated.flatten d ∈ merged.definitions := by
  cases hkey : Merge.key? d with
  | none =>
      have hnew : Merge.IsNew (Primitives.definitions s.options.ns) d := by
        simp [Merge.IsNew, hkey]
      rw [merged_places hmerged hkeys]
      exact List.mem_append_left _ (List.mem_append_right _
        (List.mem_map_of_mem (List.mem_filter.mpr ⟨hd, by simpa using hnew⟩)))
  | some key =>
      exact overlaid_mem_merged_of_sole hmerged (Merge.keyed_of_uniqueKeys hkeys hd hkey)
        (hrole key hkey)

include hmerged hkeys in
/-- What the consumer declares is declared by the merged document. -/
theorem declared_merged {name : String} (h : name ∈ declaredNames s.working)
    (hname : name ≠ Merge.schemaKey) : name ∈ declaredNames merged := by
  obtain ⟨d, hd, hdname⟩ := List.mem_filterMap.mp h
  cases hkey : Merge.key? d with
  | none =>
      have hmem := overlaid_mem_merged hmerged hkeys hd fun key hsome => by simp [hkey] at hsome
      rw [Merge.overlaid_of_extension hkey] at hmem
      exact List.mem_filterMap.mpr ⟨d, hmem, hdname⟩
  | some key =>
      obtain rfl : key = name := by
        cases d with
        | schema definition => simp [Definition.name?] at hdname
        | schemaExtension definition => simp [Merge.key?] at hkey
        | typeExtension t => simp [Merge.key?] at hkey
        | _ => exact Option.some.inj (hkey.symm.trans hdname)
      have hhas : Merge.HasKey key merged.definitions := by
        rw [merged_definitions hmerged, Merge.hasKey_foldl_add]
        exact .inl ⟨d, List.mem_append_left _ hd, hkey⟩
      obtain ⟨e, he, hekey⟩ := hhas
      exact List.mem_filterMap.mpr ⟨e, he, Merge.name?_of_key? hekey hname⟩

include hroots hwritten hns hgenerated

/-- A fragment has a declared key only where it may alter the definition. -/
theorem keyed_generated_eq_nil {key : String}
    (hinputs : ∀ t ∈ fragmentInputs generated, t.name ≠ key) (h : ¬ s.Generates key) :
    Merge.keyed key generated.flatten = [] := by
  rw [keyed_generated hroots hwritten hns hgenerated hinputs, List.flatMap_eq_nil_iff]
  intro r hr
  have hroot : r.typeName ∈ s.roots := (mem_roots hroots).mpr ⟨r, hr, rfl⟩
  rw [Merge.keyed_eq_nil]
  rintro ⟨e, he, hkey⟩
  apply h
  rcases Fragment.mem_outputs_of_key he hkey with
    ⟨page, hpage, rfl, -⟩ | ⟨hrole, -⟩ | ⟨rfl, t, htimes, -⟩
  · exact .inl ⟨r.typeName, hroot, mem_pageNames hpage⟩
  · exact .inr (.inl ⟨hrole, List.ne_nil_of_mem hroot⟩)
  · exact .inr (.inr ⟨htimes, hroot⟩)

include hkeys

/-- Nothing is merged over a schema definition. -/
theorem keyed_schemaKey {definition : SchemaDef} (hd : .schema definition ∈ s.working.definitions)
    (hrole : ¬ (RootNames.ofDocument s.working).Includes Merge.schemaKey) :
    Merge.keyed Merge.schemaKey generated.flatten = [] := by
  have hinputs := fragmentInputs_of_declared hroots hwritten hns hgenerated hd rfl
  refine keyed_generated_eq_nil hroots hwritten hns hgenerated hinputs ?_
  rintro (⟨root, -, hpage⟩ | ⟨hincludes, -⟩ | ⟨-, hroot⟩)
  · exact schemaKey_not_mem_pageNames root hpage
  · exact hrole hincludes
  · obtain ⟨r, hr, hname⟩ := (mem_roots hroots).mp hroot
    obtain ⟨-, fields, -, hfields, -⟩ := describeRoot_eq_ok (describeRoot_of_mem hroots hr)
    obtain ⟨t, ht, htname, -, -⟩ := exists_type_of_objectFields? hfields
    have hsame := Merge.eq_of_key? hkeys hd (mem_types.mp ht) rfl
      (congrArg some (htname.trans hname))
    cases hsame

include hmerged

/-- The merged document names the roots of the schema as the consumer does, if nothing is merged
over a schema definition. -/
theorem ofDocument_merged_of_keyed
    (hnone : ∀ definition, .schema definition ∈ s.working.definitions →
      Merge.keyed Merge.schemaKey generated.flatten = []) :
    RootNames.ofDocument merged = RootNames.ofDocument s.working := by
  have htypes (e : Definition) (he : e ∈ generated.flatten) : ∃ t, e = .type t :=
    eq_type_of_mem_flatten hroots hwritten hns hgenerated he
  have hprimitives : ∀ p ∈ Primitives.definitions s.options.ns, rootsIn (Merge.overlaid
      (mergedPolicies s) (s.working.definitions ++ generated.flatten) p) = [] := by
    intro p hp
    obtain ⟨rest, hkey⟩ := key?_of_mem_primitives hp
    exact rootsIn_of_key ((Merge.key?_overlaid _ p).trans hkey) (primitiveKey_ne (by decide))
  have hkept : ∀ d ∈ s.working.definitions,
      rootsIn (Merge.overlaid (mergedPolicies s) generated.flatten d) = rootsIn d := by
    intro d hd
    cases d with
    | schema definition =>
        rw [Merge.overlaid_of_key rfl, hnone definition hd]
        rfl
    | _ =>
        rcases overlaid_types (mergedPolicies s) htypes _ with h | ⟨t, h⟩
        · rw [h]
        · rw [h]
          rfl
  have hnews : ∀ e ∈ Merge.placed (Merge.policyOf (mergedPolicies s))
      (Primitives.definitions s.options.ns ++ s.working.definitions) generated.flatten,
      rootsIn e = [] := by
    intro e he
    have htype : ∃ t, e = .type t := by
      rcases Merge.mem_placed he with ⟨-, hmem⟩ | ⟨key, d, rest, -, -, hkeyed, rfl⟩
      · exact htypes e hmem
      · have hall : ∀ e ∈ d :: rest, ∃ t, e = .type t :=
          fun e he => htypes e (Merge.mem_keyed.mp (hkeyed ▸ he)).1
        obtain ⟨hd, hrest⟩ := List.forall_mem_cons.mp hall
        exact foldl_combine_types hd hrest
    obtain ⟨t, rfl⟩ := htype
    rfl
  have hmiddle : (s.working.definitions.filter
      (Merge.IsNew (Primitives.definitions s.options.ns))).flatMap
        (fun d => rootsIn (Merge.overlaid (mergedPolicies s) generated.flatten d)) =
      s.working.definitions.flatMap rootsIn := by
    rw [← flatMap_rootsIn_filter s.options.ns]
    exact List.flatMap_congr fun d hd => hkept d (List.mem_filter.mp hd).1
  rw [ofDocument_eq, ofDocument_eq, merged_places hmerged hkeys]
  simp only [List.flatMap_append, List.flatMap_map]
  rw [List.flatMap_eq_nil_iff.mpr hprimitives, List.flatMap_eq_nil_iff.mpr hnews, hmiddle,
    List.nil_append, List.append_nil]

/-- The merged document names the roots of the schema as the consumer does. -/
theorem ofDocument_merged
    (hrole : ¬ (RootNames.ofDocument s.working).Includes Merge.schemaKey) :
    RootNames.ofDocument merged = RootNames.ofDocument s.working :=
  ofDocument_merged_of_keyed hroots hwritten hns hgenerated hmerged hkeys fun _ hd =>
    keyed_schemaKey hroots hwritten hns hgenerated hkeys hd hrole

end Merged

end RecordApi
