import RecordApi.Memory.Cabinet
import RecordApi.Proofs.Binding.ResolverMaps
import RecordApi.Proofs.Derivation.EntryPoints
import RecordApi.Proofs.Schema.Built

/-!
# Agreement of resolvers and schema

The types that serve a schema are named twice: from the working document when the entry points are
generated, and by the schema that is built in the end. Both name the same types. What resolvers are
bound to is there in the schema, so every root type is entered on both of them and is served by a
collection of its own.
-/

namespace RecordApi

open RecordApi.Language

namespace Sources

variable (s : Sources)

/-- Whether no root type, and no type that serves the schema, is called like a type that has the
operations of a root type. -/
structure Unshared : Prop where
  roots : ∀ root ∈ s.roots, ∀ op : Operation, root ++ op.suffix ∉ s.roots
  roles : ∀ root ∈ s.roots, ∀ op : Operation,
    ¬ (RootNames.ofDocument s.working).Includes (root ++ op.suffix)

/-- Whether there are types to serve the schema. Without root types they must be named or declared;
with root types they must not be those by which every schema describes itself. -/
structure Rooted : Prop where
  standing : s.roots = [] → (∃ d, .schema d ∈ s.working.definitions) ∨
    ∀ name ∈ ["Query", "Mutation"], ∃ t ∈ s.working.types, t.name = name
  declared : s.roots ≠ [] → ∀ t ∈ introspectionTypes,
    ¬ (RootNames.ofDocument s.working).Includes t.name

end Sources

/-! ## Fields of a schema that has been built -/

/-- A completed schema definition names the types for queries and mutations. -/
theorem mem_operations_completeRoots (names : RootNames) (d : SchemaDef)
    {operation : OperationKind} (h : operation ∈ [OperationKind.query, .mutation]) :
    operation ∈ (Assembly.completeRoots names d).roots.map (·.operation) := by
  by_cases hpresent : operation ∈ d.roots.map (·.operation)
  · rw [Assembly.completeRoots, List.map_append]
    exact List.mem_append_left _ hpresent
  · have hmissing : ∃ root ∈ [RootDef.mk .query names.query, RootDef.mk .mutation names.mutation],
        root.operation = operation := by
      revert operation
      simp
    obtain ⟨root, hroot, rfl⟩ := hmissing
    refine List.mem_map_of_mem (List.mem_append_right _ (List.mem_filter.mpr ⟨hroot, ?_⟩))
    simpa using hpresent

/-- Every operation of a root type is a field of one of its pages' types. All but a list have the
identifier for an argument. -/
theorem Fragment.exists_operation (options : Options) (d : Descriptor) (op : Operation) :
    ∃ page ∈ pageTypes options d, page.name = d.typeName ++ op.suffix ∧
      ∃ interfaces fields, page.body = .object interfaces fields ∧ ∃ f ∈ fields,
        f.name = op.name ∧ (op ≠ .list → d.idName ∈ f.arguments.map (·.name)) := by
  cases op with
  | find | list =>
      refine ⟨queryType options d, by simp [pageTypes], rfl, _, _, rfl, ?_⟩
      simp [Operation.name, plainField, plainArgument]
  | create | update | upsert | delete =>
      refine ⟨mutationType d, by simp [pageTypes], rfl, _, _, rfl, ?_⟩
      simp [Operation.name, plainField, plainArgument]

theorem append_suffix_not_standard (typeName : String) (op : Operation) :
    typeName ++ op.suffix ∉ standardNames := by
  have hends : ∀ name ∈ standardNames, ¬ op.suffix.toList <:+ name.toList := by
    cases op <;> decide
  exact fun h => append_ne (hends _ h) typeName rfl

section Built

variable {s : Sources} {descriptors : List Descriptor} {generated : List (List Definition)}
  {merged : Document} {schema : Schema}
  (hroots : s.roots.eraseDups.mapM (Assembly.describeRoot s.working s.options.selector) =
    .ok descriptors)
  (hwritten : s.working.Written)
  (hns : s.options.ns.toList.all isNameContinue)
  (hgenerated : Assembly.fragments (Assembly.rootBasis s.working s.options descriptors)
    descriptors = .ok generated)
  (hmerged : Merge.mergeDocuments (mergedPolicies s) (mergedDocuments s generated) = .ok merged)
  (hschema : Schema.build (Assembly.completeSchema merged) = .ok schema)

include hroots hwritten hns hgenerated

/-- Without root types nothing is generated. -/
theorem flatten_generated_of_roots (h : s.roots = []) : generated.flatten = [] := by
  have hnone : descriptors = [] := by
    have hnames := typeNames_descriptors hroots
    rw [h] at hnames
    exact List.map_eq_nil_iff.mp hnames
  obtain ⟨parts, -, rfl, -⟩ := exists_grown hroots hwritten hns hgenerated
  rw [hnone]
  rfl

include hmerged

/-- Where nothing is generated, the merged document has the consumer's definitions. -/
theorem mem_merged_of_roots (hkeys : Merge.UniqueKeys s.working.definitions) (h : s.roots = [])
    {d : Definition} (hd : d ∈ s.working.definitions) {key : String}
    (hkey : Merge.key? d = some key) (hplain : key.toList.head? ≠ some 'D') :
    d ∈ merged.definitions := by
  have hnew : Merge.IsNew (Primitives.definitions s.options.ns) d := by
    rintro other hother ⟨p, hp, hpkey⟩
    obtain ⟨rest, hrest⟩ := key?_of_mem_primitives hp
    obtain rfl : other = key := Option.some.inj (hother.symm.trans hkey)
    exact primitiveKey_ne hplain (Option.some.inj (hrest.symm.trans hpkey))
  rw [merged_places hmerged hkeys,
    flatten_generated_of_roots hroots hwritten hns hgenerated h, List.mem_append, List.mem_append]
  refine .inl (.inr (List.mem_map.mpr ⟨d, List.mem_filter.mpr ⟨hd, by simpa using hnew⟩, ?_⟩))
  rw [Merge.overlaid_of_key hkey]
  rfl

include hschema

/-- A schema that can be built is not served by a type with the key of schema definitions. -/
theorem not_includes_schemaKey (hne : s.roots ≠ []) :
    ¬ (RootNames.ofDocument s.working).Includes Merge.schemaKey := by
  intro hrole
  have hsome := typeNamed?_schemaKey hroots hwritten hns hgenerated hmerged hrole hne
  rw [← typeNamed?_completeSchema] at hsome
  have hnone := Schema.not_reserved_of_build hschema (by decide) hsome
  exact absurd hnone (by decide +kernel)

/-- The schema has the operations of every root type. -/
theorem operations_built (hunshared : s.Unshared) {d : Descriptor} (hd : d ∈ descriptors)
    (op : Operation) :
    schema.isOf TypeShape.isObject (.named (d.typeName ++ op.suffix)) ∧
      ∃ f ∈ schema.fieldsOf (d.typeName ++ op.suffix), f.name = op.name ∧
        (op ≠ .list → d.idName ∈ f.arguments.map (·.name)) := by
  have hroot : d.typeName ∈ s.roots := (mem_roots hroots).mpr ⟨d, hd, rfl⟩
  obtain ⟨page, hpage, hname, interfaces, fields, hbody, f, hf, hop, hid⟩ :=
    Fragment.exists_operation s.options d op
  have hfind := typeNamed?_page hroots hwritten hns hgenerated hmerged hd hpage
    (hname ▸ hunshared.roots _ hroot op) (hname ▸ hunshared.roles _ hroot op)
  rw [hname, ← typeNamed?_completeSchema] at hfind
  obtain ⟨-, hbuilt, -⟩ := Schema.build_eq_ok hschema
  obtain ⟨hobject, hfields⟩ := Schema.fields_of_typeNamed? hbuilt
    (append_suffix_not_standard d.typeName op) hfind hbody
  obtain ⟨g, hg, hgname, harguments⟩ := hfields f hf
  exact ⟨hobject, g, hg, hgname.trans hop, fun hlist => harguments ▸ hid hlist⟩

variable (hkeys : Merge.UniqueKeys s.working.definitions)

include hkeys

theorem ofDocument_built :
    RootNames.ofDocument (Assembly.completeSchema merged) = RootNames.ofDocument s.working := by
  rw [ofDocument_completeSchema (uniqueKeys_merged hmerged)]
  refine ofDocument_merged_of_keyed hroots hwritten hns hgenerated hmerged hkeys fun _ hd => ?_
  by_cases hne : s.roots = []
  · rw [flatten_generated_of_roots hroots hwritten hns hgenerated hne]
    rfl
  · exact keyed_schemaKey hroots hwritten hns hgenerated hkeys hd
      (not_includes_schemaKey hroots hwritten hns hgenerated hmerged hschema hne)

/-- Where no schema definition names the types that serve the schema, they have the usual names. -/
theorem typeNamed?_usual (hrooted : s.Rooted)
    (hnone : ∀ d, .schema d ∉ (Assembly.completeSchema merged).definitions) {name : String}
    (hname : name ∈ ["Query", "Mutation"]) :
    ((Assembly.completeSchema merged).typeNamed? name).isSome := by
  have hplain : name.toList.head? ≠ some 'D' ∧ name ≠ Merge.schemaKey := by
    revert name
    decide
  rw [typeNamed?_completeSchema]
  by_cases hne : s.roots = []
  · have hkept {d : Definition} (hd : d ∈ s.working.definitions) {key : String}
        (hkey : Merge.key? d = some key) (hother : key.toList.head? ≠ some 'D') :
        d ∈ merged.definitions :=
      mem_merged_of_roots hroots hwritten hns hgenerated hmerged hkeys hne hd hkey hother
    rcases hrooted.standing hne with ⟨d, hd⟩ | hall
    · have hmem := hkept hd rfl (by decide)
      rw [definitions_completeSchema] at hnone
      exact absurd (List.mem_map.mpr ⟨_, hmem, rfl⟩) (hnone _)
    · obtain ⟨t, ht, hsame⟩ := hall name hname
      have hmem := hkept (mem_types.mp ht) rfl (hsame ▸ hplain.1)
      exact List.find?_isSome.mpr ⟨t, mem_types.mpr hmem, beq_iff_eq.mpr hsame⟩
  · have hnames : RootNames.ofDocument s.working = ⟨"Query", "Mutation"⟩ := by
      rw [← ofDocument_built hroots hwritten hns hgenerated hmerged hschema hkeys, ofDocument_eq,
        flatMap_rootsIn_eq, schemaRoots_eq_nil hnone]
      rfl
    have hrole : (RootNames.ofDocument s.working).Includes name := by
      rw [hnames]
      simpa [RootNames.Includes] using hname
    obtain ⟨t, -, -, ht, -⟩ :=
      typeNamed?_role hroots hwritten hns hgenerated hmerged hplain.2 hrole hne
    rw [ht]
    rfl

/-- The types that serve the schema are those that the working document names. -/
theorem roots_built (hrooted : s.Rooted) :
    schema.query = some (RootNames.ofDocument s.working).query ∧
      schema.mutation = some (RootNames.ofDocument s.working).mutation := by
  rw [← ofDocument_built hroots hwritten hns hgenerated hmerged hschema hkeys]
  refine Schema.roots_of_build hschema (uniqueKeys_completeSchema (uniqueKeys_merged hmerged))
    (fun d hd operation hoperation => ?_) fun hnone name hname =>
      typeNamed?_usual hroots hwritten hns hgenerated hmerged hschema hkeys hrooted hnone hname
  rw [definitions_completeSchema] at hd
  obtain ⟨e, -, he⟩ := List.mem_map.mp hd
  cases e with
  | schema definition =>
      obtain rfl := Definition.schema.inj he
      exact mem_operations_completeRoots _ _ hoperation
  | _ => cases he

/-- The schema has the entry points of every root type. -/
theorem entries_built (hrooted : s.Rooted) {name : String}
    (hrole : (RootNames.ofDocument s.working).Includes name) {root : String}
    (hroot : root ∈ s.roots) : schema.HasField name (Naming.lowerCamel root) := by
  have hne : s.roots ≠ [] := List.ne_nil_of_mem hroot
  obtain ⟨-, hbuilt, hfaults⟩ := Schema.build_eq_ok hschema
  have hplain : name ∉ standardNames := by
    obtain ⟨hquery, hmutation⟩ :=
      roots_built hroots hwritten hns hgenerated hmerged hschema hkeys hrooted
    have hserves : schema.query = some name ∨ schema.mutation = some name := by
      rcases hrole with rfl | rfl
      · exact .inl hquery
      · exact .inr hmutation
    rcases Schema.not_standard_of_isObject hbuilt (Schema.isObject_of_root hfaults hserves) with
      h | ⟨t, ht, rfl⟩
    · exact h
    · exact absurd hrole (hrooted.declared hne t ht)
  have hkey : name ≠ Merge.schemaKey := by
    rintro rfl
    exact not_includes_schemaKey hroots hwritten hns hgenerated hmerged hschema hne hrole
  obtain ⟨t, interfaces, fields, ht, hbody, hentries⟩ :=
    typeNamed?_role hroots hwritten hns hgenerated hmerged hkey hrole hne
  rw [← typeNamed?_completeSchema] at ht
  obtain ⟨f, hf, hname⟩ := hentries root hroot
  obtain ⟨g, hg, hgname, -⟩ := (Schema.fields_of_typeNamed? hbuilt hplain ht hbody).2 f hf
  exact ⟨g, hg, hgname.trans hname⟩

end Built

section Content

variable {sources : List Source} {s : Sources} {assembled : Assembled} {schema : Schema}
  (hgiven : ∀ d, .document d ∈ sources → d.Written)
  (hload : Assembly.workingDocument s.options.reading sources = .ok s.working)
  (hkeys : Merge.UniqueKeys s.working.definitions) (hunshared : s.Unshared) (hrooted : s.Rooted)
  (hbuilt : Assembly.assemble sources s.roots s.options = .ok assembled)
  (hschema : Schema.build assembled.document = .ok schema)

include hgiven hload hkeys hunshared hrooted hbuilt hschema

/-- What the resolvers of an assembled schema are made of: bindings for its root types, which all
have their place in the schema and do not get in each other's way. -/
theorem serves_assembled {σ κ : Type} {env : Environment σ κ} {world left : σ}
    {resolvers : ResolverMap σ κ}
    (hacquired : Action.exec (env.resolvers s.options schema assembled.descriptors) world =
      (.ok resolvers, left)) :
    ResolverMap.Fits schema resolvers ∧ ∃ bindings : List (RecordBinding σ κ),
      bindings.map (·.handle.descriptor) = assembled.descriptors ∧
      (∀ binding ∈ bindings, binding.Binds env s.options binding.handle.descriptor) ∧
      ResolverMap.Serves (RootNames.ofDocument s.working) bindings resolvers := by
  have hwritten := workingDocument_written hgiven hload
  obtain ⟨hroots, hns, generated, merged, hgenerated, hmerged, hdocument⟩ :=
    assembleFrom_eq_ok (assembleFrom_of_assemble hload hbuilt)
  rw [hdocument] at hschema
  obtain ⟨hquery, hmutation⟩ :=
    roots_built hroots hwritten hns hgenerated hmerged hschema hkeys hrooted
  obtain ⟨bindings, hdescriptors, hbinds, hresolvers⟩ := Environment.exists_bindings hacquired
  rw [hquery, hmutation, Option.getD_some, Option.getD_some] at hresolvers
  subst hresolvers
  have hnames : bindings.map (·.typeName) = assembled.descriptors.map (·.typeName) := by
    rw [← hdescriptors, List.map_map]
    rfl
  have hserved {binding : RecordBinding σ κ} (hbinding : binding ∈ bindings) :
      binding.handle.descriptor ∈ assembled.descriptors :=
    hdescriptors ▸ List.mem_map_of_mem hbinding
  have hroot {binding : RecordBinding σ κ} (hbinding : binding ∈ bindings) :
      binding.typeName ∈ s.roots := (mem_roots hroots).mpr ⟨_, hserved hbinding, rfl⟩
  refine ⟨ResolverMap.fits_foldl_add (fun binding hbinding => ?_)
      (ResolverMap.fits_empty fun name hrole => ?_),
    bindings, hdescriptors, hbinds,
    ResolverMap.serves_foldl_add ?_ fun _ hbinding op => hunshared.roles _ (hroot hbinding) op⟩
  · have hops := operations_built hroots hwritten hns hgenerated hmerged hschema hunshared
      (hserved hbinding)
    refine ⟨fun name hrole => ?_, fun op => (hops op).1, fun op => ?_⟩
    · exact entries_built hroots hwritten hns hgenerated hmerged hschema hkeys hrooted hrole
        (hroot hbinding)
    · obtain ⟨-, f, hf, hop, -⟩ := hops op
      exact ⟨f, hf, hop⟩
  · obtain ⟨-, -, hfaults⟩ := Schema.build_eq_ok hschema
    apply Schema.isObject_of_root hfaults
    rcases hrole with rfl | rfl
    · exact .inl hquery
    · exact .inr hmutation
  · rw [hnames, typeNames_descriptors hroots]
    exact nodup_eraseDups s.roots

/-- A schema that can be built is served by the types that the working document names. Its resolvers
can always be bound to it: a service comes of whatever collections the store gives, and fails just
where the store does. Every root type is then entered on both types that serve the schema, and its
operations reach its own collection and have its identifier for an argument. -/
theorem resolvers_agree {σ κ : Type} (env : Environment σ κ) (world : σ) :
    schema.query = some (RootNames.ofDocument s.working).query ∧
    schema.mutation = some (RootNames.ofDocument s.working).mutation ∧
    Action.exec (Service.build env sources s.roots s.options) world =
      Action.exec ((fun resolvers =>
          Service.mk assembled.document schema resolvers assembled.descriptors) <$>
        env.resolvers s.options schema assembled.descriptors) world ∧
    ∀ resolvers left, Action.exec (env.resolvers s.options schema assembled.descriptors) world =
        (.ok resolvers, left) →
      ResolverMap.Fits schema resolvers ∧ ∀ root ∈ s.roots,
        (∀ name, (RootNames.ofDocument s.working).Includes name →
          schema.HasField name (Naming.lowerCamel root) ∧
            resolvers.find? name (Naming.lowerCamel root) = some .entryPoint) ∧
        ∃ d ∈ assembled.descriptors, d.typeName = root ∧
          Assembly.describeRoot s.working s.options.selector root = .ok d ∧
          ∃ binding : RecordBinding σ κ, binding.Binds env s.options d ∧ ∀ op : Operation,
            resolvers.find? (root ++ op.suffix) op.name = some (.operation binding op) ∧
              ∃ f ∈ schema.fieldsOf (root ++ op.suffix), f.name = op.name ∧
                (op ≠ .list → d.idName ∈ f.arguments.map (·.name)) := by
  have hwritten := workingDocument_written hgiven hload
  obtain ⟨hroots, hns, generated, merged, hgenerated, hmerged, hdocument⟩ :=
    assembleFrom_eq_ok (assembleFrom_of_assemble hload hbuilt)
  have hcompleted : Schema.build (Assembly.completeSchema merged) = .ok schema :=
    hdocument ▸ hschema
  obtain ⟨hquery, hmutation⟩ :=
    roots_built hroots hwritten hns hgenerated hmerged hcompleted hkeys hrooted
  refine ⟨hquery, hmutation, Service.exec_build hbuilt hschema fun resolvers left hacquired => ?_,
    fun resolvers left hacquired => ?_⟩
  · exact (serves_assembled hgiven hload hkeys hunshared hrooted hbuilt hschema hacquired).1
  obtain ⟨hfits, bindings, hdescriptors, hbinds, hserved⟩ :=
    serves_assembled hgiven hload hkeys hunshared hrooted hbuilt hschema hacquired
  refine ⟨hfits, fun root hroot => ?_⟩
  obtain ⟨d, hd, rfl⟩ := (mem_roots hroots).mp hroot
  obtain ⟨binding, hbinding, rfl⟩ := List.mem_map.mp (hdescriptors ▸ hd)
  refine ⟨fun name hrole => ⟨?_, hserved.entries binding hbinding name hrole⟩, _, hd, rfl,
    describeRoot_of_mem hroots hd, binding, hbinds binding hbinding,
    fun op => ⟨hserved.operations binding hbinding op, ?_⟩⟩
  · exact entries_built hroots hwritten hns hgenerated hmerged hcompleted hkeys hrooted hrole hroot
  · exact (operations_built hroots hwritten hns hgenerated hmerged hcompleted hunshared hd op).2

end Content

/-! ## Shelves for widgets and gadgets -/

/-- Shelves that are empty at first. -/
def emptyShelves : Environment (Cabinet Unit) Unit :=
  ⟨Cabinet.store ⟨[], [], []⟩, (), Cabinet.tick 0⟩

/-- Widgets and gadgets are bound to shelves of their own. -/
theorem resolvers_agree_gadgets :
    (∀ d, .document d ∈ [Source.document (widgetsAnd "Gadget").working] → d.Written) ∧
    Assembly.workingDocument (widgetsAnd "Gadget").options.reading
      [.document (widgetsAnd "Gadget").working] = .ok (widgetsAnd "Gadget").working ∧
    Merge.UniqueKeys (widgetsAnd "Gadget").working.definitions ∧
    (widgetsAnd "Gadget").Unshared ∧ (widgetsAnd "Gadget").Rooted ∧
    ∃ assembled schema resolvers left,
      Assembly.assemble [.document (widgetsAnd "Gadget").working] (widgetsAnd "Gadget").roots
        (widgetsAnd "Gadget").options = .ok assembled ∧
      Schema.build assembled.document = .ok schema ∧
      Action.exec (emptyShelves.resolvers (widgetsAnd "Gadget").options schema
        assembled.descriptors) {} = (.ok resolvers, left) ∧
      schema.query = some "Query" ∧ schema.mutation = some "Mutation" ∧
      ResolverMap.Fits schema resolvers ∧
      ∃ binding, binding.Binds emptyShelves (widgetsAnd "Gadget").options
          (flatDescriptor "Gadget" "label") ∧
        resolvers.find? "GadgetQuery" "find" = some (.operation binding .find) := by
  have hother : "Gadget" ∈ ["Gadget", "widget"] := by decide
  have hgiven : ∀ d, .document d ∈ [Source.document (widgetsAnd "Gadget").working] →
      d.Written := by
    intro d hd
    obtain rfl : d = (widgetsAnd "Gadget").working := by simpa using hd
    exact written_widgetsAnd hother
  have hload : Assembly.workingDocument (widgetsAnd "Gadget").options.reading
      [.document (widgetsAnd "Gadget").working] = .ok (widgetsAnd "Gadget").working := rfl
  have hkeys : Merge.UniqueKeys (widgetsAnd "Gadget").working.definitions := by decide
  have hunshared : (widgetsAnd "Gadget").Unshared := by
    constructor
    · intro root hroot op
      revert root
      cases op <;> decide
    · intro root hroot op
      revert root
      cases op <;> decide
  have hrooted : (widgetsAnd "Gadget").Rooted :=
    ⟨fun hnone => absurd hnone (by decide), fun _ => by decide⟩
  have hbuilt := assemble_widgetsAnd hother
  obtain ⟨schema, hschema, -⟩ := exists_ok_of_any (p := fun _ => true)
    (x := Schema.build (Assembly.completeSchema (Document.ofDefinitions (Merge.mergeDefinitions
      (mergedPolicies (widgetsAnd "Gadget")) ((mergedDocuments (widgetsAnd "Gadget")
        [ flatFragment "Gadget" "Widget" "name",
          flatFragment "Gadget" "Gadget" "label" ]).map (·.definitions))))))
    (by decide +kernel)
  have hacquired : ∃ resolvers left, Action.exec (emptyShelves.resolvers
      (widgetsAnd "Gadget").options schema
        [flatDescriptor "Widget" "name", flatDescriptor "Gadget" "label"]) {} =
          (.ok resolvers, left) := ⟨_, _, rfl⟩
  obtain ⟨resolvers, left, hacquired⟩ := hacquired
  obtain ⟨hquery, hmutation, -, hserved⟩ :=
    resolvers_agree hgiven hload hkeys hunshared hrooted hbuilt hschema emptyShelves {}
  obtain ⟨hfits, hall⟩ := hserved resolvers left hacquired
  obtain ⟨-, d, -, -, hdescribed, binding, hbinds, hoperations⟩ := hall "Gadget" (by decide)
  have hdescriptor : Assembly.describeRoot (widgetsAnd "Gadget").working
      (widgetsAnd "Gadget").options.selector "Gadget" = .ok (flatDescriptor "Gadget" "label") := rfl
  obtain rfl := Except.ok.inj (hdescriptor.symm.trans hdescribed)
  exact ⟨hgiven, hload, hkeys, hunshared, hrooted, _, schema, resolvers, left, hbuilt, hschema,
    hacquired, hquery, hmutation, hfits, binding, hbinds, (hoperations .find).1⟩

/-! ## A schema without mutations -/

/-- A schema without root types, whose type of queries has the usual name. -/
def pings : Sources where
  working := Document.ofDefinitions
    [.type (Fragment.objectType "Query" [Fragment.plainField "ping" [] (.named "Int")])]
  options := {}
  roots := []

/-- Without root types and a type of mutations a schema can be built, but its resolvers cannot be
bound. -/
theorem resolvers_disagree_pings :
    (∀ d, .document d ∈ [Source.document pings.working] → d.Written) ∧
    Assembly.workingDocument pings.options.reading [.document pings.working] =
      .ok pings.working ∧
    Merge.UniqueKeys pings.working.definitions ∧ pings.Unshared ∧
    ∃ assembled schema resolvers left,
      Assembly.assemble [.document pings.working] pings.roots pings.options = .ok assembled ∧
      Schema.build assembled.document = .ok schema ∧
      (RootNames.ofDocument pings.working).mutation = "Mutation" ∧ schema.mutation = none ∧
      Action.exec (emptyShelves.resolvers pings.options schema assembled.descriptors) {} =
        (.ok resolvers, left) ∧
      ResolverMap.check schema resolvers = .error (.notBindable "Mutation") := by
  have hgiven : ∀ d, .document d ∈ [Source.document pings.working] → d.Written := by
    intro d hd
    obtain rfl : d = pings.working := by simpa using hd
    decide
  have hload : Assembly.workingDocument pings.options.reading [.document pings.working] =
      .ok pings.working := rfl
  have hunshared : pings.Unshared :=
    ⟨fun _ hroot => absurd hroot List.not_mem_nil, fun _ hroot => absurd hroot List.not_mem_nil⟩
  have hroots : pings.roots.eraseDups.mapM
      (Assembly.describeRoot pings.working pings.options.selector) = .ok [] := rfl
  have hgenerated : Assembly.fragments (Assembly.rootBasis pings.working pings.options []) [] =
      .ok [] := rfl
  have hbuilt : Assembly.assemble [.document pings.working] pings.roots pings.options =
      .ok ⟨_, []⟩ :=
    bind_eq_ok.mpr ⟨_, hload,
      assembleFrom_of_fragments hroots (by decide) hgenerated (by decide) (by simp)⟩
  obtain ⟨schema, hschema, hparts⟩ := exists_ok_of_any
    (p := fun schema => schema.query == some "Query" && schema.mutation.isNone &&
      schema.isOf TypeShape.isObject (.named "Query") &&
        !schema.isOf TypeShape.isObject (.named "Mutation"))
    (x := Schema.build (Assembly.completeSchema (Document.ofDefinitions (Merge.mergeDefinitions
      (mergedPolicies pings) ((mergedDocuments pings []).map (·.definitions))))))
    (by decide +kernel)
  simp only [Bool.and_eq_true, beq_iff_eq, Option.isNone_iff_eq_none, Bool.not_eq_true'] at hparts
  obtain ⟨⟨⟨hquery, hmutation⟩, hobject⟩, hmissing⟩ := hparts
  have hacquired : Action.exec (emptyShelves.resolvers pings.options schema []) {} =
      (.ok [("Query", []), ("Mutation", [])], {}) := by
    have hnames : schema.query.getD "Query" = "Query" ∧
        schema.mutation.getD "Mutation" = "Mutation" := by
      rw [hquery, hmutation]
      exact ⟨rfl, rfl⟩
    unfold Environment.resolvers
    rw [hnames.1, hnames.2]
    rfl
  refine ⟨hgiven, hload, by decide, hunshared, _, schema, _, _, hbuilt, hschema, rfl, hmutation,
    hacquired, ?_⟩
  simp [ResolverMap.check, hobject, hmissing]

end RecordApi
