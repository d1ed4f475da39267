import RecordApi.Proofs.Binding.Agreement
import RecordApi.Proofs.MergeRepeats
import RecordApi.Proofs.Schema.Fields

/-!
# Combined services

What is combined succeeds only if it has a field for every resolver, and every field that it has was
given by one of the components. So a field that a single component gives, and serves, is defined in
the combination as in its own service and has the resolver of its own service. The entry points of
all components are kept in this way, each on the types that serve its component. The combination,
however, is served by the types that the last schema definition names.
-/

namespace RecordApi

open RecordApi.Language

/-! ## Merging maps of resolvers -/

variable {σ κ : Type}

namespace ResolverMap

/-- Whether a map names no type twice, and no field of a type twice. -/
structure Distinct (resolvers : ResolverMap σ κ) : Prop where
  types : (resolvers.map Prod.fst).Nodup
  fields : ∀ entry ∈ resolvers, (entry.2.map Prod.fst).Nodup

theorem distinct_put {resolvers : ResolverMap σ κ} (h : Distinct resolvers) (typeName : String)
    {fields : Association (Resolver σ κ)} (hfields : (fields.map Prod.fst).Nodup) :
    Distinct (Association.put typeName fields resolvers) where
  types := Association.nodup_keys_put h.types _ _
  fields := fun entry hentry => by
    rcases Association.mem_of_mem_put hentry with rfl | hentry
    · exact hfields
    · exact h.fields entry hentry

theorem distinct_change {resolvers : ResolverMap σ κ} (h : Distinct resolvers) (typeName : String)
    (fieldName : String) (resolver : Resolver σ κ) :
    Distinct (Association.change typeName (Association.put fieldName resolver) resolvers) where
  types := by
    rw [Association.keys_change]
    exact h.types
  fields := fun entry hentry => by
    rcases Association.mem_of_mem_change hentry with hentry | ⟨fields, hfields, rfl⟩
    · exact h.fields entry hentry
    · exact Association.nodup_keys_put (h.fields _ hfields) _ _

theorem distinct_empty (query mutation : String) :
    Distinct (empty query mutation : ResolverMap σ κ) :=
  distinct_put ⟨by simp, by simp⟩ mutation List.nodup_nil

theorem distinct_add {resolvers : ResolverMap σ κ} (h : Distinct resolvers)
    (query mutation : String) (binding : RecordBinding σ κ) :
    Distinct (add query mutation resolvers binding) := by
  have hoperations (operations : List Operation) (hnodup : (operations.map (·.name)).Nodup) :
      ((ofOperations binding operations).map Prod.fst).Nodup := by
    rw [ofOperations, List.map_map]
    exact hnodup
  exact distinct_put (distinct_put (distinct_change (distinct_change h _ _ _) _ _ _) _
    (hoperations _ (by decide))) _ (hoperations _ (by decide))

/-- The maps that are made for root types name nothing twice. -/
theorem distinct_foldl_add (query mutation : String) (bindings : List (RecordBinding σ κ))
    {resolvers : ResolverMap σ κ} (h : Distinct resolvers) :
    Distinct (bindings.foldl (add query mutation) resolvers) := by
  induction bindings generalizing resolvers with
  | nil => exact h
  | cons binding rest ih => exact ih (distinct_add h query mutation binding)

theorem find?_put {resolvers : ResolverMap σ κ} (typeName : String)
    (fields : Association (Resolver σ κ)) (name field : String) :
    find? (Association.put typeName fields resolvers) name field =
      if name = typeName then fields.lookup field else resolvers.find? name field := by
  rw [find?, ofType?, Association.lookup_put]
  split <;> rfl

/-- In merged maps the resolvers of the second count first. -/
theorem find?_merge {more : ResolverMap σ κ} (h : Distinct more) (resolvers : ResolverMap σ κ)
    (name field : String) :
    (merge resolvers more).find? name field =
      (more.find? name field).or (resolvers.find? name field) := by
  induction more generalizing resolvers with
  | nil => rfl
  | cons entry rest ih =>
      obtain ⟨typeName, fields⟩ := entry
      obtain ⟨hnew, hrest⟩ := List.nodup_cons.mp h.types
      obtain ⟨hfields, hall⟩ := List.forall_mem_cons.mp h.fields
      have hstep : merge resolvers ((typeName, fields) :: rest) =
          merge (Association.put typeName
            (Association.putAll ((resolvers.lookup typeName).getD []) fields) resolvers) rest := rfl
      rw [hstep, ih ⟨hrest, hall⟩, find?_put]
      by_cases hname : name = typeName
      · subst hname
        have hnone : find? rest name field = none := by
          rw [find?, ofType?, Association.lookup_eq_none hnew]
          rfl
        have hown : find? ((name, fields) :: rest) name field = fields.lookup field := by
          rw [find?, ofType?, Association.lookup_cons, if_pos rfl]
          rfl
        rw [if_pos rfl, hnone, hown, Option.none_or, Association.lookup_putAll hfields, find?,
          ofType?]
        cases List.lookup name resolvers <;> rfl
      · have hother : find? ((typeName, fields) :: rest) name field = find? rest name field := by
          rw [find?, ofType?, Association.lookup_cons, if_neg hname]
          rfl
        rw [if_neg hname, hother]

theorem find?_foldl_merge {services : List (Service σ κ)}
    (h : ∀ service ∈ services, Distinct service.resolvers) (resolvers : ResolverMap σ κ)
    (name field : String) :
    (services.foldl (fun merged service => merge merged service.resolvers) resolvers).find?
        name field =
      (services.reverse.findSome? fun service => service.resolvers.find? name field).or
        (resolvers.find? name field) := by
  induction services generalizing resolvers with
  | nil => rfl
  | cons service rest ih =>
      obtain ⟨hservice, hrest⟩ := List.forall_mem_cons.mp h
      rw [List.foldl_cons, ih hrest, find?_merge hservice, List.reverse_cons,
        List.findSome?_append, List.findSome?_singleton, Option.or_assoc]

/-! ## Types that stay -/

theorem mem_keys_foldl_add {resolvers : ResolverMap σ κ} {name : String}
    (h : name ∈ resolvers.map Prod.fst) (query mutation : String)
    (bindings : List (RecordBinding σ κ)) :
    name ∈ (bindings.foldl (add query mutation) resolvers).map Prod.fst := by
  induction bindings generalizing resolvers with
  | nil => exact h
  | cons binding rest ih =>
      refine ih (Association.mem_keys_put (Association.mem_keys_put ?_ _ _) _ _)
      rwa [Association.keys_change, Association.keys_change]

theorem mem_keys_merge {resolvers more : ResolverMap σ κ} {name : String}
    (h : name ∈ resolvers.map Prod.fst ∨ name ∈ more.map Prod.fst) :
    name ∈ (merge resolvers more).map Prod.fst := by
  induction more generalizing resolvers with
  | nil => exact h.resolve_right List.not_mem_nil
  | cons entry rest ih =>
      refine ih ?_
      rcases h with hkept | hmore
      · exact .inl (Association.mem_keys_put hkept _ _)
      · rcases List.mem_cons.mp hmore with rfl | hrest
        · exact .inl (Association.key_mem_put _ _ _)
        · exact .inr hrest

theorem mem_keys_foldl_merge {services : List (Service σ κ)} {resolvers : ResolverMap σ κ}
    {name : String} (h : name ∈ resolvers.map Prod.fst ∨
      ∃ service ∈ services, name ∈ service.resolvers.map Prod.fst) :
    name ∈ (services.foldl (fun merged service => merge merged service.resolvers)
      resolvers).map Prod.fst := by
  induction services generalizing resolvers with
  | nil => simpa using h
  | cons service rest ih =>
      refine ih ?_
      rcases h with hkept | ⟨other, hother, hmem⟩
      · exact .inl (mem_keys_merge (.inl hkept))
      · rcases List.mem_cons.mp hother with rfl | hrest
        · exact .inl (mem_keys_merge (.inr hmem))
        · exact .inr ⟨other, hrest, hmem⟩

/-- What has a resolver is a field of every schema that the map fits. -/
theorem Fits.hasField {schema : Schema} {resolvers : ResolverMap σ κ} (h : Fits schema resolvers)
    {name field : String} {resolver : Resolver σ κ}
    (hfind : resolvers.find? name field = some resolver) : schema.HasField name field := by
  obtain ⟨fields, hfields, hlookup⟩ := Option.bind_eq_some_iff.mp hfind
  exact (h _ (Association.mem_of_lookup hfields)).2 _ (Association.mem_of_lookup hlookup)

end ResolverMap

/-! ## Built services -/

namespace Service

/-- The names under which the entry points of a service are bound. -/
def names (service : Service σ κ) : RootNames :=
  ⟨service.schema.query.getD "Query", service.schema.mutation.getD "Mutation"⟩

theorem exec_pureAction {α : Type} (outcome : Except Failure α) (world : σ) :
    Action.exec (pureAction outcome) world = (outcome, world) := by
  cases outcome <;> rfl

/-- What a service is made of. -/
theorem exec_build_eq_ok {env : Environment σ κ} {fragments : List Source} {roots : List String}
    {options : Options} {world left : σ} {service : Service σ κ}
    (h : Action.exec (build env fragments roots options) world = (.ok service, left)) :
    Assembly.assemble fragments roots options = .ok ⟨service.document, service.descriptors⟩ ∧
      Schema.build service.document = .ok service.schema ∧
      Action.exec (env.resolvers options service.schema service.descriptors) world =
        (.ok service.resolvers, left) ∧
      ResolverMap.Fits service.schema service.resolvers := by
  obtain ⟨assembled, middle, hfirst, h⟩ := Action.exec_bind_eq_ok.mp h
  rw [exec_pureAction] at hfirst
  obtain ⟨hassembled, rfl⟩ := Prod.mk.inj hfirst
  obtain ⟨schema, middle, hsecond, h⟩ := Action.exec_bind_eq_ok.mp h
  rw [exec_pureAction] at hsecond
  obtain ⟨hschema, rfl⟩ := Prod.mk.inj hsecond
  obtain ⟨resolvers, last, hresolvers, h⟩ := Action.exec_bind_eq_ok.mp h
  obtain ⟨⟨⟩, final, hlast, h⟩ := Action.exec_bind_eq_ok.mp h
  rw [exec_pureAction] at hlast
  obtain ⟨hcheck, rfl⟩ := Prod.mk.inj hlast
  obtain ⟨hservice, rfl⟩ := Prod.mk.inj h
  obtain rfl := Except.ok.inj hservice
  exact ⟨hassembled, hschema, hresolvers, ResolverMap.check_eq_ok.mp hcheck⟩

/-- What a combined service is made of. -/
theorem combine_eq_ok {services : List (Service σ κ)} {combined : Service σ κ}
    (h : combine services = .ok combined) :
    Merge.mergeDocuments
        (Assembly.rootPolicies (services.map (·.document)) ++ PolicyTable.standard)
        (services.map (·.document)) = .ok combined.document ∧
      Schema.build combined.document = .ok combined.schema ∧
      combined.resolvers =
        services.foldl (fun merged service => ResolverMap.merge merged service.resolvers) [] ∧
      ResolverMap.Fits combined.schema combined.resolvers := by
  obtain ⟨document, hdocument, h⟩ := bind_eq_ok.mp h
  obtain ⟨schema, hschema, h⟩ := bind_eq_ok.mp h
  obtain ⟨⟨⟩, hcheck, h⟩ := bind_eq_ok.mp h
  obtain rfl := Except.ok.inj h
  exact ⟨hdocument, hschema, rfl, ResolverMap.check_eq_ok.mp hcheck⟩

end Service

/-- A service together with what it has been built with. -/
structure Component (σ κ : Type) where
  env : Environment σ κ
  options : Options
  service : Service σ κ
  built : ∃ fragments roots world left,
    Action.exec (Service.build env fragments roots options) world = (.ok service, left)

namespace Component

variable (component : Component σ κ)

theorem build_schema : Schema.build component.service.document = .ok component.service.schema := by
  obtain ⟨fragments, roots, world, left, hbuilt⟩ := component.built
  exact (Service.exec_build_eq_ok hbuilt).2.1

theorem fits : ResolverMap.Fits component.service.schema component.service.resolvers := by
  obtain ⟨fragments, roots, world, left, hbuilt⟩ := component.built
  exact (Service.exec_build_eq_ok hbuilt).2.2.2

/-- The document of a component repeats no key and has been completed, and its root types have
different names. -/
theorem assembled : (∃ merged, Merge.UniqueKeys merged.definitions ∧
      component.service.document = Assembly.completeSchema merged) ∧
    (component.service.descriptors.map (·.typeName)).Nodup := by
  obtain ⟨fragments, roots, world, left, hbuilt⟩ := component.built
  obtain ⟨hassembled, -⟩ := Service.exec_build_eq_ok hbuilt
  obtain ⟨working, -, hfrom⟩ := bind_eq_ok.mp hassembled
  let s : Sources := ⟨working, component.options, roots⟩
  obtain ⟨hroots, -, generated, merged, -, hmerged, hdocument⟩ :=
    assembleFrom_eq_ok (show Assembly.assembleFrom s.working s.roots s.options = _ from hfrom)
  refine ⟨⟨merged, uniqueKeys_merged hmerged, hdocument⟩, ?_⟩
  rw [typeNames_descriptors hroots]
  exact nodup_eraseDups roots

theorem uniqueKeys : Merge.UniqueKeys component.service.document.definitions := by
  obtain ⟨⟨merged, hkeys, hdocument⟩, -⟩ := component.assembled
  rw [hdocument]
  exact uniqueKeys_completeSchema hkeys

/-- Schema definitions of a component name the types for queries and mutations. -/
theorem mem_operations {d : SchemaDef} (hd : .schema d ∈ component.service.document.definitions)
    {operation : OperationKind} (h : operation ∈ [OperationKind.query, .mutation]) :
    operation ∈ d.roots.map (·.operation) := by
  obtain ⟨⟨merged, -, hdocument⟩, -⟩ := component.assembled
  rw [hdocument, definitions_completeSchema] at hd
  obtain ⟨e, -, he⟩ := List.mem_map.mp hd
  cases e with
  | schema own =>
      obtain rfl := Definition.schema.inj he
      exact mem_operations_completeRoots _ _ h
  | _ => cases he

/-- The resolvers of a component are those of bindings for its root types. -/
theorem exists_bindings : ∃ bindings : List (RecordBinding σ κ),
    bindings.map (·.handle.descriptor) = component.service.descriptors ∧
      (∀ binding ∈ bindings,
        binding.Binds component.env component.options binding.handle.descriptor) ∧
      component.service.resolvers = bindings.foldl
        (ResolverMap.add component.service.names.query component.service.names.mutation)
        (ResolverMap.empty component.service.names.query component.service.names.mutation) := by
  obtain ⟨fragments, roots, world, left, hbuilt⟩ := component.built
  obtain ⟨-, -, hresolvers, -⟩ := Service.exec_build_eq_ok hbuilt
  exact Environment.exists_bindings hresolvers

theorem distinct : ResolverMap.Distinct component.service.resolvers := by
  obtain ⟨bindings, -, -, hresolvers⟩ := component.exists_bindings
  rw [hresolvers]
  exact ResolverMap.distinct_foldl_add _ _ bindings (ResolverMap.distinct_empty _ _)

/-- A component has resolvers for both types that serve it. -/
theorem mem_keys {name : String} (h : component.service.names.Includes name) :
    name ∈ component.service.resolvers.map Prod.fst := by
  obtain ⟨bindings, -, -, hresolvers⟩ := component.exists_bindings
  rw [hresolvers]
  refine ResolverMap.mem_keys_foldl_add ?_ _ _ bindings
  rcases h with rfl | rfl
  · exact Association.mem_keys_put List.mem_cons_self _ _
  · exact Association.key_mem_put _ _ _

/-- The root types of a component are entered and have their operations, unless a type with
operations serves the component. -/
theorem serves (h : ∀ d ∈ component.service.descriptors, ∀ op : Operation,
      ¬ component.service.names.Includes (d.typeName ++ op.suffix)) :
    ∃ bindings : List (RecordBinding σ κ),
      bindings.map (·.handle.descriptor) = component.service.descriptors ∧
      (∀ binding ∈ bindings,
        binding.Binds component.env component.options binding.handle.descriptor) ∧
      ResolverMap.Serves component.service.names bindings component.service.resolvers := by
  obtain ⟨bindings, hdescriptors, hbinds, hresolvers⟩ := component.exists_bindings
  have hnames : bindings.map (·.typeName) =
      component.service.descriptors.map (·.typeName) := by
    rw [← hdescriptors, List.map_map]
    rfl
  refine ⟨bindings, hdescriptors, hbinds, ?_⟩
  rw [hresolvers]
  refine ResolverMap.serves_foldl_add (hnames ▸ component.assembled.2) fun binding hbinding op => ?_
  exact h _ (hdescriptors ▸ List.mem_map_of_mem hbinding) op

end Component

/-! ## Fields of merged documents -/

/-- What merged documents give to a type, one of them gives to it. -/
theorem exists_defines_of_merged {table : PolicyTable} {documents : List Document}
    {merged : Document} (h : Merge.mergeDocuments table documents = .ok merged)
    {typeName : String} {f : FieldDef} (hf : merged.Defines typeName f) :
    ∃ document ∈ documents, document.Defines typeName f := by
  have hgiven : ∀ d ∈ merged.definitions, ∀ typeName, d.name? = some typeName →
      ∀ f ∈ d.fields, ∃ document ∈ documents, document.Defines typeName f := by
    refine Merge.forall_mergeDocuments ?_ (fun document hdocument e he typeName hname f hf =>
      ⟨document, hdocument, e, he, hname, hf⟩) h
    intro policy key earlier later hekey hlkey hearlier hlater typeName hname f hf
    cases policy with
    | override => exact hlater typeName hname f hf
    | fieldUnion =>
        obtain rfl : key = typeName := Option.some.inj hname
        have hnamed {e : Definition} (hkey : Merge.key? e = some key) (hf : f ∈ e.fields) :
            e.name? = some key := by
          cases e with
          | schema => cases hf
          | schemaExtension => cases hf
          | typeExtension => cases hkey
          | _ => exact hkey
        rcases Merge.mem_of_mem_nameMerge hf with hf | hf
        · exact hearlier key (hnamed hekey hf) f hf
        · exact hlater key (hnamed hlkey hf) f hf
  obtain ⟨d, hd, hname, hf⟩ := hf
  exact hgiven d hd typeName hname f hf

/-! ## Fields that are kept -/

namespace Service

/-- Whether a field of a service is defined in another as in its own, and has the same resolver. -/
structure Keeps (combined service : Service σ κ) (typeName name : String) : Prop where
  resolver : combined.resolvers.find? typeName name = service.resolvers.find? typeName name
  field : ∃ f, service.document.Defines typeName f ∧ f.name = name ∧ ∃ shapes others,
    service.schema.field? typeName name = some (SchemaBuild.fieldOf shapes f) ∧
      combined.schema.field? typeName name = some (SchemaBuild.fieldOf others f)

end Service

namespace Component

/-- A component has no resolver for what its document does not give. -/
theorem find?_eq_none (component : Component σ κ) {typeName name : String}
    (h : ¬ component.service.document.Gives typeName name) :
    component.service.resolvers.find? typeName name = none := by
  by_contra hsome
  obtain ⟨resolver, hfind⟩ := Option.ne_none_iff_exists'.mp hsome
  obtain ⟨shapes, hall⟩ := Schema.exists_field? component.build_schema
  obtain ⟨-, f, ⟨d, hd, hdname, hf⟩, hname, -⟩ :=
    hall typeName name (component.fits.hasField hfind)
  exact h ⟨d, hd, hdname, f, hf, hname⟩

theorem definitions_components (components : List (Component σ κ)) :
    ((components.map (·.service)).map (·.document)).map (·.definitions) =
      components.map fun component => component.service.document.definitions := by
  simp

theorem uniqueKeys_of_mem (components : List (Component σ κ)) :
    ∀ list ∈ components.map fun component => component.service.document.definitions,
      Merge.UniqueKeys list := by
  intro list hlist
  obtain ⟨component, -, rfl⟩ := List.mem_map.mp hlist
  exact component.uniqueKeys

theorem keyed_flatten_eq_nil {key : String} {components : List (Component σ κ)}
    (h : ∀ component ∈ components, ¬ Merge.HasKey key component.service.document.definitions) :
    Merge.keyed key (components.map fun component =>
      component.service.document.definitions).flatten = [] := by
  rw [Merge.keyed_eq_nil]
  rintro ⟨d, hd, hkey⟩
  obtain ⟨list, hlist, hd⟩ := List.mem_flatten.mp hd
  obtain ⟨component, hcomponent, rfl⟩ := List.mem_map.mp hlist
  exact h component hcomponent ⟨d, hd, hkey⟩

section Combined

variable {before after : List (Component σ κ)} {component : Component σ κ}
  {combined : Service σ κ}
  (hcombined : Service.combine ((before ++ component :: after).map (·.service)) = .ok combined)

include hcombined

/-- A field that one component alone gives and serves is kept. -/
theorem keeps_of_sole {typeName name : String} {resolver : Resolver σ κ}
    (hfind : component.service.resolvers.find? typeName name = some resolver)
    (hothers : ∀ other ∈ before ++ after, ¬ other.service.document.Gives typeName name) :
    combined.Keeps component.service typeName name := by
  obtain ⟨hmerged, hschema, hresolvers, hfits⟩ := Service.combine_eq_ok hcombined
  have hsame : combined.resolvers.find? typeName name =
      component.service.resolvers.find? typeName name := by
    have hdistinct : ∀ service ∈ (before ++ component :: after).map (·.service),
        ResolverMap.Distinct service.resolvers := by
      intro service hservice
      obtain ⟨other, -, rfl⟩ := List.mem_map.mp hservice
      exact other.distinct
    have hnone (components : List (Component σ κ))
        (h : ∀ other ∈ components, ¬ other.service.document.Gives typeName name) :
        ((components.map (·.service)).reverse.findSome?
          fun service => service.resolvers.find? typeName name) = none := by
      rw [List.findSome?_eq_none_iff]
      intro service hservice
      obtain ⟨other, hother, rfl⟩ := List.mem_map.mp (List.mem_reverse.mp hservice)
      exact other.find?_eq_none (h other hother)
    obtain ⟨hbefore, hafter⟩ := List.forall_mem_append.mp hothers
    rw [hresolvers, ResolverMap.find?_foldl_merge hdistinct, List.map_append, List.map_cons,
      List.reverse_append, List.reverse_cons, List.findSome?_append, List.findSome?_append,
      hnone before hbefore, hnone after hafter, List.findSome?_singleton, hfind]
    rfl
  refine ⟨hsame, ?_⟩
  obtain ⟨shapes, hown⟩ := Schema.exists_field? component.build_schema
  obtain ⟨others, hall⟩ := Schema.exists_field? hschema
  obtain ⟨-, f, hf, hname, hfield⟩ := hown typeName name (component.fits.hasField hfind)
  obtain ⟨-, g, hg, hgname, hgfield⟩ := hall typeName name (hfits.hasField (hsame.trans hfind))
  obtain ⟨document, hdocument, hgiven⟩ := exists_defines_of_merged hmerged hg
  obtain ⟨service, hservice, rfl⟩ := List.mem_map.mp hdocument
  obtain ⟨giver, hgiver, rfl⟩ := List.mem_map.mp hservice
  have hgives : giver.service.document.Gives typeName name := by
    obtain ⟨d, hd, hdname, hmem⟩ := hgiven
    exact ⟨d, hd, hdname, g, hmem, hgname⟩
  have hself : giver = component := by
    rcases List.mem_append.mp hgiver with hbefore | hrest
    · exact absurd hgives (hothers giver (List.mem_append_left _ hbefore))
    · rcases List.mem_cons.mp hrest with rfl | hafter
      · rfl
      · exact absurd hgives (hothers giver (List.mem_append_right _ hafter))
  subst hself
  obtain rfl := Schema.eq_of_defines giver.build_schema hgiven hf (hgname.trans hname.symm)
  exact ⟨g, hgiven, hgname, shapes, others, hfield, hgfield⟩

theorem uniqueKeys_combined : Merge.UniqueKeys combined.document.definitions := by
  obtain ⟨hmerged, -⟩ := Service.combine_eq_ok hcombined
  rw [Merge.definitions_of_mergeDocuments hmerged, definitions_components]
  exact Merge.uniqueKeys_mergeDefinitions (uniqueKeys_of_mem _)

/-- Of all schema definitions the last is left. -/
theorem keyed_combined : Merge.keyed Merge.schemaKey combined.document.definitions =
    (Merge.keyed Merge.schemaKey ((before ++ component :: after).map fun other =>
      other.service.document.definitions).flatten).getLast?.toList := by
  obtain ⟨hmerged, -⟩ := Service.combine_eq_ok hcombined
  rw [Merge.definitions_of_mergeDocuments hmerged, definitions_components]
  exact Merge.keyed_mergeDefinitions (if_pos rfl) (Merge.length_keyed_of_uniqueKeys
    (Merge.uniqueKeys_firstDefinitions (uniqueKeys_of_mem _)) _)

theorem schema_mem_combined {d : SchemaDef}
    (hd : .schema d ∈ component.service.document.definitions)
    (hlast : ∀ other ∈ after,
      ¬ Merge.HasKey Merge.schemaKey other.service.document.definitions) :
    .schema d ∈ combined.document.definitions := by
  have hkeyed : Merge.keyed Merge.schemaKey combined.document.definitions = [.schema d] := by
    rw [keyed_combined hcombined, List.map_append, List.map_cons, List.flatten_append,
      List.flatten_cons, Merge.keyed_append, Merge.keyed_append, keyed_flatten_eq_nil hlast,
      Merge.keyed_of_uniqueKeys component.uniqueKeys hd rfl, List.append_nil, List.getLast?_concat]
    rfl
  exact (Merge.mem_keyed.mp (hkeyed ▸ List.mem_cons_self)).1

/-- A component whose schema definition is the last names the types that serve the combination. -/
theorem roots_of_last {d : SchemaDef}
    (hd : .schema d ∈ component.service.document.definitions)
    (hlast : ∀ other ∈ after,
      ¬ Merge.HasKey Merge.schemaKey other.service.document.definitions) :
    combined.schema.query = component.service.schema.query ∧
      combined.schema.mutation = component.service.schema.mutation := by
  obtain ⟨-, hschema, -⟩ := Service.combine_eq_ok hcombined
  obtain ⟨hreports, hbuilt, -⟩ := Schema.build_eq_ok hschema
  obtain ⟨hownReports, hownBuilt, -⟩ := Schema.build_eq_ok component.build_schema
  obtain ⟨-, hquery, hmutation⟩ := Schema.ofDefinitions_eq_ok hbuilt
  obtain ⟨-, hownQuery, hownMutation⟩ := Schema.ofDefinitions_eq_ok hownBuilt
  have hmem := schema_mem_combined hcombined hd hlast
  have hsame {operation : OperationKind} (h : operation ∈ [OperationKind.query, .mutation])
      (types others : List TypeDef) (usual : String) :
      SchemaBuild.rootOf combined.document.definitions types operation usual =
        SchemaBuild.rootOf component.service.document.definitions others operation usual := by
    have hnames := component.mem_operations hd h
    rw [rootOf_of_schema hreports (uniqueKeys_combined hcombined) hmem hnames,
      rootOf_of_schema hownReports component.uniqueKeys hd hnames]
  rw [hquery, hmutation, hownQuery, hownMutation]
  exact ⟨hsame (by simp) _ _ _, hsame (by simp) _ _ _⟩

/-- Without a schema definition the types of the usual names serve the combination, if they serve a
component. -/
theorem roots_of_usual
    (hnone : ∀ other ∈ before ++ component :: after,
      ¬ Merge.HasKey Merge.schemaKey other.service.document.definitions)
    (hquery : component.service.schema.query = some "Query")
    (hmutation : component.service.schema.mutation = some "Mutation") :
    combined.schema.query = some "Query" ∧ combined.schema.mutation = some "Mutation" := by
  obtain ⟨hmerged, hschema, hresolvers, hfits⟩ := Service.combine_eq_ok hcombined
  obtain ⟨-, hbuilt, -⟩ := Schema.build_eq_ok hschema
  obtain ⟨-, hqueryRoot, hmutationRoot⟩ := Schema.ofDefinitions_eq_ok hbuilt
  have hlacks : ∀ d, .schema d ∉ combined.document.definitions := by
    intro d hd
    have hkeyed := Merge.mem_keyed.mpr ⟨hd, rfl⟩
    rw [keyed_combined hcombined, keyed_flatten_eq_nil hnone] at hkeyed
    cases hkeyed
  have husual {name : String} (hname : component.service.names.Includes name)
      (hplain : name ∉ standardNames) :
      (SchemaBuild.extendedTypes combined.document.definitions).any (·.name == name) := by
    have hkey : name ∈ combined.resolvers.map Prod.fst := by
      rw [hresolvers]
      exact ResolverMap.mem_keys_foldl_merge (.inr ⟨component.service,
        List.mem_map_of_mem (List.mem_append_right _ List.mem_cons_self),
        component.mem_keys hname⟩)
    obtain ⟨entry, hentry, rfl⟩ := List.mem_map.mp hkey
    exact Schema.any_of_isObject hbuilt hplain (hfits entry hentry).1
  have hincludes : component.service.names.Includes "Query" ∧
      component.service.names.Includes "Mutation" := by
    rw [Service.names, hquery, hmutation]
    exact ⟨.inl rfl, .inr rfl⟩
  rw [hqueryRoot, hmutationRoot]
  exact ⟨rootOf_of_usual hlacks (husual hincludes.1 (by decide)) _,
    rootOf_of_usual hlacks (husual hincludes.2 (by decide)) _⟩

end Combined

end Component

/-! ## Components that do not get in each other's way -/

namespace Component

/-- Whether another component gives no field by which a root type of this one is reached. -/
structure Apart (component other : Component σ κ) : Prop where
  entries : ∀ d ∈ component.service.descriptors, ∀ name, component.service.names.Includes name →
    ¬ other.service.document.Gives name (Naming.lowerCamel d.typeName)
  operations : ∀ d ∈ component.service.descriptors, ∀ op : Operation,
    ¬ other.service.document.Gives (d.typeName ++ op.suffix) op.name

/-- Whether no type that has the operations of a root type serves the component. -/
def Plain (component : Component σ κ) : Prop :=
  ∀ d ∈ component.service.descriptors, ∀ op : Operation,
    ¬ component.service.names.Includes (d.typeName ++ op.suffix)

/-- Whether a service is served by the same types as a component. -/
def Leads (component : Component σ κ) (combined : Service σ κ) : Prop :=
  combined.schema.query = component.service.schema.query ∧
    combined.schema.mutation = component.service.schema.mutation

end Component

/-! ## Widgets and gadgets -/

/-- One root type in a namespace, and what else is declared. -/
def labelled (others : List Definition) (typeName ns : String) : Sources where
  working := Document.ofDefinitions
    (others ++
      [ .type (Fragment.objectType typeName
          [ Fragment.plainField "id" [] (.nonNull (.named "ID")),
            Fragment.plainField "label" [] (.named "String") ]) ])
  options := { ns := ns }
  roots := [typeName]

/-- A schema definition that names types of its own for queries and mutations. -/
def ownRoots : List Definition :=
  [.schema ⟨none, [], [⟨.query, "Queries"⟩, ⟨.mutation, "Mutations"⟩]⟩]

/-- Widgets, with and without a schema definition, and gadgets. -/
def shops : List (List Definition × String × String) :=
  [([], "Widget", "A"), (ownRoots, "Widget", "A"), ([], "Gadget", "B")]

def labelledFragment (others : List Definition) (typeName ns : String) : List Definition :=
  Fragment.ofPairs
    (Assembly.rootBasis (labelled others typeName ns).working (labelled others typeName ns).options
      [flatDescriptor typeName "label"])
    (flatDescriptor typeName "label") [⟨typeName, .create⟩, ⟨typeName, .update⟩]

def labelledDocument (others : List Definition) (typeName ns : String) : Document :=
  Assembly.completeSchema (Document.ofDefinitions
    (Merge.mergeDefinitions (mergedPolicies (labelled others typeName ns))
      ((mergedDocuments (labelled others typeName ns)
        [labelledFragment others typeName ns]).map (·.definitions))))

/-- What binds the root type to a shelf. -/
def labelledBinding (typeName ns : String) : RecordBinding (Cabinet Unit) Unit :=
  { emptyShelves.bindingOf { ns := ns } (flatDescriptor typeName "label") with
    handle := ⟨emptyShelves.store, flatDescriptor typeName "label", (),
      some (Cabinet.collection typeName)⟩ }

def labelledResolvers (others : List Definition) (typeName ns : String) :
    ResolverMap (Cabinet Unit) Unit :=
  let names := RootNames.ofDocument (labelled others typeName ns).working
  ResolverMap.add names.query names.mutation (ResolverMap.empty names.query names.mutation)
    (labelledBinding typeName ns)

/-- Whether types of certain names serve a schema that has everything in a map of resolvers. -/
def servedBy (names : RootNames) (resolvers : ResolverMap (Cabinet Unit) Unit) (schema : Schema) :
    Bool :=
  schema.query == some names.query && schema.mutation == some names.mutation &&
    (ResolverMap.check schema resolvers).isOk

theorem servedBy_iff {names : RootNames} {resolvers : ResolverMap (Cabinet Unit) Unit}
    {schema : Schema} : servedBy names resolvers schema ↔
      schema.query = some names.query ∧ schema.mutation = some names.mutation ∧
        ResolverMap.check schema resolvers = .ok () := by
  cases h : ResolverMap.check schema resolvers <;>
    simp [servedBy, h, Except.isOk, Except.toBool]

section Shops

variable {others : List Definition} {typeName ns : String} (h : (others, typeName, ns) ∈ shops)

include h

theorem assemble_labelled :
    Assembly.assemble [.document (labelled others typeName ns).working]
        (labelled others typeName ns).roots (labelled others typeName ns).options =
      .ok ⟨labelledDocument others typeName ns, [flatDescriptor typeName "label"]⟩ := by
  simp only [shops, List.mem_cons, List.not_mem_nil, or_false, Prod.mk.injEq] at h
  rcases h with ⟨rfl, rfl, rfl⟩ | ⟨rfl, rfl, rfl⟩ | ⟨rfl, rfl, rfl⟩
  · exact (assemble_singleton [⟨"Widget", .create⟩, ⟨"Widget", .update⟩] rfl rfl (by decide)
      (by decide) rfl rfl (by decide) rfl (by decide)).2
  · exact (assemble_singleton [⟨"Widget", .create⟩, ⟨"Widget", .update⟩] rfl rfl (by decide)
      (by decide) rfl rfl (by decide) rfl (by decide)).2
  · exact (assemble_singleton [⟨"Gadget", .create⟩, ⟨"Gadget", .update⟩] rfl rfl (by decide)
      (by decide) rfl rfl (by decide) rfl (by decide)).2

theorem build_labelled : ∃ schema,
    Schema.build (labelledDocument others typeName ns) = .ok schema ∧
      servedBy (RootNames.ofDocument (labelled others typeName ns).working)
        (labelledResolvers others typeName ns) schema := by
  simp only [shops, List.mem_cons, List.not_mem_nil, or_false, Prod.mk.injEq] at h
  rcases h with ⟨rfl, rfl, rfl⟩ | ⟨rfl, rfl, rfl⟩ | ⟨rfl, rfl, rfl⟩
  · exact exists_ok_of_any (by decide +kernel)
  · exact exists_ok_of_any (by decide +kernel)
  · exact exists_ok_of_any (by decide +kernel)

/-- Widgets and gadgets are components. -/
theorem exists_component : ∃ component : Component (Cabinet Unit) Unit,
    component.service.document = labelledDocument others typeName ns ∧
      component.service.descriptors = [flatDescriptor typeName "label"] ∧
      component.service.resolvers = labelledResolvers others typeName ns ∧
      component.service.schema.query =
        some (RootNames.ofDocument (labelled others typeName ns).working).query ∧
      component.service.schema.mutation =
        some (RootNames.ofDocument (labelled others typeName ns).working).mutation := by
  obtain ⟨schema, hschema, hserved⟩ := build_labelled h
  obtain ⟨hquery, hmutation, hcheck⟩ := servedBy_iff.mp hserved
  have hacquired : ∃ left, Action.exec (emptyShelves.resolvers
      (labelled others typeName ns).options schema [flatDescriptor typeName "label"]) {} =
        (.ok (labelledResolvers others typeName ns), left) := by
    unfold Environment.resolvers
    rw [hquery, hmutation]
    exact ⟨_, rfl⟩
  obtain ⟨left, hacquired⟩ := hacquired
  refine ⟨⟨emptyShelves, (labelled others typeName ns).options,
    ⟨labelledDocument others typeName ns, schema, labelledResolvers others typeName ns,
      [flatDescriptor typeName "label"]⟩,
    [.document (labelled others typeName ns).working], (labelled others typeName ns).roots, {},
    left, ?_⟩, rfl, rfl, rfl, hquery, hmutation⟩
  have hfits : ∀ resolvers left, Action.exec (emptyShelves.resolvers
      (labelled others typeName ns).options schema [flatDescriptor typeName "label"]) {} =
        (.ok resolvers, left) → ResolverMap.Fits schema resolvers := by
    intro resolvers left hother
    obtain ⟨hsame, -⟩ := Prod.mk.inj (hacquired.symm.trans hother)
    obtain rfl := Except.ok.inj hsame
    exact ResolverMap.check_eq_ok.mp hcheck
  rw [Service.exec_build (assemble_labelled h) hschema hfits, Action.exec_map, hacquired]
  rfl

end Shops

/-- Services can be combined if their merged document is a schema that has everything in their
resolvers. -/
theorem exists_combined {services : List (Service (Cabinet Unit) Unit)}
    {documents : List Document} {resolvers : ResolverMap (Cabinet Unit) Unit} (names : RootNames)
    (p : Schema → Bool) (hdocuments : services.map (·.document) = documents)
    (hresolvers : services.foldl
      (fun merged service => ResolverMap.merge merged service.resolvers) [] = resolvers)
    (h : ((Merge.mergeDocuments (Assembly.rootPolicies documents ++ PolicyTable.standard)
        documents).bind Schema.build).toOption.any
      fun schema => servedBy names resolvers schema && p schema) :
    ∃ combined, Service.combine services = .ok combined ∧
      combined.schema.query = some names.query ∧ p combined.schema := by
  obtain ⟨schema, hschema, hp⟩ := exists_ok_of_any h
  obtain ⟨document, hdocument, hbuilt⟩ := bind_eq_ok.mp hschema
  rw [Bool.and_eq_true] at hp
  obtain ⟨hquery, -, hcheck⟩ := servedBy_iff.mp hp.1
  refine ⟨⟨document, schema, resolvers, (services.flatMap (·.descriptors)).foldl
    Service.putDescriptor []⟩, ?_, hquery, hp.2⟩
  rw [Service.combine, hdocuments, hresolvers, hdocument]
  simp only [bind, Except.bind, hbuilt, hcheck]
  rfl

theorem apart_labelled {component other : Component (Cabinet Unit) Unit} {typeName : String}
    {names : RootNames} {document : Document}
    (hdescriptors : component.service.descriptors = [flatDescriptor typeName "label"])
    (hnames : component.service.names = names) (hdocument : other.service.document = document)
    (hentries : ∀ name ∈ [names.query, names.mutation],
      ¬ document.Gives name (Naming.lowerCamel typeName))
    (hoperations : ∀ op ∈ Operation.queries ++ Operation.mutations,
      ¬ document.Gives (typeName ++ op.suffix) op.name) : component.Apart other := by
  constructor
  · intro d hd name hname
    obtain rfl : d = flatDescriptor typeName "label" := by simpa [hdescriptors] using hd
    rw [hdocument]
    refine hentries name ?_
    rcases hname with rfl | rfl <;> simp [hnames]
  · intro d hd op
    obtain rfl : d = flatDescriptor typeName "label" := by simpa [hdescriptors] using hd
    rw [hdocument]
    exact hoperations op (by cases op <;> decide)

/-! ## Combinations -/

/-- Components that do not get in each other's way keep all their root types in a combination. Each
is entered on the types that serve its component, and its operations have the resolvers that are
bound to its own collection. The types that serve the combination are those of the component with
the last schema definition; without any schema definition, they have the usual names. -/
theorem combined_keeps {components : List (Component σ κ)} {combined : Service σ κ}
    (happart : components.Pairwise fun component other =>
      component.Apart other ∧ other.Apart component)
    (hcombined : Service.combine (components.map (·.service)) = .ok combined) :
    (∀ component ∈ components, component.Plain → ∀ d ∈ component.service.descriptors,
      (∀ name, component.service.names.Includes name →
        combined.Keeps component.service name (Naming.lowerCamel d.typeName) ∧
        combined.resolvers.find? name (Naming.lowerCamel d.typeName) = some .entryPoint ∧
        ∀ suffix, component.service.document.field? name (Naming.lowerCamel d.typeName) =
            some (Sources.entryField suffix d.typeName) →
          (combined.schema.field? name (Naming.lowerCamel d.typeName)).map (·.type) =
            some (.named (d.typeName ++ suffix))) ∧
      ∃ binding : RecordBinding σ κ,
        binding.Binds component.env component.options d ∧ ∀ op : Operation,
          combined.Keeps component.service (d.typeName ++ op.suffix) op.name ∧
          combined.resolvers.find? (d.typeName ++ op.suffix) op.name =
            some (.operation binding op)) ∧
    (∀ before component after, components = before ++ component :: after →
      (∃ d, .schema d ∈ component.service.document.definitions) →
      (∀ other ∈ after, ¬ Merge.HasKey Merge.schemaKey other.service.document.definitions) →
      component.Leads combined) ∧
    ((∀ component ∈ components,
        ¬ Merge.HasKey Merge.schemaKey component.service.document.definitions) →
      ∀ component ∈ components, component.service.schema.query = some "Query" →
        component.service.schema.mutation = some "Mutation" → component.Leads combined) := by
  refine ⟨fun component hcomponent hplain d hd => ?_, ?_, fun hnone component hcomponent => ?_⟩
  · obtain ⟨before, after, rfl⟩ := List.append_of_mem hcomponent
    have hothers : ∀ other ∈ before ++ after, component.Apart other := by
      obtain ⟨-, hrest, hcross⟩ := List.pairwise_append.mp happart
      obtain ⟨hbehind, -⟩ := List.pairwise_cons.mp hrest
      refine List.forall_mem_append.mpr ⟨fun other hother => ?_, fun other hother => ?_⟩
      · exact (hcross other hother component List.mem_cons_self).2
      · exact (hbehind other hother).1
    obtain ⟨bindings, hdescriptors, hbinds, hserves⟩ := component.serves hplain
    obtain ⟨binding, hbinding, rfl⟩ := List.mem_map.mp (hdescriptors ▸ hd)
    refine ⟨fun name hname => ?_, binding, hbinds binding hbinding, fun op => ?_⟩
    · have hentry := hserves.entries binding hbinding name hname
      have hkeeps := Component.keeps_of_sole hcombined hentry fun other hother =>
        (hothers other hother).entries _ hd name hname
      refine ⟨hkeeps, hkeeps.resolver.trans hentry, fun suffix hfield => ?_⟩
      obtain ⟨f, hf, hfname, shapes, others, -, hkept⟩ := hkeeps.field
      obtain ⟨hentered, hentryName⟩ := defines_of_field? hfield
      obtain rfl := Schema.eq_of_defines component.build_schema hf hentered
        (hfname.trans hentryName.symm)
      exact congrArg (Option.map (·.type)) hkept
    · have hoperation := hserves.operations binding hbinding op
      have hkeeps := Component.keeps_of_sole hcombined hoperation fun other hother =>
        (hothers other hother).operations _ hd op
      exact ⟨hkeeps, hkeeps.resolver.trans hoperation⟩
  · rintro before component after rfl ⟨d, hd⟩ hlast
    exact Component.roots_of_last hcombined hd hlast
  · intro hquery hmutation
    obtain ⟨before, after, rfl⟩ := List.append_of_mem hcomponent
    rw [Component.Leads, hquery, hmutation]
    exact Component.roots_of_usual hcombined hnone hquery hmutation

/-- Gadgets are kept in a combination with widgets. -/
theorem combined_keeps_gadgets :
    ∃ (widgets gadgets : Component (Cabinet Unit) Unit) (combined : Service (Cabinet Unit) Unit),
      ([widgets, gadgets].Pairwise fun component other =>
        component.Apart other ∧ other.Apart component) ∧
      Service.combine ([widgets, gadgets].map (·.service)) = .ok combined ∧
      gadgets.Plain ∧ gadgets.service.descriptors = [flatDescriptor "Gadget" "label"] ∧
      gadgets.Leads combined ∧ combined.Keeps gadgets.service "Query" "gadget" ∧
      ∃ binding : RecordBinding (Cabinet Unit) Unit,
        binding.Binds gadgets.env gadgets.options (flatDescriptor "Gadget" "label") ∧
          ∀ op : Operation,
            combined.resolvers.find? ("Gadget" ++ op.suffix) op.name =
              some (.operation binding op) := by
  obtain ⟨widgets, hwidgets, hwidget, hshelf, hquery, hmutation⟩ :=
    exists_component (show ([], "Widget", "A") ∈ shops by decide)
  obtain ⟨gadgets, hgadgets, hgadget, hotherShelf, hotherQuery, hotherMutation⟩ :=
    exists_component (show ([], "Gadget", "B") ∈ shops by decide)
  have hnames : widgets.service.names = ⟨"Query", "Mutation"⟩ := by
    rw [Service.names, hquery, hmutation]
    rfl
  have hotherNames : gadgets.service.names = ⟨"Query", "Mutation"⟩ := by
    rw [Service.names, hotherQuery, hotherMutation]
    rfl
  have hpairwise : [widgets, gadgets].Pairwise fun component other =>
      component.Apart other ∧ other.Apart component :=
    List.pairwise_pair.mpr
      ⟨apart_labelled hwidget hnames hgadgets (by decide +kernel) (by decide +kernel),
        apart_labelled hgadget hotherNames hwidgets (by decide +kernel) (by decide +kernel)⟩
  have hdocuments : ([widgets, gadgets].map (·.service)).map (·.document) =
      [labelledDocument [] "Widget" "A", labelledDocument [] "Gadget" "B"] := by
    rw [← hwidgets, ← hgadgets]
    rfl
  have hresolvers : ([widgets, gadgets].map (·.service)).foldl
      (fun merged service => ResolverMap.merge merged service.resolvers) [] =
      [labelledResolvers [] "Widget" "A", labelledResolvers [] "Gadget" "B"].foldl
        ResolverMap.merge [] := by
    rw [← hshelf, ← hotherShelf]
    rfl
  obtain ⟨combined, hcombined, -⟩ := exists_combined ⟨"Query", "Mutation"⟩ (fun _ => true)
    hdocuments hresolvers (by decide +kernel)
  have hplain : gadgets.Plain := by
    intro d hd op
    obtain rfl : d = flatDescriptor "Gadget" "label" := by simpa [hgadget] using hd
    rw [hotherNames]
    cases op <;> decide
  obtain ⟨hkept, -, hleads⟩ := combined_keeps hpairwise hcombined
  obtain ⟨hentry, binding, hbinds, hoperations⟩ :=
    hkept gadgets (by simp) hplain (flatDescriptor "Gadget" "label") (by simp [hgadget])
  refine ⟨widgets, gadgets, combined, hpairwise, hcombined, hplain, hgadget, ?_, ?_,
    binding, hbinds, fun op => (hoperations op).2⟩
  · refine hleads ?_ gadgets (by simp) hotherQuery hotherMutation
    have hlacks : ∀ document ∈ [labelledDocument [] "Widget" "A", labelledDocument [] "Gadget" "B"],
        ¬ Merge.HasKey Merge.schemaKey document.definitions := by
      decide +kernel
    intro component hcomponent
    rcases List.mem_pair.mp hcomponent with rfl | rfl
    · exact hwidgets ▸ hlacks _ (by simp)
    · exact hgadgets ▸ hlacks _ (by simp)
  · exact (hentry "Query" (hotherNames ▸ .inl rfl)).1

/-- Widgets whose schema definition names other types hide the gadgets, although both have nothing
in common. -/
theorem combined_hides_gadgets :
    ∃ (widgets gadgets : Component (Cabinet Unit) Unit) (combined : Service (Cabinet Unit) Unit),
      ([widgets, gadgets].Pairwise fun component other =>
        component.Apart other ∧ other.Apart component) ∧
      (∀ d ∈ widgets.service.document.definitions, ∀ e ∈ gadgets.service.document.definitions,
        Merge.key? d ≠ Merge.key? e) ∧
      Service.combine ([widgets, gadgets].map (·.service)) = .ok combined ∧
      gadgets.service.descriptors = [flatDescriptor "Gadget" "label"] ∧
      gadgets.service.schema.query = some "Query" ∧
      combined.schema.query = some "Queries" ∧
      combined.schema.field? "Queries" "gadget" = none := by
  obtain ⟨widgets, hwidgets, hwidget, hshelf, hquery, hmutation⟩ :=
    exists_component (show (ownRoots, "Widget", "A") ∈ shops by decide)
  obtain ⟨gadgets, hgadgets, hgadget, hotherShelf, hotherQuery, hotherMutation⟩ :=
    exists_component (show ([], "Gadget", "B") ∈ shops by decide)
  have hnames : widgets.service.names = ⟨"Queries", "Mutations"⟩ := by
    rw [Service.names, hquery, hmutation]
    rfl
  have hotherNames : gadgets.service.names = ⟨"Query", "Mutation"⟩ := by
    rw [Service.names, hotherQuery, hotherMutation]
    rfl
  have hdocuments : ([widgets, gadgets].map (·.service)).map (·.document) =
      [labelledDocument ownRoots "Widget" "A", labelledDocument [] "Gadget" "B"] := by
    rw [← hwidgets, ← hgadgets]
    rfl
  have hresolvers : ([widgets, gadgets].map (·.service)).foldl
      (fun merged service => ResolverMap.merge merged service.resolvers) [] =
      [labelledResolvers ownRoots "Widget" "A", labelledResolvers [] "Gadget" "B"].foldl
        ResolverMap.merge [] := by
    rw [← hshelf, ← hotherShelf]
    rfl
  obtain ⟨combined, hcombined, hqueries, hnone⟩ := exists_combined ⟨"Queries", "Mutations"⟩
    (fun schema => (schema.field? "Queries" "gadget").isNone) hdocuments hresolvers
    (by decide +kernel)
  refine ⟨widgets, gadgets, combined, List.pairwise_pair.mpr ⟨?_, ?_⟩, ?_, hcombined, hgadget,
    hotherQuery, hqueries, Option.isNone_iff_eq_none.mp hnone⟩
  · exact apart_labelled hwidget hnames hgadgets (by decide +kernel) (by decide +kernel)
  · exact apart_labelled hgadget hotherNames hwidgets (by decide +kernel) (by decide +kernel)
  · rw [hwidgets, hgadgets]
    decide +kernel

end RecordApi
