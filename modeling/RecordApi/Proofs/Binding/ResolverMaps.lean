import RecordApi.Binding.Service
import RecordApi.Proofs.Actions
import RecordApi.Proofs.Derivation.AssembledTypes

/-!
# Maps of resolvers

A map of resolvers is made by adding one root type after the other. A schema that has the entry
points and the operations of all root types has everything in the map. Root types of different names
do not get in each other's way, so in the end each has its entry points and its own operations.
-/

namespace RecordApi

open RecordApi.Language

namespace Operation

/-- What stands behind the name of a root type in the name of the type that has an operation. -/
def suffix : Operation → String
  | find | list => "Query"
  | create | update | upsert | delete => "Mutation"

theorem suffix_of_mem_queries {op : Operation} (h : op ∈ queries) : op.suffix = "Query" := by
  revert op
  decide

theorem suffix_of_mem_mutations {op : Operation} (h : op ∈ mutations) :
    op.suffix = "Mutation" := by
  revert op
  decide

/-- The types of operations are told apart by the names of their root types. -/
theorem eq_of_append_suffix {a b : String} {op other : Operation}
    (h : a ++ op.suffix = b ++ other.suffix) : a = b ∧ op.suffix = other.suffix := by
  by_cases hsuffix : op.suffix = other.suffix
  · rw [hsuffix] at h
    exact ⟨(String.append_left_inj _).mp h, hsuffix⟩
  · have hapart : ¬ op.suffix.toList <:+ other.suffix.toList ∧
        ¬ other.suffix.toList <:+ op.suffix.toList := by
      revert hsuffix
      cases op <;> cases other <;> decide
    exact absurd h (append_ne_append hapart.1 hapart.2 a b)

end Operation

/-- Whether a type of a schema has a field. -/
def Schema.HasField (schema : Schema) (typeName name : String) : Prop :=
  ∃ f ∈ schema.fieldsOf typeName, f.name = name

variable {σ κ : Type}

/-- The root type whose records a binding is for. -/
def RecordBinding.typeName (binding : RecordBinding σ κ) : String :=
  binding.handle.descriptor.typeName

namespace ResolverMap

/-! ## Fields of a schema -/

/-- Whether all types and fields in a map of resolvers are object types and fields of a schema. -/
def Fits (schema : Schema) (resolvers : ResolverMap σ κ) : Prop :=
  ∀ entry ∈ resolvers, schema.isOf TypeShape.isObject (.named entry.1) ∧
    ∀ field ∈ entry.2, schema.HasField entry.1 field.1

theorem check_eq_ok {schema : Schema} {resolvers : ResolverMap σ κ} :
    check schema resolvers = .ok () ↔ Fits schema resolvers := by
  rw [check, forM_eq_ok]
  refine forall₂_congr fun entry _ => ?_
  obtain ⟨typeName, fields⟩ := entry
  by_cases hobject : schema.isOf TypeShape.isObject (.named typeName)
  · dsimp only
    rw [if_pos hobject, forM_eq_ok, and_iff_right hobject]
    simp [Schema.HasField]
  · simp [hobject]

/-- Whether a schema has what the resolvers of a root type are for. -/
structure Provides (schema : Schema) (names : RootNames) (typeName : String) : Prop where
  entries : ∀ name, names.Includes name → schema.HasField name (Naming.lowerCamel typeName)
  types : ∀ op : Operation, schema.isOf TypeShape.isObject (.named (typeName ++ op.suffix))
  operations : ∀ op : Operation, schema.HasField (typeName ++ op.suffix) op.name

theorem fits_empty {schema : Schema} {names : RootNames}
    (h : ∀ name, names.Includes name → schema.isOf TypeShape.isObject (.named name)) :
    Fits schema (empty names.query names.mutation : ResolverMap σ κ) := by
  have hnone (name : String) (hname : names.Includes name) :
      schema.isOf TypeShape.isObject (.named name) ∧
        ∀ field ∈ ([] : Association (Resolver σ κ)), schema.HasField name field.1 :=
    ⟨h name hname, fun _ hfield => absurd hfield List.not_mem_nil⟩
  intro entry hentry
  rcases Association.mem_of_mem_put hentry with rfl | hentry
  · exact hnone _ (.inr rfl)
  · obtain rfl := List.mem_singleton.mp hentry
    exact hnone _ (.inl rfl)

theorem fits_put {schema : Schema} {resolvers : ResolverMap σ κ} (h : Fits schema resolvers)
    {typeName : String} {fields : Association (Resolver σ κ)}
    (htype : schema.isOf TypeShape.isObject (.named typeName))
    (hfields : ∀ field ∈ fields, schema.HasField typeName field.1) :
    Fits schema (Association.put typeName fields resolvers) := by
  intro entry hentry
  rcases Association.mem_of_mem_put hentry with rfl | hentry
  · exact ⟨htype, hfields⟩
  · exact h entry hentry

theorem fits_change {schema : Schema} {resolvers : ResolverMap σ κ} (h : Fits schema resolvers)
    {typeName fieldName : String} (resolver : Resolver σ κ)
    (hfield : schema.HasField typeName fieldName) :
    Fits schema (Association.change typeName (Association.put fieldName resolver) resolvers) := by
  intro entry hentry
  rcases Association.mem_of_mem_change hentry with hentry | ⟨fields, hfields, rfl⟩
  · exact h entry hentry
  · obtain ⟨htype, hall⟩ := h _ hfields
    refine ⟨htype, fun field hmem => ?_⟩
    rcases Association.mem_of_mem_put hmem with rfl | hmem
    · exact hfield
    · exact hall field hmem

/-- A map still fits a schema when a root type is added that the schema provides for. -/
theorem fits_add {schema : Schema} {names : RootNames} {resolvers : ResolverMap σ κ}
    (h : Fits schema resolvers) {binding : RecordBinding σ κ}
    (hprovides : Provides schema names binding.typeName) :
    Fits schema (add names.query names.mutation resolvers binding) := by
  have hquery := fits_change h .entryPoint (hprovides.entries _ (.inl rfl))
  have hmutation := fits_change hquery .entryPoint (hprovides.entries _ (.inr rfl))
  have hqueries : ∀ field ∈ ofOperations binding Operation.queries,
      schema.HasField (binding.typeName ++ "Query") field.1 := by
    intro field hfield
    obtain ⟨op, hop, rfl⟩ := List.mem_map.mp hfield
    exact Operation.suffix_of_mem_queries hop ▸ hprovides.operations op
  have hmutations : ∀ field ∈ ofOperations binding Operation.mutations,
      schema.HasField (binding.typeName ++ "Mutation") field.1 := by
    intro field hfield
    obtain ⟨op, hop, rfl⟩ := List.mem_map.mp hfield
    exact Operation.suffix_of_mem_mutations hop ▸ hprovides.operations op
  exact fits_put (fits_put hmutation (hprovides.types .find) hqueries) (hprovides.types .create)
    hmutations

theorem fits_foldl_add {schema : Schema} {names : RootNames} {bindings : List (RecordBinding σ κ)}
    (hprovides : ∀ binding ∈ bindings, Provides schema names binding.typeName)
    {resolvers : ResolverMap σ κ} (h : Fits schema resolvers) :
    Fits schema (bindings.foldl (add names.query names.mutation) resolvers) := by
  induction bindings generalizing resolvers with
  | nil => exact h
  | cons binding rest ih =>
      obtain ⟨hbinding, hrest⟩ := List.forall_mem_cons.mp hprovides
      exact ih hrest (fits_add h hbinding)

/-! ## Resolvers of root types -/

/-- Whether root types have entry points in a map of resolvers, and operations of their own. -/
structure Serves (names : RootNames) (bindings : List (RecordBinding σ κ))
    (resolvers : ResolverMap σ κ) : Prop where
  roots : ∀ name, names.Includes name → (resolvers.ofType? name).isSome
  entries : ∀ binding ∈ bindings, ∀ name, names.Includes name →
    resolvers.find? name (Naming.lowerCamel binding.typeName) = some .entryPoint
  operations : ∀ binding ∈ bindings, ∀ op : Operation,
    resolvers.find? (binding.typeName ++ op.suffix) op.name = some (.operation binding op)

theorem serves_empty (names : RootNames) :
    Serves names [] (empty names.query names.mutation : ResolverMap σ κ) where
  roots := by
    rintro name (rfl | rfl)
    · rw [ofType?, empty, Association.lookup_put, Association.lookup_cons, if_pos rfl]
      split <;> rfl
    · rw [ofType?, empty, Association.lookup_put_self]
      rfl
  entries := by simp
  operations := by simp

/-- The resolvers with the entry points of one more root type. -/
def enter (names : RootNames) (typeName : String) (resolvers : ResolverMap σ κ) :
    ResolverMap σ κ :=
  let entry := Association.put (Naming.lowerCamel typeName) Resolver.entryPoint
  Association.change names.mutation entry (Association.change names.query entry resolvers)

theorem ofType?_enter_of_not_includes {names : RootNames} {name : String}
    (h : ¬ names.Includes name) (typeName : String) (resolvers : ResolverMap σ κ) :
    (enter names typeName resolvers).ofType? name = resolvers.ofType? name := by
  obtain ⟨hquery, hmutation⟩ := not_or.mp h
  rw [ofType?, enter, Association.lookup_change, if_neg hmutation, Association.lookup_change,
    if_neg hquery]
  rfl

/-- A type that serves the schema gains the entry point. -/
theorem find?_enter {names : RootNames} {name : String} (h : names.Includes name)
    (typeName : String) {resolvers : ResolverMap σ κ} (hsome : (resolvers.ofType? name).isSome) :
    ((enter names typeName resolvers).ofType? name).isSome ∧ ∀ field,
      (enter names typeName resolvers).find? name field =
        if field = Naming.lowerCamel typeName then some .entryPoint
        else resolvers.find? name field := by
  obtain ⟨fields, hfields⟩ := Option.isSome_iff_exists.mp hsome
  have hlookup : List.lookup name resolvers = some fields := hfields
  have hentered : ∃ entered, (enter names typeName resolvers).ofType? name = some entered ∧
      ∀ field, entered.lookup field =
        if field = Naming.lowerCamel typeName then some .entryPoint else fields.lookup field := by
    rw [ofType?, enter, Association.lookup_change, Association.lookup_change, hlookup]
    by_cases hquery : name = names.query
    · by_cases hmutation : name = names.mutation
      · rw [if_pos hquery, if_pos hmutation]
        refine ⟨_, rfl, fun field => ?_⟩
        rw [Association.lookup_put, Association.lookup_put]
        split <;> rfl
      · rw [if_pos hquery, if_neg hmutation]
        exact ⟨_, rfl, fun field => Association.lookup_put _ _ _ _⟩
    · rw [if_neg hquery, if_pos (h.resolve_left hquery)]
      exact ⟨_, rfl, fun field => Association.lookup_put _ _ _ _⟩
  obtain ⟨entered, htype, hentry⟩ := hentered
  refine ⟨by rw [htype]; rfl, fun field => ?_⟩
  rw [find?, htype, find?, hfields]
  exact hentry field

section Add

variable {names : RootNames} {resolvers : ResolverMap σ κ} {binding : RecordBinding σ κ}

theorem add_eq : add names.query names.mutation resolvers binding =
    Association.put (binding.typeName ++ "Mutation") (ofOperations binding Operation.mutations)
      (Association.put (binding.typeName ++ "Query") (ofOperations binding Operation.queries)
        (enter names binding.typeName resolvers)) := rfl

/-- A type that has none of the operations of a root type gains at most an entry point when the root
type is added. -/
theorem ofType?_add {name : String} (h : ∀ op : Operation, name ≠ binding.typeName ++ op.suffix) :
    (add names.query names.mutation resolvers binding).ofType? name =
      (enter names binding.typeName resolvers).ofType? name := by
  have hquery : name ≠ binding.typeName ++ "Query" := h .find
  have hmutation : name ≠ binding.typeName ++ "Mutation" := h .create
  rw [add_eq, ofType?, Association.lookup_put_of_ne hmutation,
    Association.lookup_put_of_ne hquery]
  rfl

theorem find?_add_operation (op : Operation) :
    (add names.query names.mutation resolvers binding).find? (binding.typeName ++ op.suffix)
      op.name = some (.operation binding op) := by
  have hne : binding.typeName ++ "Query" ≠ binding.typeName ++ "Mutation" := by
    rw [ne_eq, String.append_right_inj]
    decide
  have hquery : (add names.query names.mutation resolvers binding).ofType?
      (binding.typeName ++ "Query") = some (ofOperations binding Operation.queries) := by
    rw [add_eq, ofType?, Association.lookup_put_of_ne hne, Association.lookup_put_self]
  have hmutation : (add names.query names.mutation resolvers binding).ofType?
      (binding.typeName ++ "Mutation") = some (ofOperations binding Operation.mutations) :=
    Association.lookup_put_self _ _ _
  cases op with
  | find | list =>
      rw [find?, Operation.suffix, hquery]
      rfl
  | create | update | upsert | delete =>
      rw [find?, Operation.suffix, hmutation]
      rfl

/-- Root types of different names do not get in each other's way. -/
theorem serves_add {bindings : List (RecordBinding σ κ)} (h : Serves names bindings resolvers)
    (hnew : ∀ other ∈ bindings, other.typeName ≠ binding.typeName)
    (hroles : ∀ other ∈ bindings ++ [binding], ∀ op : Operation,
      ¬ names.Includes (other.typeName ++ op.suffix)) :
    Serves names (bindings ++ [binding])
      (add names.query names.mutation resolvers binding) := by
  have hown (name : String) (hrole : names.Includes name) :=
    find?_enter hrole binding.typeName (h.roots name hrole)
  have hadded (name : String) (hrole : names.Includes name) :
      (add names.query names.mutation resolvers binding).ofType? name =
        (enter names binding.typeName resolvers).ofType? name :=
    ofType?_add fun op hname => hroles binding (by simp) op (hname ▸ hrole)
  refine ⟨fun name hrole => ?_, fun other hother name hrole => ?_, fun other hother op => ?_⟩
  · rw [hadded name hrole]
    exact (hown name hrole).1
  · rw [find?, hadded name hrole, ← find?, (hown name hrole).2]
    split
    · rfl
    · next hentry =>
        rcases List.mem_append.mp hother with hbefore | hlast
        · exact h.entries other hbefore name hrole
        · obtain rfl := List.mem_singleton.mp hlast
          exact absurd rfl hentry
  · rcases List.mem_append.mp hother with hbefore | hlast
    · have hapart : ∀ op' : Operation,
          other.typeName ++ op.suffix ≠ binding.typeName ++ op'.suffix := fun op' hsame =>
        hnew other hbefore (Operation.eq_of_append_suffix hsame).1
      rw [find?, ofType?_add hapart, ofType?_enter_of_not_includes (hroles other hother op)]
      exact h.operations other hbefore op
    · obtain rfl := List.mem_singleton.mp hlast
      exact find?_add_operation op

end Add

/-- All root types that are added have their entry points and their operations in the end. -/
theorem serves_foldl_add {names : RootNames} {bindings : List (RecordBinding σ κ)}
    (hnodup : (bindings.map (·.typeName)).Nodup)
    (hroles : ∀ binding ∈ bindings, ∀ op : Operation,
      ¬ names.Includes (binding.typeName ++ op.suffix)) :
    Serves names bindings
      (bindings.foldl (add names.query names.mutation) (empty names.query names.mutation)) := by
  induction bindings using List.reverseRecOn with
  | nil => exact serves_empty names
  | append_singleton rest binding ih =>
      rw [List.map_append, List.nodup_append] at hnodup
      obtain ⟨hrest, -, hapart⟩ := hnodup
      rw [List.foldl_append]
      refine serves_add (ih hrest fun other hother => hroles other (List.mem_append_left _ hother))
        (fun other hother => ?_) hroles
      exact hapart _ (List.mem_map_of_mem hother) _ (by simp)

end ResolverMap

/-! ## Acquiring collections -/

/-- Whether a binding is for the root type of a descriptor: its calls reach the collection that the
store gives for the root type, and find the identifier where the descriptor says. -/
structure RecordBinding.Binds (binding : RecordBinding σ κ) (env : Environment σ κ)
    (options : Options) (d : Descriptor) : Prop where
  descriptor : binding.handle.descriptor = d
  identifier : ∀ arguments, binding.idOf arguments = Entries.get arguments d.idName
  acquired : options.requestScoped = false → ∃ collection before after,
    Action.exec (env.store ⟨d.idName, d.typeName, env.context⟩) before = (.ok collection, after) ∧
      ∀ request, binding.handle.collection request = pure collection
  perCall : options.requestScoped = true → ∀ request,
    binding.handle.collection request =
      env.store ⟨d.idName, d.typeName, request.getD env.context⟩

namespace Environment

variable {env : Environment σ κ} {options : Options}

theorem binds_of_bind {d : Descriptor} {binding : RecordBinding σ κ} {world left : σ}
    (h : Action.exec (env.bind options d) world = (.ok binding, left)) :
    binding.Binds env options d := by
  obtain ⟨handle, middle, hprepare, hpure⟩ := Action.exec_bind_eq_ok.mp h
  obtain ⟨hbinding, -⟩ := Prod.mk.inj hpure
  obtain rfl := Except.ok.inj hbinding
  rw [Handle.prepare] at hprepare
  by_cases hperCall : options.requestScoped
  · rw [if_pos hperCall] at hprepare
    obtain rfl := Except.ok.inj (Prod.mk.inj hprepare).1
    exact ⟨rfl, fun _ => rfl, fun hother => by simp [hperCall] at hother, fun _ _ => rfl⟩
  · rw [if_neg hperCall] at hprepare
    obtain ⟨collection, after, hacquire, hpure⟩ := Action.exec_bind_eq_ok.mp hprepare
    obtain rfl := Except.ok.inj (Prod.mk.inj hpure).1
    exact ⟨rfl, fun _ => rfl, fun _ => ⟨collection, world, after, hacquire, fun _ => rfl⟩,
      fun hother => absurd hother hperCall⟩

/-- What is bound when no root type fails. -/
theorem binds_of_bindAll {descriptors : List Descriptor} {bindings : List (RecordBinding σ κ)}
    {world : σ} (h : ((env.bindAll options descriptors).run world).run.1 = bindings.map .ok) :
    bindings.map (·.handle.descriptor) = descriptors ∧
      ∀ binding ∈ bindings, binding.Binds env options binding.handle.descriptor := by
  induction descriptors generalizing bindings world with
  | nil =>
      obtain rfl := List.map_eq_nil_iff.mp h.symm
      exact ⟨rfl, by simp⟩
  | cons d rest ih =>
      have hstep : ((env.bindAll options (d :: rest)).run world).run.1 =
          (Action.exec (env.bind options d) world).1 ::
            ((env.bindAll options rest).run (Action.exec (env.bind options d) world).2).run.1 := rfl
      rw [hstep] at h
      cases bindings with
      | nil => cases h
      | cons binding more =>
          obtain ⟨hfirst, hmore⟩ := List.cons.inj h
          obtain ⟨rfl, hrest⟩ := ih hmore
          have hbinds : binding.Binds env options d := binds_of_bind (Prod.ext hfirst rfl)
          obtain rfl := hbinds.descriptor
          exact ⟨rfl, List.forall_mem_cons.mpr ⟨hbinds, hrest⟩⟩

/-- The resolvers of a schema are those of bindings for its root types in their order. -/
theorem exists_bindings {schema : Schema} {descriptors : List Descriptor}
    {resolvers : ResolverMap σ κ} {world left : σ}
    (h : Action.exec (env.resolvers options schema descriptors) world = (.ok resolvers, left)) :
    ∃ bindings : List (RecordBinding σ κ), bindings.map (·.handle.descriptor) = descriptors ∧
      (∀ binding ∈ bindings, binding.Binds env options binding.handle.descriptor) ∧
      resolvers = bindings.foldl
        (ResolverMap.add (schema.query.getD "Query") (schema.mutation.getD "Mutation"))
        (ResolverMap.empty (schema.query.getD "Query") (schema.mutation.getD "Mutation")) := by
  obtain ⟨outcomes, middle, hall, h⟩ := Action.exec_bind_eq_ok.mp h
  have houtcomes : ((env.bindAll options descriptors).run world).run.1 = outcomes :=
    Except.ok.inj (Prod.mk.inj hall).1
  cases hbindings : outcomes.mapM id with
  | error failure =>
      rw [hbindings] at h
      cases (Prod.mk.inj h).1
  | ok bindings =>
      rw [hbindings] at h
      have hresolvers := Except.ok.inj (Prod.mk.inj h).1
      rw [mapM_eq_ok, List.map_id] at hbindings
      obtain ⟨hdescriptors, hbinds⟩ := binds_of_bindAll (houtcomes.trans hbindings)
      exact ⟨bindings, hdescriptors, hbinds, hresolvers.symm⟩

end Environment

/-- A service fails where a collection cannot be acquired, and nowhere else, if all resolvers fit
the schema. -/
theorem Service.exec_build {env : Environment σ κ} {sources : List Source} {roots : List String}
    {options : Options} {assembled : Assembled} {schema : Schema} {world : σ}
    (hassembled : Assembly.assemble sources roots options = .ok assembled)
    (hschema : Schema.build assembled.document = .ok schema)
    (hfits : ∀ resolvers left,
      Action.exec (env.resolvers options schema assembled.descriptors) world =
        (.ok resolvers, left) → ResolverMap.Fits schema resolvers) :
    Action.exec (build env sources roots options) world =
      Action.exec ((fun resolvers =>
          Service.mk assembled.document schema resolvers assembled.descriptors) <$>
        env.resolvers options schema assembled.descriptors) world := by
  rw [build, hassembled, Action.exec_bind, pureAction, Action.exec_pure, Action.after_ok, hschema,
    Action.exec_bind, pureAction, Action.exec_pure, Action.after_ok, Action.exec_bind,
    Action.exec_map]
  rcases hacquired : Action.exec (env.resolvers options schema assembled.descriptors) world with
    ⟨failure | resolvers, left⟩
  · rfl
  · have hcheck := ResolverMap.check_eq_ok.mpr (hfits resolvers left hacquired)
    rw [Action.after_ok, Action.after_ok, hcheck, Action.exec_bind]
    rfl

end RecordApi
