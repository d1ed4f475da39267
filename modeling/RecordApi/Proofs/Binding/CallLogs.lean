import RecordApi.Proofs.Binding.Gatherings
import RecordApi.Proofs.Binding.Notes

/-!
# What calls ask and touch

A service is bound to its collections by one request for each root type, and each call works with
the collection of its root type; or no request is made when the service is built, and each call
makes one with the context of its own. The notes of a service tell this for any sequence of calls.
-/

namespace RecordApi

open RecordApi.Language

variable {σ κ : Type}

/-! ## Binding with notes -/

namespace Environment

/-- The environment whose store takes notes. -/
def noted (env : Environment σ κ) : Environment (Noted σ κ) κ :=
  ⟨Store.noted env.store, env.context, Action.beneath env.now⟩

/-- The notes of requests for root types in turn. -/
def askedFor (env : Environment σ κ) (first : Nat) (descriptors : List Descriptor) :
    List (Note κ) :=
  (descriptors.zipIdx first).map fun entry => .asked entry.2 (env.request entry.1)

variable {env : Environment σ κ} {options : Options} {descriptors : List Descriptor}

theorem bindAll_perCall (h : options.requestScoped) (descriptors : List Descriptor) (world : σ) :
    ((env.bindAll options descriptors).run world).run =
      (descriptors.map fun d => .ok (env.bindingOf options d), world) := by
  induction descriptors with
  | nil => rfl
  | cons d rest ih => rw [bindAll_cons, exec_bind_scoped h, ih, List.map_cons]

theorem exec_bind_noted (h : options.requestScoped = false) (d : Descriptor)
    (before : Noted σ κ) :
    Action.exec (env.noted.bind options d) before =
      ((Action.exec (env.bind options d) before.world).1.map (·.noted before.requests),
        ⟨(Action.exec (env.bind options d) before.world).2,
          before.notes ++ [.asked before.requests (env.request d)]⟩) := by
  have hstore := Store.exec_noted env.store (env.request d) before
  rw [exec_bind_unscoped h, exec_bind_unscoped h]
  change ((Action.exec (Store.noted env.store (env.request d)) before).1.map _,
    (Action.exec (Store.noted env.store (env.request d)) before).2) = _
  rw [hstore]
  rcases Action.exec (env.store (env.request d)) before.world with ⟨failure | collection, left⟩ <;>
    rfl

/-- What is bound with notes is what is bound without them, and each root type is asked for once. -/
theorem bindAll_noted (h : options.requestScoped = false) (descriptors : List Descriptor)
    (before : Noted σ κ) :
    ((env.noted.bindAll options descriptors).run before).run =
      ((((env.bindAll options descriptors).run before.world).run.1.zipIdx before.requests).map
          fun entry => entry.1.map (·.noted entry.2),
        ⟨((env.bindAll options descriptors).run before.world).run.2,
          before.notes ++ env.askedFor before.requests descriptors⟩) := by
  induction descriptors generalizing before with
  | nil =>
      rw [askedFor, List.zipIdx_nil, List.map_nil, List.append_nil]
      rfl
  | cons d rest ih =>
      rw [bindAll_cons, exec_bind_noted h, ih, bindAll_cons]
      simp [askedFor, Noted.requests, List.countP_append, Note.isRequest, List.zipIdx_cons]

/-- Resolvers are made just where all root types are bound. -/
theorem exec_resolvers_eq_ok {schema : Schema} {world left : σ} {resolvers : ResolverMap σ κ} :
    Action.exec (env.resolvers options schema descriptors) world = (.ok resolvers, left) ↔
      ∃ bindings : List (RecordBinding σ κ),
        ((env.bindAll options descriptors).run world).run = (bindings.map .ok, left) ∧
        resolvers = ResolverMap.addAll schema.serving bindings := by
  rcases hall : ((env.bindAll options descriptors).run world).run with ⟨outcomes, middle⟩
  rw [exec_resolvers_of_bindAll hall]
  constructor
  · intro h
    obtain ⟨hresolvers, rfl⟩ := Prod.mk.inj h
    cases hbindings : outcomes.mapM id with
    | error failure =>
        rw [hbindings] at hresolvers
        cases hresolvers
    | ok bindings =>
        rw [hbindings] at hresolvers
        rw [mapM_eq_ok, List.map_id] at hbindings
        exact ⟨bindings, by rw [hbindings], (Except.ok.inj hresolvers).symm⟩
  · rintro ⟨bindings, hbindings, rfl⟩
    obtain ⟨rfl, rfl⟩ := Prod.mk.inj hbindings
    have hmap : (bindings.map (Except.ok (ε := Failure))).mapM id = .ok bindings :=
      mapM_eq_ok.mpr (List.map_id _)
    rw [hmap]
    rfl

/-- What a root type is bound to. -/
structure Opens (env : Environment σ κ) (options : Options) (binding : RecordBinding σ κ) :
    Prop where
  store : binding.handle.store = env.store
  context : binding.handle.context = env.context
  now : binding.now = env.now
  opened : binding.handle.opened.isSome = !options.requestScoped

theorem opens_of_bind {d : Descriptor} {binding : RecordBinding σ κ} {world : σ}
    (h : (Action.exec (env.bind options d) world).1 = .ok binding) :
    env.Opens options binding ∧ binding.handle.descriptor = d := by
  by_cases hscoped : options.requestScoped
  · rw [exec_bind_scoped hscoped] at h
    obtain rfl := Except.ok.inj h
    exact ⟨⟨rfl, rfl, rfl, by simp [hscoped, bindingOf]⟩, rfl⟩
  · rw [exec_bind_unscoped (by simpa using hscoped)] at h
    cases hanswer : (Action.exec (env.store (env.request d)) world).1 with
    | error failure =>
        rw [hanswer] at h
        cases h
    | ok collection =>
        rw [hanswer] at h
        obtain rfl := Except.ok.inj h
        exact ⟨⟨rfl, rfl, rfl, by simp [hscoped]⟩, rfl⟩

theorem opens_of_bindAll {bindings : List (RecordBinding σ κ)} {world left : σ}
    (h : ((env.bindAll options descriptors).run world).run = (bindings.map .ok, left)) :
    bindings.map (·.handle.descriptor) = descriptors ∧
      ∀ binding ∈ bindings, env.Opens options binding := by
  induction descriptors generalizing bindings world with
  | nil =>
      obtain ⟨hnone, -⟩ := Prod.mk.inj h
      obtain rfl := List.map_eq_nil_iff.mp hnone.symm
      exact ⟨rfl, by simp⟩
  | cons d rest ih =>
      rw [bindAll_cons] at h
      obtain ⟨houtcomes, rfl⟩ := Prod.mk.inj h
      cases bindings with
      | nil => cases houtcomes
      | cons binding more =>
          obtain ⟨hfirst, hmore⟩ := List.cons.inj houtcomes
          obtain ⟨hopens, hdescriptor⟩ := opens_of_bind hfirst
          obtain ⟨hdescriptors, hall⟩ := ih (Prod.ext hmore rfl)
          exact ⟨by rw [List.map_cons, hdescriptor, hdescriptors],
            List.forall_mem_cons.mpr ⟨hopens, hall⟩⟩

/-- Bindings of different root types are numbered by the places of these. -/
theorem zipIdx_noted {bindings : List (RecordBinding σ κ)}
    (hnodup : (bindings.map (·.handle.descriptor)).Nodup) :
    bindings.zipIdx.map (fun entry => entry.1.noted entry.2) = bindings.map fun binding =>
      binding.noted ((bindings.map (·.handle.descriptor)).idxOf binding.handle.descriptor) := by
  apply List.ext_getElem
  · simp
  · intro n hn _
    simp only [List.length_map, List.length_zipIdx] at hn
    have hplace : (bindings.map (·.handle.descriptor)).idxOf bindings[n].handle.descriptor = n := by
      have hmapped : n < (bindings.map (·.handle.descriptor)).length := by simpa using hn
      have hget : bindings[n].handle.descriptor = (bindings.map (·.handle.descriptor))[n] := by
        simp
      rw [hget, hnodup.idxOf_getElem]
    simp [hplace]

/-- Resolvers made with notes are those made without them. The store is asked once for each root
type in turn, or not at all if calls ask it. -/
theorem exec_resolvers_noted {schema : Schema} {world left : σ} {resolvers : ResolverMap σ κ}
    (hnodup : descriptors.Nodup)
    (h : Action.exec (env.resolvers options schema descriptors) world = (.ok resolvers, left)) :
    Action.exec (env.noted.resolvers options schema descriptors) ⟨world, []⟩ =
      (.ok (resolvers.noted (descriptors.idxOf ·)),
        ⟨left, if options.requestScoped then [] else env.askedFor 0 descriptors⟩) := by
  obtain ⟨bindings, hbindings, rfl⟩ := exec_resolvers_eq_ok.mp h
  obtain ⟨hdescriptors, -⟩ := opens_of_bindAll hbindings
  refine exec_resolvers_eq_ok.mpr
    ⟨bindings.map fun binding => binding.noted (descriptors.idxOf binding.handle.descriptor),
      ?_, ?_⟩
  · by_cases hscoped : options.requestScoped
    · rw [bindAll_perCall hscoped] at hbindings ⊢
      obtain ⟨hall, rfl⟩ := Prod.mk.inj hbindings
      have hplain : bindings = descriptors.map (env.bindingOf options) := by
        refine List.map_injective_iff.mpr (fun _ _ hsame => Except.ok.inj hsame)
          (hall.symm.trans ?_)
        rw [List.map_map]
        rfl
      rw [hplain, if_pos hscoped, List.map_map, List.map_map]
      rfl
    · have honce : options.requestScoped = false := by simpa using hscoped
      rw [bindAll_noted honce]
      dsimp only
      rw [hbindings, if_neg hscoped, List.nil_append]
      congr 1
      have hzip := zipIdx_noted (hdescriptors ▸ hnodup)
      rw [hdescriptors] at hzip
      rw [← hzip, List.map_map, List.zipIdx_map, List.map_map]
      rfl
  · rw [ResolverMap.addAll, ResolverMap.noted_foldl_add, ResolverMap.noted_empty]
    rfl

end Environment

/-! ## Services with notes -/

/-- A call of what serves a field of a service, within a request if there is one. -/
structure Invocation (κ : Type) where
  typeName : String
  fieldName : String
  request : Option κ
  arguments : Datum.Entries

namespace Service

/-- A service that works with notes; a collection has the number of its root type. -/
def noted (service : Service σ κ) : Service (Noted σ κ) κ :=
  ⟨service.document, service.schema, service.resolvers.noted (service.descriptors.idxOf ·),
    service.descriptors⟩

/-- A service that is built with notes is the one built without them. When it is built, the store is
asked once for each root type in turn, or not at all if calls ask it. -/
theorem exec_build_noted {env : Environment σ κ} {sources : List Source} {roots : List String}
    {options : Options} {world left : σ} {service : Service σ κ}
    (h : Action.exec (build env sources roots options) world = (.ok service, left)) :
    Action.exec (build env.noted sources roots options) ⟨world, []⟩ =
      (.ok service.noted,
        ⟨left, if options.requestScoped then [] else env.askedFor 0 service.descriptors⟩) := by
  obtain ⟨hassembled, hschema, hresolvers, hfits⟩ := exec_build_eq_ok h
  have hacquired := Environment.exec_resolvers_noted (nodup_assembled hassembled).of_map hresolvers
  rw [exec_build hassembled hschema, Action.exec_map, hacquired]
  · rfl
  · intro resolvers other hother
    obtain ⟨hsame, -⟩ := Prod.mk.inj (hacquired.symm.trans hother)
    obtain rfl := Except.ok.inj hsame
    exact hfits.noted _

/-- The operation that an invocation calls, unless its arguments have a name that calls use
themselves. -/
def operationOf? (service : Service σ κ) (i : Invocation κ) :
    Option (RecordBinding σ κ × Operation) :=
  match service.resolvers.find? i.typeName i.fieldName with
  | some (.operation binding op) =>
    if (i.arguments.find? fun entry => Resolver.reservedArguments.contains entry.1).isSome then none
    else some (binding, op)
  | _ => none

/-- Calls what serves a field. -/
def invoke (service : Service σ κ) (i : Invocation κ) : Action σ Datum :=
  service.resolve i.typeName i.fieldName i.request i.arguments

variable {service : Service σ κ} {i : Invocation κ}

theorem operationOf?_eq_some {binding : RecordBinding σ κ} {op : Operation} :
    service.operationOf? i = some (binding, op) ↔
      service.resolvers.find? i.typeName i.fieldName = some (.operation binding op) ∧
        i.arguments.find? (fun entry => Resolver.reservedArguments.contains entry.1) = none := by
  unfold operationOf?
  cases hfind : service.resolvers.find? i.typeName i.fieldName with
  | none => simp
  | some resolver =>
      cases resolver with
      | entryPoint => simp
      | operation own ownOp =>
          cases hreserved : i.arguments.find?
              fun entry => Resolver.reservedArguments.contains entry.1 <;>
            simp

theorem invoke_of_operation {binding : RecordBinding σ κ} {op : Operation}
    (h : service.operationOf? i = some (binding, op)) :
    service.invoke i = binding.run op i.request i.arguments := by
  obtain ⟨hfind, hfree⟩ := operationOf?_eq_some.mp h
  obtain ⟨fields, hfields, hlookup⟩ := Option.bind_eq_some_iff.mp hfind
  unfold invoke resolve
  rw [hfields]
  simp only [hlookup, Resolver.serve, hfree]

/-- An invocation that calls no operation leaves the world as it is, and comes to the same
everywhere in any context. -/
theorem exec_invoke_of_none (h : service.operationOf? i = none) :
    ∃ outcome,
      (∀ request world,
        Action.exec (service.invoke { i with request := request }) world = (outcome, world)) ∧
      ∀ before : Noted σ κ, Action.exec (service.noted.invoke i) before = (outcome, before) := by
  have hnoted : service.noted.resolvers.ofType? i.typeName =
      (service.resolvers.ofType? i.typeName).map
        (Association.mapValues (Resolver.noted (service.descriptors.idxOf ·))) :=
    Association.lookup_mapValues _ _ _
  unfold invoke resolve
  rw [hnoted]
  dsimp only
  cases hfields : service.resolvers.ofType? i.typeName with
  | none => exact ⟨_, fun _ _ => rfl, fun _ => rfl⟩
  | some fields =>
      simp only [Option.map_some, Association.lookup_mapValues]
      cases hlookup : fields.lookup i.fieldName with
      | none => exact ⟨_, fun _ _ => rfl, fun _ => rfl⟩
      | some resolver =>
          cases resolver with
          | entryPoint => exact ⟨_, fun _ _ => rfl, fun _ => rfl⟩
          | operation binding op =>
              have hfind : service.resolvers.find? i.typeName i.fieldName =
                  some (.operation binding op) :=
                Option.bind_eq_some_iff.mpr ⟨fields, hfields, hlookup⟩
              cases hreserved : i.arguments.find?
                  fun entry => Resolver.reservedArguments.contains entry.1 with
              | none =>
                  rw [operationOf?_eq_some.mpr ⟨hfind, hreserved⟩] at h
                  cases h
              | some entry =>
                  refine ⟨.error (.reservedArgument entry.1), fun _ _ => ?_, fun _ => ?_⟩
                  · simp only [Resolver.serve, hreserved]
                    rfl
                  · simp only [Option.map_some, Resolver.noted, Resolver.serve, hreserved]
                    rfl

theorem operationOf?_noted {binding : RecordBinding σ κ} {op : Operation}
    (h : service.operationOf? i = some (binding, op)) :
    service.noted.operationOf? i =
      some (binding.noted (service.descriptors.idxOf binding.handle.descriptor), op) := by
  obtain ⟨hfind, hfree⟩ := operationOf?_eq_some.mp h
  refine operationOf?_eq_some.mpr ⟨?_, hfree⟩
  change (service.resolvers.noted _).find? _ _ = _
  rw [ResolverMap.find?_noted, hfind]
  rfl

end Service

/-! ## Operations of a service -/

namespace ResolverMap

/-- Whether all operations in a map of resolvers are in the place of a root type and an operation,
with bindings that fulfil a condition. -/
def Only (fulfils : RecordBinding σ κ → Prop) (resolvers : ResolverMap σ κ) : Prop :=
  ∀ entry ∈ resolvers, ∀ field ∈ entry.2, ∀ binding op, field.2 = .operation binding op →
    fulfils binding ∧ entry.1 = binding.typeName ++ op.suffix ∧ field.1 = op.name

variable {fulfils : RecordBinding σ κ → Prop} {resolvers : ResolverMap σ κ}

theorem Only.of_find? (h : Only fulfils resolvers) {typeName fieldName : String}
    {binding : RecordBinding σ κ} {op : Operation}
    (hfind : resolvers.find? typeName fieldName = some (.operation binding op)) :
    fulfils binding ∧ typeName = binding.typeName ++ op.suffix ∧ fieldName = op.name := by
  obtain ⟨fields, hfields, hlookup⟩ := Option.bind_eq_some_iff.mp hfind
  exact h _ (Association.mem_of_lookup hfields) _ (Association.mem_of_lookup hlookup) binding op
    rfl

theorem Only.put (h : Only fulfils resolvers) {binding : RecordBinding σ κ}
    (hbinding : fulfils binding) {typeName : String} {operations : List Operation}
    (hplaces : ∀ op ∈ operations, typeName = binding.typeName ++ op.suffix) :
    Only fulfils (Association.put typeName (ofOperations binding operations) resolvers) := by
  intro entry hentry field hfield other op hother
  rcases Association.mem_of_mem_put hentry with rfl | hentry
  · obtain ⟨own, hown, rfl⟩ := List.mem_map.mp hfield
    obtain ⟨rfl, rfl⟩ := Resolver.operation.inj hother
    exact ⟨hbinding, hplaces own hown, rfl⟩
  · exact h entry hentry field hfield other op hother

theorem Only.enter (h : Only fulfils resolvers) (typeName fieldName : String) :
    Only fulfils (Association.change typeName (Association.put fieldName .entryPoint)
      resolvers) := by
  intro entry hentry field hfield other op hother
  rcases Association.mem_of_mem_change hentry with hentry | ⟨fields, hfields, rfl⟩
  · exact h entry hentry field hfield other op hother
  · rcases Association.mem_of_mem_put hfield with rfl | hfield
    · cases hother
    · exact h _ hfields field hfield other op hother

theorem only_addAll {names : RootNames} {bindings : List (RecordBinding σ κ)}
    (h : ∀ binding ∈ bindings, fulfils binding) : Only fulfils (addAll names bindings) := by
  induction bindings using List.reverseRecOn with
  | nil =>
      intro entry hentry field hfield
      rcases Association.mem_of_mem_put hentry with rfl | hentry
      · cases hfield
      · obtain rfl := List.mem_singleton.mp hentry
        cases hfield
  | append_singleton rest binding ih =>
      obtain ⟨hrest, hlast⟩ := List.forall_mem_append.mp h
      have hbinding := hlast binding (List.mem_singleton_self binding)
      rw [addAll_append_singleton]
      refine ((((ih hrest).enter _ _).enter _ _).put hbinding ?_).put hbinding ?_
      · simp [Operation.queries, Operation.suffix, RecordBinding.typeName]
      · simp [Operation.mutations, Operation.suffix, RecordBinding.typeName]

end ResolverMap

/-- Whether an invocation calls an operation on one of the root types of a service. -/
structure Service.Calls (service : Service σ κ) (i : Invocation κ) (binding : RecordBinding σ κ)
    (op : Operation) : Prop where
  operation : service.operationOf? i = some (binding, op)
  root : binding.handle.descriptor ∈ service.descriptors
  typeName : i.typeName = binding.typeName ++ op.suffix
  fieldName : i.fieldName = op.name

/-- Every operation of a service works with the collection of its root type. -/
theorem Service.calls_of_operation {env : Environment σ κ} {sources : List Source}
    {roots : List String} {options : Options} {world left : σ} {service : Service σ κ}
    (h : Action.exec (Service.build env sources roots options) world = (.ok service, left))
    {i : Invocation κ} {binding : RecordBinding σ κ} {op : Operation}
    (hop : service.operationOf? i = some (binding, op)) :
    env.Opens options binding ∧ service.Calls i binding op := by
  obtain ⟨-, -, hresolvers, -⟩ := Service.exec_build_eq_ok h
  obtain ⟨bindings, hbindings, hmap⟩ := Environment.exec_resolvers_eq_ok.mp hresolvers
  obtain ⟨hdescriptors, hopens⟩ := Environment.opens_of_bindAll hbindings
  have honly : ResolverMap.Only (fun binding => env.Opens options binding ∧
      binding.handle.descriptor ∈ service.descriptors) service.resolvers := by
    rw [hmap]
    exact ResolverMap.only_addAll fun binding hbinding =>
      ⟨hopens binding hbinding, hdescriptors ▸ List.mem_map_of_mem hbinding⟩
  obtain ⟨⟨hown, hroot⟩, htypeName, hfieldName⟩ :=
    honly.of_find? (Service.operationOf?_eq_some.mp hop).1
  exact ⟨hown, hop, hroot, htypeName, hfieldName⟩

/-! ## Logs -/

/-- What one call notes, when so many requests have been noted before. A call of no operation notes
nothing. Where collections are acquired once, an operation touches the collection of its root type
alone. Where calls acquire them, an operation asks the store once, with the context of the call, and
touches the collection that it is given alone. An operation that does not fail touches it last of
all as what it is. -/
inductive Segment (env : Environment σ κ) (options : Options) (service : Service σ κ)
    (requests : Nat) (i : Invocation κ) (outcome : Except Failure Datum) : List (Note κ) → Prop
  | nothing : service.operationOf? i = none →
      Segment env options service requests i outcome []
  | once {binding : RecordBinding σ κ} {op : Operation} {ops : List Operation} :
      options.requestScoped = false → service.Calls i binding op →
      (∀ answer, outcome = .ok answer → EndsWith op ops) →
      Segment env options service requests i outcome
        (ops.map (.touched (service.descriptors.idxOf binding.handle.descriptor)))
  | perCall {binding : RecordBinding σ κ} {op : Operation} {ops : List Operation} :
      options.requestScoped → service.Calls i binding op →
      (∀ answer, outcome = .ok answer → EndsWith op ops) →
      Segment env options service requests i outcome
        (.asked requests ⟨binding.handle.descriptor.idName, binding.typeName,
            i.request.getD env.context⟩ ::
          ops.map (.touched requests))

/-- What calls note one after the other. -/
inductive Logged (env : Environment σ κ) (options : Options) (service : Service σ κ) :
    Nat → List (Invocation κ) → List (Except Failure Datum) → List (List (Note κ)) → Prop
  | nil {requests : Nat} : Logged env options service requests [] [] []
  | cons {requests : Nat} {i : Invocation κ} {outcome : Except Failure Datum}
      {segment : List (Note κ)} {calls : List (Invocation κ)}
      {outcomes : List (Except Failure Datum)} {segments : List (List (Note κ))} :
      Segment env options service requests i outcome segment →
      Logged env options service (requests + segment.countP Note.isRequest) calls outcomes
        segments →
      Logged env options service requests (i :: calls) (outcome :: outcomes)
        (segment :: segments)

namespace Service

/-- What calls come to one after the other, and the world that is left. -/
def invokeAll (service : Service σ κ) :
    List (Invocation κ) → σ → List (Except Failure Datum) × σ
  | [], world => ([], world)
  | i :: rest, world =>
    let (outcome, middle) := Action.exec (service.invoke i) world
    let (outcomes, left) := invokeAll service rest middle
    (outcome :: outcomes, left)

variable {env : Environment σ κ} {sources : List Source} {roots : List String} {options : Options}
  {world left : σ} {service : Service σ κ}
  (hbuilt : Action.exec (build env sources roots options) world = (.ok service, left))

include hbuilt

/-- A call with notes comes to the same as without them. -/
theorem exec_invoke_noted (i : Invocation κ) (before : Noted σ κ) :
    ∃ segment,
      Action.exec (service.noted.invoke i) before =
        ((Action.exec (service.invoke i) before.world).1,
          ⟨(Action.exec (service.invoke i) before.world).2, before.notes ++ segment⟩) ∧
      Segment env options service before.requests i
        (Action.exec (service.invoke i) before.world).1 segment := by
  cases hop : service.operationOf? i with
  | none =>
      obtain ⟨outcome, hplain, hnoted⟩ := exec_invoke_of_none hop
      have hown : Action.exec (service.invoke i) before.world = (outcome, before.world) :=
        hplain i.request before.world
      refine ⟨[], ?_, .nothing hop⟩
      rw [hown, hnoted, List.append_nil]
  | some found =>
      obtain ⟨binding, op⟩ := found
      obtain ⟨hopens, hcalls⟩ := calls_of_operation hbuilt hop
      rw [invoke_of_operation hop, invoke_of_operation (operationOf?_noted hop)]
      have hopened := hopens.opened
      by_cases hscoped : options.requestScoped
      · have hunopened : binding.handle.opened = none := by simpa [hscoped] using hopened
        obtain ⟨ops, hexec, hends⟩ := RecordBinding.exec_noted_of_unopened hunopened op i.request
          i.arguments before
        rw [hopens.context] at hexec
        exact ⟨_, hexec, .perCall hscoped hcalls hends⟩
      · obtain ⟨collection, hcollection⟩ := Option.isSome_iff_exists.mp
          (hopened.trans (by simp [hscoped]))
        obtain ⟨ops, hexec, hends⟩ := RecordBinding.exec_noted_of_opened hcollection op i.request
          i.arguments before
        exact ⟨_, hexec, .once (by simpa using hscoped) hcalls hends⟩

/-- Calls with notes come to the same as without them, and note what each of them asks and
touches. -/
theorem invokeAll_noted (calls : List (Invocation κ)) (before : Noted σ κ) :
    ∃ segments,
      service.noted.invokeAll calls before =
        ((service.invokeAll calls before.world).1,
          ⟨(service.invokeAll calls before.world).2, before.notes ++ segments.flatten⟩) ∧
      Logged env options service before.requests calls (service.invokeAll calls before.world).1
        segments := by
  induction calls generalizing before with
  | nil => exact ⟨[], by simp [invokeAll], .nil⟩
  | cons i rest ih =>
      obtain ⟨segment, hexec, hsegment⟩ := exec_invoke_noted hbuilt i before
      obtain ⟨segments, hrest, hlogged⟩ := ih
        ⟨(Action.exec (service.invoke i) before.world).2, before.notes ++ segment⟩
      refine ⟨segment :: segments, ?_, .cons hsegment ?_⟩
      · simp only [invokeAll, hexec, hrest, List.flatten_cons, List.append_assoc]
      · rwa [Noted.requests, List.countP_append] at hlogged

/-- Where collections are acquired once, the context of a call does not matter. -/
theorem exec_invoke_of_once (honce : options.requestScoped = false) (i : Invocation κ)
    (request : Option κ) (before : σ) :
    Action.exec (service.invoke { i with request := request }) before =
      Action.exec (service.invoke i) before := by
  cases hop : service.operationOf? i with
  | none =>
      obtain ⟨outcome, hplain, -⟩ := exec_invoke_of_none hop
      exact (hplain request before).trans (hplain i.request before).symm
  | some found =>
      obtain ⟨binding, op⟩ := found
      have hother : service.operationOf? { i with request := request } = some (binding, op) := hop
      obtain ⟨collection, hcollection⟩ := Option.isSome_iff_exists.mp
        ((calls_of_operation hbuilt hop).1.opened.trans (by simp [honce]))
      have hopened (request : Option κ) :
          binding.handle.collection request = pure collection := by
        rw [Handle.collection, hcollection]
      rw [invoke_of_operation hop, invoke_of_operation hother, RecordBinding.run_eq_bind,
        RecordBinding.run_eq_bind, hopened, hopened]

end Service

end RecordApi
