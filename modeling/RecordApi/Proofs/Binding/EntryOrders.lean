import RecordApi.Proofs.Binding.ResolverMaps

/-!
# The order in which root types are entered

A map of resolvers to which root types of different names are added serves each of them, in whatever
order they are added. The exception is a root type whose own operations are on a type that serves
the schema: it takes away the entry points of those added before it, so the order can be told from
the map as soon as there is another root type.
-/

namespace RecordApi

open RecordApi.Language

variable {σ κ : Type}

namespace ResolverMap

/-- Whether two maps have the same types, and the same resolvers for their fields. -/
def Same (resolvers other : ResolverMap σ κ) : Prop :=
  ∀ typeName, (resolvers.ofType? typeName).isSome = (other.ofType? typeName).isSome ∧
    ∀ field, resolvers.find? typeName field = other.find? typeName field

theorem Same.refl (resolvers : ResolverMap σ κ) : Same resolvers resolvers :=
  fun _ => ⟨rfl, fun _ => rfl⟩

/-- Whether a root type has none of its operations on a type that serves the schema. -/
def Apart (names : RootNames) (typeName : String) : Prop :=
  ∀ op : Operation, ¬ names.Includes (typeName ++ op.suffix)

/-- The map to which root types have been added one after the other. -/
def addAll (names : RootNames) (bindings : List (RecordBinding σ κ)) : ResolverMap σ κ :=
  bindings.foldl (add names.query names.mutation) (empty names.query names.mutation)

theorem addAll_append_singleton (names : RootNames) (bindings : List (RecordBinding σ κ))
    (binding : RecordBinding σ κ) :
    addAll names (bindings ++ [binding]) =
      add names.query names.mutation (addAll names bindings) binding := by
  rw [addAll, List.foldl_append]
  rfl

variable {names : RootNames} {bindings : List (RecordBinding σ κ)} {binding : RecordBinding σ κ}
  {resolvers : ResolverMap σ κ}

/-- The operations of the root type that was added last are all that its types have. -/
theorem ofType?_add_self (op : Operation) :
    (add names.query names.mutation resolvers binding).ofType? (binding.typeName ++ op.suffix) =
      some (ofOperations binding
        (if op ∈ Operation.queries then Operation.queries else Operation.mutations)) := by
  have hne : binding.typeName ++ "Query" ≠ binding.typeName ++ "Mutation" := by
    rw [ne_eq, String.append_right_inj]
    decide
  cases op with
  | find | list =>
      rw [Operation.suffix, add_eq, ofType?, Association.lookup_put_of_ne hne,
        Association.lookup_put_self]
      rfl
  | create | update | upsert | delete =>
      exact Association.lookup_put_self _ _ _

theorem find?_congr {other : ResolverMap σ κ} {name : String}
    (h : resolvers.ofType? name = other.ofType? name) (field : String) :
    resolvers.find? name field = other.find? name field := by
  simp only [find?, h]

/-- A type that serves the schema gains an entry point, unless the root type takes it for operations
of its own. -/
theorem find?_add {name : String} (h : names.Includes name)
    (hsome : (resolvers.ofType? name).isSome)
    (hother : ∀ op : Operation, name ≠ binding.typeName ++ op.suffix) :
    ((add names.query names.mutation resolvers binding).ofType? name).isSome ∧ ∀ field,
      (add names.query names.mutation resolvers binding).find? name field =
        if field = Naming.lowerCamel binding.typeName then some .entryPoint
        else resolvers.find? name field := by
  obtain ⟨hentered, hfields⟩ := find?_enter h binding.typeName hsome
  rw [ofType?_add hother]
  exact ⟨hentered, fun field => (find?_congr (ofType?_add hother) field).trans (hfields field)⟩

/-! ## Root types apart from those that serve the schema -/

/-- Whether a map has the entry points and the operations of root types, and nothing else. -/
structure Holds (names : RootNames) (bindings : List (RecordBinding σ κ))
    (resolvers : ResolverMap σ κ) : Prop where
  entries : ∀ name, names.Includes name → (resolvers.ofType? name).isSome ∧ ∀ field,
    resolvers.find? name field =
      if field ∈ bindings.map fun binding => Naming.lowerCamel binding.typeName
      then some .entryPoint else none
  operations : ∀ binding ∈ bindings, ∀ op : Operation,
    resolvers.ofType? (binding.typeName ++ op.suffix) = some (ofOperations binding
      (if op ∈ Operation.queries then Operation.queries else Operation.mutations))
  nothing : ∀ name, ¬ names.Includes name →
    (∀ binding ∈ bindings, ∀ op : Operation, name ≠ binding.typeName ++ op.suffix) →
    resolvers.ofType? name = none

theorem holds_empty (names : RootNames) :
    Holds names [] (empty names.query names.mutation : ResolverMap σ κ) where
  entries := by
    intro name h
    obtain ⟨fields, hfields, hnone⟩ : ∃ fields : Association (Resolver σ κ),
        (empty names.query names.mutation).ofType? name = some fields ∧ fields = [] := by
      rw [ofType?, empty, Association.lookup_put, Association.lookup_cons]
      rcases h with rfl | rfl
      · rw [if_pos rfl]
        split <;> exact ⟨_, rfl, rfl⟩
      · rw [if_pos rfl]
        exact ⟨_, rfl, rfl⟩
    refine ⟨by rw [hfields]; rfl, fun field => ?_⟩
    rw [find?, hfields, hnone]
    rfl
  operations := by simp
  nothing := by
    intro name h _
    obtain ⟨hquery, hmutation⟩ := not_or.mp h
    rw [ofType?, empty, Association.lookup_put, if_neg hmutation, Association.lookup_cons,
      if_neg hquery]
    rfl

theorem Holds.add (h : Holds names bindings resolvers)
    (hnew : ∀ other ∈ bindings, other.typeName ≠ binding.typeName)
    (hapart : ∀ other ∈ bindings ++ [binding], Apart names other.typeName) :
    Holds names (bindings ++ [binding])
      (add names.query names.mutation resolvers binding) where
  entries := by
    intro name hrole
    obtain ⟨hsome, hfields⟩ := h.entries name hrole
    have hother (op : Operation) : name ≠ binding.typeName ++ op.suffix := fun hname =>
      hapart binding (by simp) op (hname ▸ hrole)
    obtain ⟨hadded, hfind⟩ := find?_add hrole hsome hother
    refine ⟨hadded, fun field => ?_⟩
    rw [hfind, hfields]
    by_cases hown : field = Naming.lowerCamel binding.typeName
    · simp [hown]
    · simp [hown]
  operations := by
    intro other hother op
    rcases List.mem_append.mp hother with hbefore | hlast
    · rw [ofType?_add fun op' hsame =>
          hnew other hbefore (Operation.eq_of_append_suffix hsame).1,
        ofType?_enter_of_not_includes (hapart other hother op)]
      exact h.operations other hbefore op
    · obtain rfl := List.mem_singleton.mp hlast
      exact ofType?_add_self op
  nothing := by
    intro name hrole hother
    obtain ⟨hbefore, hlast⟩ := List.forall_mem_append.mp hother
    rw [ofType?_add (hlast binding (List.mem_singleton_self binding)),
      ofType?_enter_of_not_includes hrole]
    exact h.nothing name hrole hbefore

/-- What is added is all that there is. -/
theorem holds_addAll (hnodup : (bindings.map (·.typeName)).Nodup)
    (hapart : ∀ binding ∈ bindings, Apart names binding.typeName) :
    Holds names bindings (addAll names bindings) := by
  induction bindings using List.reverseRecOn with
  | nil => exact holds_empty names
  | append_singleton rest binding ih =>
      rw [List.map_append, List.nodup_append] at hnodup
      obtain ⟨hrest, -, hnew⟩ := hnodup
      rw [addAll_append_singleton]
      refine (ih hrest fun other hother => hapart other (List.mem_append_left _ hother)).add
        (fun other hother => ?_) hapart
      exact hnew _ (List.mem_map_of_mem hother) _ (by simp)

/-- Maps that hold the same root types are the same. -/
theorem Holds.same {others : List (RecordBinding σ κ)} {other : ResolverMap σ κ}
    (h : Holds names bindings resolvers) (hothers : Holds names others other)
    (hmem : ∀ binding, binding ∈ bindings ↔ binding ∈ others) : Same resolvers other := by
  intro name
  by_cases hrole : names.Includes name
  · obtain ⟨hsome, hfields⟩ := h.entries name hrole
    obtain ⟨hsomeOther, hfieldsOther⟩ := hothers.entries name hrole
    refine ⟨hsome.trans hsomeOther.symm, fun field => ?_⟩
    rw [hfields, hfieldsOther]
    simp only [List.mem_map, hmem]
  · have htypes : resolvers.ofType? name = other.ofType? name := by
      by_cases hown : ∃ binding ∈ bindings, ∃ op : Operation, name = binding.typeName ++ op.suffix
      · obtain ⟨binding, hbinding, op, rfl⟩ := hown
        rw [h.operations binding hbinding op,
          hothers.operations binding ((hmem binding).mp hbinding) op]
      · push Not at hown
        rw [h.nothing name hrole hown, hothers.nothing name hrole fun binding hbinding =>
          hown binding ((hmem binding).mpr hbinding)]
    exact ⟨congrArg Option.isSome htypes, find?_congr htypes⟩

/-! ## A root type on a type that serves the schema -/

/-- A root type leaves nothing of a type that it takes for its own operations. -/
theorem find?_add_ne_entryPoint (op : Operation) (field : String) :
    (add names.query names.mutation resolvers binding).find? (binding.typeName ++ op.suffix)
      field ≠ some .entryPoint := by
  intro h
  rw [find?, ofType?_add_self] at h
  obtain ⟨_, -, hsome⟩ := List.mem_map.mp (Association.mem_of_lookup h)
  cases hsome

/-- A type taken by a root type still gains the entry points of those added later. -/
theorem find?_addAll_of_taken {op : Operation}
    (hrole : names.Includes (binding.typeName ++ op.suffix)) {later : List (RecordBinding σ κ)}
    (hnew : ∀ other ∈ later, binding.typeName ≠ other.typeName) :
    ((addAll names (binding :: later)).ofType? (binding.typeName ++ op.suffix)).isSome ∧
      ∀ other ∈ later,
        (addAll names (binding :: later)).find? (binding.typeName ++ op.suffix)
          (Naming.lowerCamel other.typeName) = some .entryPoint := by
  induction later using List.reverseRecOn with
  | nil =>
      have hself : (addAll names [binding]).ofType? (binding.typeName ++ op.suffix) = some _ :=
        ofType?_add_self op
      exact ⟨by rw [hself]; rfl, by simp⟩
  | append_singleton rest last ih =>
      obtain ⟨hrest, hlast⟩ := List.forall_mem_append.mp hnew
      obtain ⟨hsome, hfields⟩ := ih hrest
      have hother (op' : Operation) :
          binding.typeName ++ op.suffix ≠ last.typeName ++ op'.suffix := fun hsame =>
        hlast last (List.mem_singleton_self last) (Operation.eq_of_append_suffix hsame).1
      obtain ⟨hadded, hfind⟩ := find?_add hrole hsome hother
      rw [← List.cons_append, addAll_append_singleton]
      refine ⟨hadded, fun other hother => ?_⟩
      rw [hfind]
      split
      · rfl
      · next hform =>
          rcases List.mem_append.mp hother with hbefore | hsame
          · exact hfields other hbefore
          · obtain rfl := List.mem_singleton.mp hsame
            exact absurd rfl hform

variable (names) in
/-- The order of root types matters just if there are several and one of them takes a type that
serves the schema for its operations. -/
theorem same_addAll_iff (hnodup : (bindings.map (·.typeName)).Nodup) :
    (∀ first second : List (RecordBinding σ κ), first.Perm bindings → second.Perm bindings →
        Same (addAll names first) (addAll names second)) ↔
      bindings.length ≤ 1 ∨ ∀ binding ∈ bindings, Apart names binding.typeName := by
  constructor
  · intro h
    by_contra hnot
    push Not at hnot
    obtain ⟨hlength, binding, hbinding, htaken⟩ := hnot
    obtain ⟨op, hrole⟩ := not_forall_not.mp htaken
    obtain ⟨before, after, rfl⟩ := List.append_of_mem hbinding
    have hothers : before ++ after ≠ [] := by
      intro hnil
      rw [List.append_eq_nil_iff] at hnil
      simp [hnil] at hlength
    obtain ⟨other, hother⟩ := List.exists_mem_of_ne_nil _ hothers
    have hfront : (binding :: (before ++ after)).Perm (before ++ binding :: after) :=
      List.perm_middle.symm
    have hback : (before ++ after ++ [binding]).Perm (before ++ binding :: after) :=
      (List.perm_append_singleton binding _).trans hfront
    have hnew : ∀ other ∈ before ++ after, binding.typeName ≠ other.typeName := by
      have hapart := (hfront.map (·.typeName)).nodup_iff.mpr hnodup
      intro other hother hsame
      exact (List.nodup_cons.mp hapart).1 (List.mem_map.mpr ⟨other, hother, hsame.symm⟩)
    have hentry := (find?_addAll_of_taken hrole hnew).2 other hother
    have hsame := (h _ _ hfront hback (binding.typeName ++ op.suffix)).2
      (Naming.lowerCamel other.typeName)
    rw [hentry, addAll_append_singleton] at hsame
    exact find?_add_ne_entryPoint op _ hsame.symm
  · rintro (hlength | hapart) first second hfirst hsecond
    · have hsingle : first = second := by
        have hperm := hfirst.trans hsecond.symm
        have hshort : first.length ≤ 1 := hfirst.length_eq ▸ hlength
        cases first with
        | nil => exact (List.nil_perm.mp hperm).symm
        | cons binding rest =>
            obtain rfl : rest = [] := by simpa using hshort
            exact List.singleton_perm.mp hperm
      rw [hsingle]
      exact Same.refl _
    · have hholds {order : List (RecordBinding σ κ)} (horder : order.Perm bindings) :
          Holds names order (addAll names order) :=
        holds_addAll ((horder.map (·.typeName)).nodup_iff.mpr hnodup) fun binding hbinding =>
          hapart binding (horder.mem_iff.mp hbinding)
      exact (hholds hfirst).same (hholds hsecond) fun binding =>
        (hfirst.trans hsecond.symm).mem_iff

end ResolverMap

end RecordApi
