import RecordApi.Binding.Gathering
import RecordApi.Proofs.Binding.Agreement
import RecordApi.Proofs.Binding.EntryOrders

/-!
# Root types in any order

Root types that are bound side by side are bound once each, in whatever order the store answers, and
come to what they come to one after the other: to the failure of the first of them that fails, and
to the same resolvers otherwise, unless one of them takes a type that serves the schema for its own
operations.
-/

namespace RecordApi

open RecordApi.Language

variable {σ κ : Type}

/-- The types that resolvers are bound to as those that serve a schema. -/
def Schema.serving (schema : Schema) : RootNames :=
  ⟨schema.query.getD "Query", schema.mutation.getD "Mutation"⟩

namespace Environment

section Answers

variable (env : Environment σ κ) (options : Options)

/-- The world after the store has been asked for the collections of root types in turn. -/
def after (world : σ) (descriptors : List Descriptor) : σ :=
  descriptors.foldl (fun world d => (Action.exec (env.store (env.request d)) world).2) world

/-- What a root type is bound to by the answer of the store. -/
def boundBy (answers : Descriptor → Except Failure (Collection σ)) (d : Descriptor) :
    Except Failure (RecordBinding σ κ) :=
  if options.requestScoped then .ok (env.bindingOf options d)
  else (answers d).map fun collection =>
    { env.bindingOf options d with handle := ⟨env.store, d, env.context, some collection⟩ }

/-- Whether the store has an answer for each root type that does not depend on the world. -/
def Answers (descriptors : List Descriptor)
    (answers : Descriptor → Except Failure (Collection σ)) : Prop :=
  ∀ d ∈ descriptors, ∀ world, (Action.exec (env.store (env.request d)) world).1 = answers d

end Answers

variable {env : Environment σ κ} {options : Options} {schema : Schema}
  {descriptors : List Descriptor} {answers : Descriptor → Except Failure (Collection σ)}
  {world : σ}

theorem exec_bind_scoped (h : options.requestScoped) (d : Descriptor) (world : σ) :
    Action.exec (env.bind options d) world = (.ok (env.bindingOf options d), world) := by
  have hprepare : (env.bindingOf options d).handle.prepare options.requestScoped =
      pure (env.bindingOf options d).handle := if_pos h
  simp only [Environment.bind, hprepare, Action.exec_bind, Action.exec_pure, Action.after_ok]

theorem exec_bind_unscoped (h : options.requestScoped = false) (d : Descriptor) (world : σ) :
    Action.exec (env.bind options d) world =
      ((Action.exec (env.store (env.request d)) world).1.map fun collection =>
          { env.bindingOf options d with handle := ⟨env.store, d, env.context, some collection⟩ },
        (Action.exec (env.store (env.request d)) world).2) := by
  have hprepare : (env.bindingOf options d).handle.prepare options.requestScoped = (do
      let collection ← env.store (env.request d)
      return { (env.bindingOf options d).handle with opened := some collection }) :=
    if_neg (by simp [h])
  simp only [Environment.bind, hprepare, Action.exec_bind]
  rcases Action.exec (env.store (env.request d)) world with ⟨failure | collection, left⟩ <;> rfl

variable (options) in
/-- What a root type is bound to does not depend on the world, and its store is asked once unless
calls ask it. -/
theorem exec_bind_of_answers (hanswers : env.Answers descriptors answers) {d : Descriptor}
    (hd : d ∈ descriptors) (world : σ) :
    Action.exec (env.bind options d) world =
      (env.boundBy options answers d,
        if options.requestScoped then world else env.after world [d]) := by
  by_cases hscoped : options.requestScoped
  · rw [exec_bind_scoped hscoped, boundBy, if_pos hscoped, if_pos hscoped]
  · rw [exec_bind_unscoped (by simpa using hscoped), hanswers d hd, boundBy, if_neg hscoped,
      if_neg hscoped]
    rfl

theorem descriptor_of_boundBy {d : Descriptor} {binding : RecordBinding σ κ}
    (h : env.boundBy options answers d = .ok binding) : binding.handle.descriptor = d := by
  unfold boundBy at h
  split at h
  · obtain rfl := Except.ok.inj h
    rfl
  · cases hanswer : answers d with
    | error failure =>
        rw [hanswer] at h
        cases h
    | ok collection =>
        rw [hanswer] at h
        obtain rfl := Except.ok.inj h
        rfl

/-! ## Turns -/

/-- Whether some turns lead to a gathering from the beginning. -/
def Reaches (env : Environment σ κ) (options : Options) (schema : Schema)
    (descriptors : List Descriptor) (world : σ) (gathering : Gathering σ κ) : Prop :=
  ∃ turns, env.gather options schema descriptors turns (.initial schema world) =
    some gathering

theorem gather_append {turns more : List Turn} {first second : Gathering σ κ}
    (h : env.gather options schema descriptors turns first = some second) :
    env.gather options schema descriptors (turns ++ more) first =
      env.gather options schema descriptors more second := by
  unfold gather at h ⊢
  rw [List.foldlM_append, h]
  rfl

theorem gather_singleton (t : Turn) (gathering : Gathering σ κ) :
    env.gather options schema descriptors [t] gathering =
      env.turn options schema descriptors gathering t := by
  simp [gather]

end Environment

namespace Gathering

open Environment

/-- What holds of root types on their way to being bound, whatever turns they have taken. -/
structure Sound (env : Environment σ κ) (options : Options) (schema : Schema)
    (descriptors : List Descriptor) (answers : Descriptor → Except Failure (Collection σ))
    (world : σ) (gathering : Gathering σ κ) : Prop where
  done_once : gathering.order.Nodup
  done_given : ∀ d ∈ gathering.order, d ∈ descriptors
  asked_once : gathering.asked.Nodup
  asked_given : ∀ d ∈ gathering.asked, d ∈ descriptors
  perCall : options.requestScoped → gathering.asked = [] ∧ gathering.world = world
  once : options.requestScoped = false →
    (∀ d ∈ gathering.order, d ∈ gathering.asked) ∧
      gathering.world = env.after world gathering.order
  finished : gathering.finished =
    gathering.order.map fun d => (d, env.boundBy options answers d)
  entered : gathering.resolvers = ResolverMap.addAll schema.serving
    (gathering.order.filterMap fun d => (env.boundBy options answers d).toOption)

variable {env : Environment σ κ} {options : Options} {schema : Schema}
  {descriptors : List Descriptor} {answers : Descriptor → Except Failure (Collection σ)}
  {world : σ} {gathering next : Gathering σ κ}

theorem sound_initial :
    Sound env options schema descriptors answers world (.initial schema world) where
  done_once := .nil
  done_given := by simp [initial, order]
  asked_once := .nil
  asked_given := by simp [initial]
  perCall _ := ⟨rfl, rfl⟩
  once _ := ⟨by simp [initial, order], rfl⟩
  finished := rfl
  entered := rfl

@[simp] theorem order_finish (d : Descriptor) (gathering : Gathering σ κ) :
    (env.finish options schema d gathering).order = gathering.order ++ [d] := by
  simp [finish, order]

@[simp] theorem asked_finish (d : Descriptor) (gathering : Gathering σ κ) :
    (env.finish options schema d gathering).asked = gathering.asked := rfl

/-- A root type enters what the store's answer binds it to. -/
theorem finish_of_answers (hanswers : env.Answers descriptors answers) {d : Descriptor}
    (hd : d ∈ descriptors) (gathering : Gathering σ κ) :
    env.finish options schema d gathering =
      { world := if options.requestScoped then gathering.world else env.after gathering.world [d]
        asked := gathering.asked
        finished := gathering.finished ++ [(d, env.boundBy options answers d)]
        resolvers := match env.boundBy options answers d with
          | .ok binding => ResolverMap.add schema.serving.query schema.serving.mutation
              gathering.resolvers binding
          | .error _ => gathering.resolvers } := by
  have hexec := exec_bind_of_answers options hanswers hd gathering.world
  unfold finish
  rw [show ((env.bind options d).run.run gathering.world).run =
    Action.exec (env.bind options d) gathering.world from rfl, hexec]
  rfl

variable (h : Sound env options schema descriptors answers world gathering)

include h

theorem Sound.ask {d : Descriptor} (hd : d ∈ descriptors) (hnew : d ∉ gathering.asked)
    (hscoped : options.requestScoped = false) :
    Sound env options schema descriptors answers world
      { gathering with asked := gathering.asked ++ [d] } where
  done_once := h.done_once
  done_given := h.done_given
  asked_once := by
    refine List.nodup_append.mpr ⟨h.asked_once, List.nodup_singleton d, ?_⟩
    rintro other hother _ hlast rfl
    exact hnew (List.mem_singleton.mp hlast ▸ hother)
  asked_given := List.forall_mem_append.mpr ⟨h.asked_given, by simpa using hd⟩
  perCall hother := by simp [hscoped] at hother
  once _ := by
    obtain ⟨hasked, hworld⟩ := h.once hscoped
    exact ⟨fun d hd => List.mem_append_left _ (hasked d hd), hworld⟩
  finished := h.finished
  entered := h.entered

theorem Sound.finish (hanswers : env.Answers descriptors answers) {d : Descriptor}
    (hd : d ∈ descriptors) (hnew : d ∉ gathering.order)
    (hasked : options.requestScoped = false → d ∈ gathering.asked) :
    Sound env options schema descriptors answers world
      (env.finish options schema d gathering) where
  done_once := by
    rw [order_finish]
    refine List.nodup_append.mpr ⟨h.done_once, List.nodup_singleton d, ?_⟩
    rintro other hother _ hlast rfl
    exact hnew (List.mem_singleton.mp hlast ▸ hother)
  done_given := by
    rw [order_finish]
    exact List.forall_mem_append.mpr ⟨h.done_given, by simpa using hd⟩
  asked_once := h.asked_once
  asked_given := h.asked_given
  perCall hscoped := by
    rw [finish_of_answers hanswers hd, if_pos hscoped]
    exact h.perCall hscoped
  once hscoped := by
    obtain ⟨hbefore, hworld⟩ := h.once hscoped
    rw [order_finish, asked_finish, finish_of_answers hanswers hd, if_neg (by simp [hscoped]),
      hworld]
    refine ⟨List.forall_mem_append.mpr ⟨hbefore, by simpa using hasked hscoped⟩, ?_⟩
    rw [after, after, after, List.foldl_append]
  finished := by
    rw [order_finish, List.map_append, ← h.finished, finish_of_answers hanswers hd]
    rfl
  entered := by
    rw [order_finish, List.filterMap_append, finish_of_answers hanswers hd]
    cases hbound : env.boundBy options answers d with
    | error failure => simp [hbound, h.entered, Except.toOption]
    | ok binding =>
        simp [hbound, h.entered, Except.toOption, ResolverMap.addAll_append_singleton]

/-- A turn keeps the root types sound. -/
theorem Sound.turn (hanswers : env.Answers descriptors answers) {t : Turn}
    (hturn : env.turn options schema descriptors gathering t = some next) :
    Sound env options schema descriptors answers world next := by
  cases t with
  | start d =>
      obtain ⟨⟨hd, hasked, hdone⟩, hnext⟩ := Option.ite_none_right_eq_some.mp hturn
      obtain rfl := Option.some.inj hnext
      by_cases hscoped : options.requestScoped
      · rw [if_pos hscoped]
        exact h.finish hanswers hd hdone fun hother => by simp [hscoped] at hother
      · rw [if_neg hscoped]
        exact h.ask hd hasked (by simpa using hscoped)
  | answer d =>
      obtain ⟨⟨hasked, hdone⟩, hnext⟩ := Option.ite_none_right_eq_some.mp hturn
      obtain rfl := Option.some.inj hnext
      exact h.finish hanswers (h.asked_given d hasked) hdone fun _ => hasked

/-- Any turns keep the root types sound. -/
theorem Sound.gather (hanswers : env.Answers descriptors answers) {turns : List Turn}
    (hturns : env.gather options schema descriptors turns gathering = some next) :
    Sound env options schema descriptors answers world next := by
  induction turns generalizing gathering with
  | nil =>
      obtain rfl := Option.some.inj hturns
      exact h
  | cons t rest ih =>
      obtain ⟨middle, hturn, hrest⟩ := Option.bind_eq_some_iff.mp hturns
      exact ih (h.turn hanswers hturn) hrest

/-! ## Progress -/

/-- A root type that is not done can be done next. -/
theorem Sound.exists_turns {d : Descriptor} (hd : d ∈ descriptors) (hnew : d ∉ gathering.order) :
    ∃ turns next, env.gather options schema descriptors turns gathering = some next ∧
      next.order = gathering.order ++ [d] := by
  by_cases hscoped : options.requestScoped
  · have hasked : d ∉ gathering.asked := by simp [(h.perCall hscoped).1]
    refine ⟨[.start d], env.finish options schema d gathering, ?_, order_finish d gathering⟩
    rw [gather_singleton, Environment.turn, if_pos ⟨hd, hasked, hnew⟩, if_pos hscoped]
  · by_cases hasked : d ∈ gathering.asked
    · refine ⟨[.answer d], env.finish options schema d gathering, ?_, order_finish d gathering⟩
      rw [gather_singleton, Environment.turn, if_pos ⟨hasked, hnew⟩]
    · have hstart : env.gather options schema descriptors [.start d] gathering =
          some { gathering with asked := gathering.asked ++ [d] } := by
        rw [gather_singleton, Environment.turn, if_pos ⟨hd, hasked, hnew⟩, if_neg hscoped]
      refine ⟨[.start d] ++ [.answer d], env.finish options schema d
        { gathering with asked := gathering.asked ++ [d] }, ?_, order_finish d _⟩
      rw [gather_append hstart, gather_singleton, Environment.turn,
        if_pos ⟨List.mem_append_right _ (List.mem_singleton_self d), hnew⟩]

/-- Root types that are not done can be done next in any order. -/
theorem Sound.exists_order (hanswers : env.Answers descriptors answers) {more : List Descriptor}
    (hmore : ∀ d ∈ more, d ∈ descriptors) (hnodup : (gathering.order ++ more).Nodup) :
    ∃ turns next, env.gather options schema descriptors turns gathering = some next ∧
      next.order = gathering.order ++ more := by
  induction more generalizing gathering with
  | nil => exact ⟨[], gathering, rfl, (List.append_nil _).symm⟩
  | cons d rest ih =>
      obtain ⟨hd, hrest⟩ := List.forall_mem_cons.mp hmore
      have hnew : d ∉ gathering.order := fun hdone =>
        (List.nodup_append.mp hnodup).2.2 d hdone d List.mem_cons_self rfl
      obtain ⟨first, middle, hfirst, hmiddle⟩ := h.exists_turns hd hnew
      rw [List.append_cons, ← hmiddle] at hnodup
      obtain ⟨later, next, hlater, hnext⟩ := ih (h.gather hanswers hfirst) hrest hnodup
      refine ⟨first ++ later, next, (gather_append hfirst).trans hlater, ?_⟩
      rw [hnext, hmiddle, List.append_assoc]
      rfl

/-! ## Outcomes -/

omit h in
theorem lookup_map_self {α : Type} (f : Descriptor → α) (ds : List Descriptor) (d : Descriptor) :
    (ds.map fun e => (e, f e)).lookup d = if d ∈ ds then some (f d) else none := by
  induction ds with
  | nil => rfl
  | cons e rest ih =>
      rw [List.map_cons, List.lookup_cons]
      by_cases hsame : d = e
      · simp [hsame]
      · simp [beq_false_of_ne hsame, ih, hsame]

omit h in
theorem mapM_if_mem_eq_some {α : Type} {f : Descriptor → α} {ds done : List Descriptor}
    {outcomes : List α} :
    (ds.mapM fun d => if d ∈ done then some (f d) else none) = some outcomes ↔
      (∀ d ∈ ds, d ∈ done) ∧ outcomes = ds.map f := by
  induction ds generalizing outcomes with
  | nil => simp [eq_comm]
  | cons d rest ih =>
      rw [List.mapM_cons, List.forall_mem_cons]
      by_cases hd : d ∈ done
      · simp only [hd, if_true, Option.bind_eq_bind, Option.bind_some, Option.bind_eq_some_iff, ih,
          true_and, List.map_cons]
        constructor
        · rintro ⟨_, ⟨hrest, rfl⟩, houtcomes⟩
          exact ⟨hrest, (Option.some.inj houtcomes).symm⟩
        · rintro ⟨hrest, rfl⟩
          exact ⟨_, ⟨hrest, rfl⟩, rfl⟩
      · simp [hd]

/-- There is an outcome as soon as all root types are done. It is that of their bindings in the
order of the root types. -/
theorem Sound.outcome?_eq_some (hnodup : descriptors.Nodup)
    {outcome : Except Failure (ResolverMap σ κ)} :
    gathering.outcome? descriptors = some outcome ↔
      gathering.order.Perm descriptors ∧
        outcome = ((descriptors.map (env.boundBy options answers)).mapM id).map
          fun _ => gathering.resolvers := by
  have hall : (∀ d ∈ descriptors, d ∈ gathering.order) ↔ gathering.order.Perm descriptors := by
    rw [List.perm_ext_iff_of_nodup h.done_once hnodup]
    exact ⟨fun hmem d => ⟨h.done_given d, hmem d⟩, fun hmem d => (hmem d).mpr⟩
  simp only [outcome?, h.finished, lookup_map_self, ← hall]
  simp only [Option.bind_eq_bind, Option.bind_eq_some_iff, mapM_if_mem_eq_some]
  constructor
  · rintro ⟨_, ⟨hmem, rfl⟩, houtcome⟩
    exact ⟨hmem, (Option.some.inj houtcome).symm⟩
  · rintro ⟨hmem, rfl⟩
    exact ⟨_, ⟨hmem, rfl⟩, rfl⟩

theorem Sound.outcome?_isSome (hnodup : descriptors.Nodup) :
    (gathering.outcome? descriptors).isSome ↔ gathering.order.Perm descriptors := by
  rw [Option.isSome_iff_exists]
  simp only [h.outcome?_eq_some hnodup]
  exact ⟨fun ⟨_, hperm, _⟩ => hperm, fun hperm => ⟨_, hperm, rfl⟩⟩

end Gathering

namespace Environment

variable {env : Environment σ κ} {options : Options} {descriptors : List Descriptor}
  {answers : Descriptor → Except Failure (Collection σ)}

theorem boundBy_of_error {d : Descriptor} {failure : Failure}
    (hscoped : options.requestScoped = false) (h : answers d = .error failure) :
    env.boundBy options answers d = .error failure := by
  rw [boundBy, if_neg (by simp [hscoped]), h]
  rfl

variable (env options) in
theorem exists_boundBy {d : Descriptor}
    (h : options.requestScoped ∨ ∃ collection, answers d = .ok collection) :
    ∃ binding, env.boundBy options answers d = .ok binding := by
  by_cases hscoped : options.requestScoped
  · exact ⟨_, if_pos hscoped⟩
  · obtain ⟨collection, hanswer⟩ := h.resolve_left hscoped
    rw [boundBy, if_neg hscoped, hanswer]
    exact ⟨_, rfl⟩

/-- Of root types in a row the first that fails decides. -/
theorem mapM_boundBy_eq_error {before rest : List Descriptor} {d : Descriptor} {failure : Failure}
    (hscoped : options.requestScoped = false)
    (hbefore : ∀ e ∈ before, ∃ collection, answers e = .ok collection)
    (h : answers d = .error failure) :
    ((before ++ d :: rest).map (env.boundBy options answers)).mapM id = .error failure := by
  induction before with
  | nil =>
      rw [List.nil_append, List.map_cons, boundBy_of_error hscoped h]
      rfl
  | cons e others ih =>
      obtain ⟨he, hothers⟩ := List.forall_mem_cons.mp hbefore
      obtain ⟨binding, hbinding⟩ := exists_boundBy env options (.inr he)
      rw [List.cons_append, List.map_cons, List.mapM_cons, ih hothers]
      simp only [id, hbinding]
      rfl

variable (env) in
/-- Where no root type fails all of them are bound. -/
theorem exists_mapM_boundBy
    (h : options.requestScoped ∨ ∀ d ∈ descriptors, ∃ collection, answers d = .ok collection) :
    ∃ bindings, (descriptors.map (env.boundBy options answers)).mapM id = .ok bindings ∧
      descriptors.map (env.boundBy options answers) = bindings.map .ok := by
  have hall : ∀ d ∈ descriptors, ∃ binding, env.boundBy options answers d = .ok binding :=
    fun d hd => exists_boundBy env options (h.imp_right fun hanswered => hanswered d hd)
  obtain ⟨bindings, hbindings⟩ : ∃ bindings : List (RecordBinding σ κ),
      descriptors.map (env.boundBy options answers) = bindings.map .ok := by
    clear h
    induction descriptors with
    | nil => exact ⟨[], rfl⟩
    | cons d rest ih =>
        obtain ⟨⟨binding, hbinding⟩, hrest⟩ := List.forall_mem_cons.mp hall
        obtain ⟨bindings, hbindings⟩ := ih hrest
        exact ⟨binding :: bindings, by rw [List.map_cons, hbinding, hbindings, List.map_cons]⟩
  refine ⟨bindings, ?_, hbindings⟩
  rw [mapM_eq_ok, List.map_id, hbindings]

/-- What a further root type adds in front. -/
theorem bindAll_cons (d : Descriptor) (rest : List Descriptor) (world : σ) :
    ((env.bindAll options (d :: rest)).run world).run =
      ((Action.exec (env.bind options d) world).1 ::
        ((env.bindAll options rest).run (Action.exec (env.bind options d) world).2).run.1,
        ((env.bindAll options rest).run (Action.exec (env.bind options d) world).2).run.2) :=
  rfl

variable (options) in
/-- Root types that are bound one after the other come to what the answers of the store bind them
to. -/
theorem bindAll_of_answers (hanswers : env.Answers descriptors answers) (world : σ) :
    ((env.bindAll options descriptors).run world).run =
      (descriptors.map (env.boundBy options answers),
        if options.requestScoped then world else env.after world descriptors) := by
  induction descriptors generalizing world with
  | nil =>
      rw [after, List.foldl_nil, ite_self]
      rfl
  | cons d rest ih =>
      have hfirst := exec_bind_of_answers options hanswers List.mem_cons_self world
      rw [bindAll_cons, hfirst, ih fun e he => hanswers e (List.mem_cons_of_mem d he),
        List.map_cons]
      split <;> rfl

/-- The resolvers of a schema are made of what its root types are bound to. -/
theorem exec_resolvers_of_bindAll {schema : Schema} {world left : σ}
    {outcomes : List (Except Failure (RecordBinding σ κ))}
    (h : ((env.bindAll options descriptors).run world).run = (outcomes, left)) :
    Action.exec (env.resolvers options schema descriptors) world =
      ((outcomes.mapM id).map (ResolverMap.addAll schema.serving), left) := by
  have hlift : Action.exec (env.bindAll options descriptors : Action σ _) world =
      (.ok outcomes, left) := by
    change (Except.ok ((env.bindAll options descriptors).run world).run.1,
      ((env.bindAll options descriptors).run world).run.2) = _
    rw [h]
  unfold resolvers
  dsimp only
  rw [Action.exec_bind, hlift, Action.after_ok]
  cases outcomes.mapM id <;> rfl

/-- The resolvers of a schema, made one root type after the other. -/
theorem exec_resolvers_of_answers {schema : Schema} (hanswers : env.Answers descriptors answers)
    (world : σ) :
    Action.exec (env.resolvers options schema descriptors) world =
      (((descriptors.map (env.boundBy options answers)).mapM id).map
          (ResolverMap.addAll schema.serving),
        if options.requestScoped then world else env.after world descriptors) :=
  exec_resolvers_of_bindAll (bindAll_of_answers options hanswers world)

theorem descriptors_of_map_boundBy {bindings : List (RecordBinding σ κ)}
    (h : descriptors.map (env.boundBy options answers) = bindings.map .ok) :
    bindings.map (·.handle.descriptor) = descriptors := by
  induction descriptors generalizing bindings with
  | nil =>
      obtain rfl := List.map_eq_nil_iff.mp h.symm
      rfl
  | cons d rest ih =>
      cases bindings with
      | nil => cases h
      | cons binding more =>
          obtain ⟨hfirst, hmore⟩ := List.cons.inj h
          rw [List.map_cons, descriptor_of_boundBy hfirst, ih hmore]

/-- Bindings are told from their root types. -/
theorem filterMap_boundBy {bindings : List (RecordBinding σ κ)}
    (h : ∀ binding ∈ bindings, env.boundBy options answers binding.handle.descriptor =
      .ok binding) :
    (bindings.map (·.handle.descriptor)).filterMap
      (fun d => (env.boundBy options answers d).toOption) = bindings := by
  induction bindings with
  | nil => rfl
  | cons binding rest ih =>
      obtain ⟨hbinding, hrest⟩ := List.forall_mem_cons.mp h
      rw [List.map_cons, List.filterMap_cons, hbinding, ih hrest]
      rfl

/-- In whatever order bindings are put, their root types give that order. -/
theorem filterMap_boundBy_of_perm {bindings order : List (RecordBinding σ κ)}
    (h : descriptors.map (env.boundBy options answers) = bindings.map .ok)
    (horder : order.Perm bindings) :
    (order.map (·.handle.descriptor)).filterMap
      (fun d => (env.boundBy options answers d).toOption) = order := by
  refine filterMap_boundBy fun binding hbinding => ?_
  have hmem : (.ok binding : Except Failure (RecordBinding σ κ)) ∈ bindings.map .ok :=
    List.mem_map_of_mem (horder.mem_iff.mp hbinding)
  rw [← h] at hmem
  obtain ⟨d, -, hd⟩ := List.mem_map.mp hmem
  rwa [descriptor_of_boundBy hd]

theorem filterMap_of_mapM {bindings : List (RecordBinding σ κ)}
    (h : (descriptors.map (env.boundBy options answers)).mapM id = .ok bindings) :
    descriptors.filterMap (fun d => (env.boundBy options answers d).toOption) = bindings := by
  rw [mapM_eq_ok, List.map_id] at h
  have hall := congrArg (List.filterMap Except.toOption) h
  rw [List.filterMap_map, List.filterMap_map] at hall
  simpa [Function.comp_def, Except.toOption] using hall

/-! ## All turns -/

section Turns

variable {schema : Schema} {world : σ} {gathering : Gathering σ κ}
  (hanswers : env.Answers descriptors answers)

include hanswers

theorem Reaches.sound (h : env.Reaches options schema descriptors world gathering) :
    gathering.Sound env options schema descriptors answers world := by
  obtain ⟨turns, hturns⟩ := h
  exact Gathering.sound_initial.gather hanswers hturns

variable (hnodup : descriptors.Nodup)

include hnodup

variable (options schema world) in
/-- Root types can be done in every order. -/
theorem exists_reaches {order : List Descriptor} (h : order.Perm descriptors) :
    ∃ gathering, env.Reaches options schema descriptors world gathering ∧
      gathering.order = order ∧ (gathering.outcome? descriptors).isSome := by
  have hsound : Gathering.Sound env options schema descriptors answers world
      (.initial schema world) := Gathering.sound_initial
  obtain ⟨turns, next, hturns, horder⟩ :=
    hsound.exists_order hanswers (fun d hd => h.mem_iff.mp hd) (h.nodup_iff.mpr hnodup)
  have horder : next.order = order := horder
  refine ⟨next, ⟨turns, hturns⟩, horder, ?_⟩
  exact ((hsound.gather hanswers hturns).outcome?_isSome hnodup).mpr (horder ▸ h)

/-- Whatever turns have been taken, root types can be done in the end. -/
theorem Reaches.exists_outcome (h : env.Reaches options schema descriptors world gathering) :
    ∃ more done, env.gather options schema descriptors more gathering = some done ∧
      (done.outcome? descriptors).isSome := by
  have hsound := h.sound hanswers
  have hdone : (gathering.order ++
      descriptors.filter fun d => d ∉ gathering.order).Perm descriptors := by
    rw [List.perm_ext_iff_of_nodup _ hnodup]
    · intro d
      simp only [List.mem_append, List.mem_filter, decide_eq_true_eq]
      exact ⟨fun hmem => hmem.elim (hsound.done_given d) (·.1), fun hd => by tauto⟩
    · refine List.nodup_append.mpr ⟨hsound.done_once, hnodup.filter _, ?_⟩
      rintro d hd _ hnew rfl
      exact absurd hd (by simpa using (List.mem_filter.mp hnew).2)
  obtain ⟨more, done, hmore, horder⟩ := hsound.exists_order hanswers
    (fun d hd => (List.mem_filter.mp hd).1) (hdone.nodup_iff.mpr hnodup)
  exact ⟨more, done, hmore,
    ((hsound.gather hanswers hmore).outcome?_isSome hnodup).mpr (horder ▸ hdone)⟩

section Bound

variable {bindings : List (RecordBinding σ κ)}
  (hbindings : descriptors.map (env.boundBy options answers) = bindings.map .ok)

include hbindings

variable (schema world) in
/-- Root types can be done so that their bindings are added in a given order. -/
theorem exists_reaches_addAll {order : List (RecordBinding σ κ)} (horder : order.Perm bindings) :
    ∃ gathering, env.Reaches options schema descriptors world gathering ∧
      (gathering.outcome? descriptors).isSome ∧
      gathering.resolvers = ResolverMap.addAll schema.serving order := by
  have hperm := horder.map fun binding : RecordBinding σ κ => binding.handle.descriptor
  rw [descriptors_of_map_boundBy hbindings] at hperm
  obtain ⟨gathering, hreaches, hown, hdone⟩ :=
    exists_reaches options schema world hanswers hnodup hperm
  refine ⟨gathering, hreaches, hdone, ?_⟩
  rw [(hreaches.sound hanswers).entered, hown, filterMap_boundBy_of_perm hbindings horder]

/-- The resolvers of root types that are done are those of their bindings in some order. -/
theorem Reaches.exists_addAll (h : env.Reaches options schema descriptors world gathering)
    (hdone : (gathering.outcome? descriptors).isSome) :
    ∃ order : List (RecordBinding σ κ), order.Perm bindings ∧
      gathering.resolvers = ResolverMap.addAll schema.serving order := by
  have hsound := h.sound hanswers
  refine ⟨_, ?_, hsound.entered⟩
  have hperm := ((hsound.outcome?_isSome hnodup).mp hdone).filterMap fun d =>
    (env.boundBy options answers d).toOption
  have hall := filterMap_boundBy_of_perm hbindings (.refl bindings)
  rw [descriptors_of_map_boundBy hbindings] at hall
  rwa [hall] at hperm

end Bound

/-- Where no root type fails, the order can be told from the resolvers just if there are several
root types and one of them takes a type that serves the schema for its operations. -/
theorem same_resolvers_iff (hnames : (descriptors.map (·.typeName)).Nodup)
    (hfree : options.requestScoped ∨
      ∀ d ∈ descriptors, ∃ collection, answers d = .ok collection) :
    (∀ first second : Gathering σ κ,
        env.Reaches options schema descriptors world first →
        env.Reaches options schema descriptors world second →
        (first.outcome? descriptors).isSome → (second.outcome? descriptors).isSome →
        ResolverMap.Same first.resolvers second.resolvers) ↔
      descriptors.length ≤ 1 ∨
        ∀ d ∈ descriptors, ResolverMap.Apart schema.serving d.typeName := by
  obtain ⟨bindings, -, hbindings⟩ := exists_mapM_boundBy env hfree
  have hdescriptors := descriptors_of_map_boundBy hbindings
  have hbindingNames : (bindings.map (·.typeName)).Nodup := by
    rwa [← hdescriptors, List.map_map] at hnames
  have happart : (∀ binding ∈ bindings, ResolverMap.Apart schema.serving binding.typeName) ↔
      ∀ d ∈ descriptors, ResolverMap.Apart schema.serving d.typeName := by
    rw [← hdescriptors]
    simp [RecordBinding.typeName]
  have hlength : bindings.length = descriptors.length := by
    rw [← hdescriptors, List.length_map]
  rw [← happart, ← hlength, ← ResolverMap.same_addAll_iff schema.serving hbindingNames]
  constructor
  · intro h first second hfirst hsecond
    obtain ⟨one, hone, hdoneOne, hresolversOne⟩ :=
      exists_reaches_addAll schema world hanswers hnodup hbindings hfirst
    obtain ⟨other, hother, hdoneOther, hresolversOther⟩ :=
      exists_reaches_addAll schema world hanswers hnodup hbindings hsecond
    have hsame := h one other hone hother hdoneOne hdoneOther
    rwa [hresolversOne, hresolversOther] at hsame
  · intro h first second hfirst hsecond hdoneFirst hdoneSecond
    obtain ⟨one, hone, hresolversOne⟩ :=
      hfirst.exists_addAll hanswers hnodup hbindings hdoneFirst
    obtain ⟨other, hother, hresolversOther⟩ :=
      hsecond.exists_addAll hanswers hnodup hbindings hdoneSecond
    rw [hresolversOne, hresolversOther]
    exact h one other hone hother

end Turns

end Environment

/-! ## Root types of an assembled schema -/

/-- The root types of an assembled schema have different names. -/
theorem nodup_assembled {sources : List Source} {roots : List String} {options : Options}
    {assembled : Assembled} (h : Assembly.assemble sources roots options = .ok assembled) :
    (assembled.descriptors.map (·.typeName)).Nodup := by
  obtain ⟨working, -, hfrom⟩ := bind_eq_ok.mp h
  have hroots := (assembleFrom_eq_ok (s := ⟨working, options, roots⟩) hfrom).1
  rw [typeNames_descriptors (s := ⟨working, options, roots⟩) hroots]
  exact nodup_eraseDups roots

/-- The root types of an assembled schema can be bound side by side. Whatever turns they take, they
are all done in the end, each in every place of the order. By then the store has been asked once for
each of them, or not at all if calls ask it. The first of them that fails decides, and where none
fails the order can be told from the resolvers just if there are several and one of them takes a
type that serves the schema for its own operations. What is bound one after the other is one of
these. -/
theorem bound_side_by_side {sources : List Source} {roots : List String} {options : Options}
    {assembled : Assembled} (hbuilt : Assembly.assemble sources roots options = .ok assembled)
    (schema : Schema) {env : Environment σ κ}
    {answers : Descriptor → Except Failure (Collection σ)}
    (hanswers : env.Answers assembled.descriptors answers) (world : σ) :
    (∀ gathering, env.Reaches options schema assembled.descriptors world gathering →
      (∃ more done, env.gather options schema assembled.descriptors more gathering = some done ∧
        (done.outcome? assembled.descriptors).isSome) ∧
      ∀ outcome, gathering.outcome? assembled.descriptors = some outcome →
        gathering.order.Perm assembled.descriptors ∧
        (options.requestScoped → gathering.asked = [] ∧ gathering.world = world) ∧
        (options.requestScoped = false → gathering.asked.Perm assembled.descriptors ∧
          gathering.world = env.after world gathering.order) ∧
        (∀ before d rest failure, assembled.descriptors = before ++ d :: rest →
          options.requestScoped = false → (∀ e ∈ before, ∃ collection, answers e = .ok collection) →
          answers d = .error failure → outcome = .error failure) ∧
        ((options.requestScoped ∨
            ∀ d ∈ assembled.descriptors, ∃ collection, answers d = .ok collection) →
          outcome = .ok gathering.resolvers)) ∧
    (∀ order, order.Perm assembled.descriptors →
      ∃ gathering, env.Reaches options schema assembled.descriptors world gathering ∧
        gathering.order = order ∧ (gathering.outcome? assembled.descriptors).isSome) ∧
    ((options.requestScoped ∨
        ∀ d ∈ assembled.descriptors, ∃ collection, answers d = .ok collection) →
      ((∀ first second : Gathering σ κ,
          env.Reaches options schema assembled.descriptors world first →
          env.Reaches options schema assembled.descriptors world second →
          (first.outcome? assembled.descriptors).isSome →
          (second.outcome? assembled.descriptors).isSome →
          ResolverMap.Same first.resolvers second.resolvers) ↔
        assembled.descriptors.length ≤ 1 ∨
          ∀ d ∈ assembled.descriptors, ResolverMap.Apart schema.serving d.typeName)) ∧
    ∃ gathering outcome,
      env.Reaches options schema assembled.descriptors world gathering ∧
        gathering.order = assembled.descriptors ∧
        gathering.outcome? assembled.descriptors = some outcome ∧
        Action.exec (env.resolvers options schema assembled.descriptors) world =
          (outcome, gathering.world) := by
  have hnames := nodup_assembled hbuilt
  have hnodup : assembled.descriptors.Nodup := hnames.of_map
  refine ⟨fun gathering hreaches => ⟨hreaches.exists_outcome hanswers hnodup, ?_⟩,
    fun order horder => Environment.exists_reaches options schema world hanswers hnodup horder,
    Environment.same_resolvers_iff hanswers hnodup hnames, ?_⟩
  · intro outcome houtcome
    have hsound := hreaches.sound hanswers
    obtain ⟨hperm, rfl⟩ := (hsound.outcome?_eq_some hnodup).mp houtcome
    refine ⟨hperm, hsound.perCall, fun hscoped => ?_, ?_, fun hfree => ?_⟩
    · obtain ⟨hasked, hworld⟩ := hsound.once hscoped
      refine ⟨(List.perm_ext_iff_of_nodup hsound.asked_once hnodup).mpr fun d => ?_, hworld⟩
      exact ⟨hsound.asked_given d, fun hd => hasked d (hperm.mem_iff.mpr hd)⟩
    · intro before d rest failure hsplit hscoped hbefore hfailure
      rw [hsplit, Environment.mapM_boundBy_eq_error hscoped hbefore hfailure]
      rfl
    · obtain ⟨bindings, hbindings, -⟩ := Environment.exists_mapM_boundBy env hfree
      rw [hbindings]
      rfl
  · obtain ⟨gathering, hreaches, horder, hdone⟩ :=
      Environment.exists_reaches options schema world hanswers hnodup (.refl _)
    obtain ⟨outcome, houtcome⟩ := Option.isSome_iff_exists.mp hdone
    have hsound := hreaches.sound hanswers
    refine ⟨gathering, outcome, hreaches, horder, houtcome, ?_⟩
    obtain ⟨-, rfl⟩ := (hsound.outcome?_eq_some hnodup).mp houtcome
    rw [Environment.exec_resolvers_of_answers hanswers, hsound.entered, horder, Prod.mk.injEq]
    constructor
    · cases hbound : (assembled.descriptors.map (env.boundBy options answers)).mapM id with
      | error failure => rfl
      | ok bindings => rw [Except.map, Except.map, Environment.filterMap_of_mapM hbound]
    · split
      · next hscoped => exact (hsound.perCall hscoped).2.symm
      · next hscoped => rw [(hsound.once (by simpa using hscoped)).2, horder]

/-! ## Widgets and gadgets -/

/-- Shelves are given or refused by their names alone. -/
theorem Cabinet.exec_store (setup : Setup) (request : CollectionRequest κ) (world : Cabinet κ) :
    (Action.exec (Cabinet.store setup request) world).1 =
      if setup.rejected.contains request.name
      then .error (.refused ("no " ++ request.name ++ " store"))
      else .ok (Cabinet.collection request.name) := by
  unfold Cabinet.store
  simp only [Action.exec_bind, Action.exec_modify, Action.after_ok]
  split
  · rfl
  · simp only [Action.exec_bind, Action.exec_get, Action.after_ok]
    split <;> rfl

theorem Cabinet.answers_by_name (setup : Setup) (context : κ) (now : Action (Cabinet κ) Datum)
    (descriptors : List Descriptor) :
    Environment.Answers ⟨Cabinet.store setup, context, now⟩ descriptors fun d =>
      if setup.rejected.contains d.typeName
      then .error (.refused ("no " ++ d.typeName ++ " store"))
      else .ok (Cabinet.collection d.typeName) :=
  fun _ _ world => Cabinet.exec_store setup _ world

/-- Shelves that are refused for widgets and gadgets. -/
def rejecting : Environment (Cabinet Unit) Unit :=
  ⟨Cabinet.store ⟨[], [], ["Widget", "Gadget"]⟩, (), Cabinet.tick 0⟩

/-- Two root types that are bound side by side fail as the first of them does, although the second
is done first. -/
theorem bound_side_by_side_gadgets :
    ∃ assembled, Assembly.assemble [.document (widgetsAnd "Gadget").working]
        (widgetsAnd "Gadget").roots (widgetsAnd "Gadget").options = .ok assembled ∧
      (∃ answers, rejecting.Answers assembled.descriptors answers) ∧
      ∀ schema : Schema, ∃ gathering,
        rejecting.Reaches (widgetsAnd "Gadget").options schema assembled.descriptors {} gathering ∧
          gathering.order =
            [flatDescriptor "Gadget" "label", flatDescriptor "Widget" "name"] ∧
          gathering.outcome? assembled.descriptors =
            some (.error (.refused "no Widget store")) := by
  have hbuilt := assemble_widgetsAnd (show "Gadget" ∈ ["Gadget", "widget"] by decide)
  have hanswers := Cabinet.answers_by_name ⟨[], [], ["Widget", "Gadget"]⟩ () (Cabinet.tick 0)
    [flatDescriptor "Widget" "name", flatDescriptor "Gadget" "label"]
  refine ⟨_, hbuilt, ⟨_, hanswers⟩, fun schema => ?_⟩
  obtain ⟨hall, horders, -, -⟩ := bound_side_by_side hbuilt schema hanswers {}
  obtain ⟨gathering, hreaches, horder, hdone⟩ :=
    horders [flatDescriptor "Gadget" "label", flatDescriptor "Widget" "name"] (.swap _ _ _)
  obtain ⟨outcome, houtcome⟩ := Option.isSome_iff_exists.mp hdone
  obtain ⟨-, -, -, hfirst, -⟩ := (hall gathering hreaches).2 outcome houtcome
  obtain rfl := hfirst [] (flatDescriptor "Widget" "name") [flatDescriptor "Gadget" "label"] _ rfl
    rfl (by simp) rfl
  exact ⟨gathering, hreaches, horder, houtcome⟩

/-! ## Widgets in the way of gadgets -/

/-- Widgets and gadgets with a schema definition by which the operations of widgets serve it. -/
def overtaken : Sources :=
  { widgetsAnd "Gadget" with
    working := Document.ofDefinitions
      (.schema ⟨none, [], [⟨.query, "WidgetQuery"⟩]⟩ :: (widgetsAnd "Gadget").working.definitions) }

def overtakenDescriptors : List Descriptor :=
  [flatDescriptor "Widget" "name", flatDescriptor "Gadget" "label"]

def overtakenBasis : Basis :=
  Assembly.rootBasis overtaken.working overtaken.options overtakenDescriptors

def overtakenFragments : List (List Definition) :=
  overtakenDescriptors.map fun d =>
    Fragment.ofPairs overtakenBasis d [⟨d.typeName, .create⟩, ⟨d.typeName, .update⟩]

def overtakenDocument : Document :=
  Assembly.completeSchema (Document.ofDefinitions (Merge.mergeDefinitions
    (mergedPolicies overtaken)
    ((mergedDocuments overtaken overtakenFragments).map (·.definitions))))

theorem describe_overtaken : overtaken.roots.eraseDups.mapM
    (Assembly.describeRoot overtaken.working overtaken.options.selector) =
      .ok overtakenDescriptors := rfl

theorem assemble_overtaken :
    Assembly.assemble [.document overtaken.working] overtaken.roots overtaken.options =
      .ok ⟨overtakenDocument, overtakenDescriptors⟩ := by
  have hderivations : Fragment.Derivations overtakenBasis overtakenDescriptors []
      (overtakenDescriptors.map fun d => [⟨d.typeName, .create⟩, ⟨d.typeName, .update⟩]) :=
    .cons (by decide) rfl (by decide) (.cons (by decide) rfl (by decide) (.nil _))
  exact (assemble_of_derivations rfl describe_overtaken (by decide) (by decide) rfl rfl
    hderivations).2

theorem build_overtaken : ∃ schema, Schema.build overtakenDocument = .ok schema ∧
    schema.serving = ⟨"WidgetQuery", "Mutation"⟩ := by
  obtain ⟨schema, hschema, hserving⟩ := exists_ok_of_any (x := Schema.build overtakenDocument)
    (p := fun schema => schema.serving == ⟨"WidgetQuery", "Mutation"⟩) (by decide +kernel)
  exact ⟨schema, hschema, beq_iff_eq.mp hserving⟩

/-- Where widgets take the type of queries for their own, gadgets have an entry point on it if they
are bound after the widgets, and none if they are bound before them. -/
theorem overtaken_by_widgets :
    ∃ assembled schema, Assembly.assemble [.document overtaken.working] overtaken.roots
        overtaken.options = .ok assembled ∧
      Schema.build assembled.document = .ok schema ∧
      ∃ first second : Gathering (Cabinet Unit) Unit,
        emptyShelves.Reaches overtaken.options schema assembled.descriptors {} first ∧
        emptyShelves.Reaches overtaken.options schema assembled.descriptors {} second ∧
        first.outcome? assembled.descriptors = some (.ok first.resolvers) ∧
        second.outcome? assembled.descriptors = some (.ok second.resolvers) ∧
        first.resolvers.find? "WidgetQuery" "gadget" = some .entryPoint ∧
        second.resolvers.find? "WidgetQuery" "gadget" = none := by
  obtain ⟨schema, hschema, hserving⟩ := build_overtaken
  have hanswers := Cabinet.answers_by_name ⟨[], [], []⟩ () (Cabinet.tick 0) overtakenDescriptors
  have hnodup : overtakenDescriptors.Nodup := by decide
  have hreach (order : List Descriptor) (horder : order.Perm overtakenDescriptors) :
      ∃ gathering : Gathering (Cabinet Unit) Unit,
        emptyShelves.Reaches overtaken.options schema overtakenDescriptors {} gathering ∧
        gathering.outcome? overtakenDescriptors = some (.ok gathering.resolvers) ∧
        gathering.resolvers = ResolverMap.addAll ⟨"WidgetQuery", "Mutation"⟩
          (order.filterMap fun d => (emptyShelves.boundBy overtaken.options
            (fun d => .ok (Cabinet.collection d.typeName)) d).toOption) := by
    obtain ⟨gathering, hreaches, hown, -⟩ := Environment.exists_reaches overtaken.options
      schema {} hanswers hnodup horder
    have hsound := hreaches.sound hanswers
    refine ⟨gathering, hreaches, (hsound.outcome?_eq_some hnodup).mpr ⟨hown ▸ horder, rfl⟩, ?_⟩
    rw [hsound.entered, hown, hserving]
    rfl
  obtain ⟨first, hfirst, hdone, hresolvers⟩ := hreach overtakenDescriptors (.refl _)
  obtain ⟨second, hsecond, hdoneSecond, hresolversSecond⟩ :=
    hreach [flatDescriptor "Gadget" "label", flatDescriptor "Widget" "name"] (.swap _ _ _)
  refine ⟨_, schema, assemble_overtaken, hschema, first, second, hfirst, hsecond, hdone,
    hdoneSecond, ?_, ?_⟩
  · rw [hresolvers]
    rfl
  · rw [hresolversSecond]
    rfl

end RecordApi
