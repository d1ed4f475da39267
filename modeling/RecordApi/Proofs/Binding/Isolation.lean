import RecordApi.Proofs.Binding.CallLogs

/-!
# Calls in different contexts

Where each call acquires its collection with its own context, and the store and its collections keep
to what belongs to a context, what calls in one context come to does not depend on the calls in
others, and not on their contexts.
-/

namespace RecordApi

open RecordApi.Language

variable {σ κ ν α β : Type}

/-! ## Keeping to a context -/

/-- Whether an action depends on what can be seen in a context alone, and changes nothing that can
be seen in others. -/
structure Confined (see : κ → σ → ν) (context : κ) (action : Action σ α) : Prop where
  own : ∀ world other, see context world = see context other →
    (Action.exec action world).1 = (Action.exec action other).1 ∧
      see context (Action.exec action world).2 = see context (Action.exec action other).2
  others : ∀ other, other ≠ context → ∀ world,
    see other (Action.exec action world).2 = see other world

namespace Confined

variable {see : κ → σ → ν} {context : κ}

theorem pure (a : α) : Confined see context (Pure.pure a : Action σ α) :=
  ⟨fun _ _ h => ⟨rfl, h⟩, fun _ _ _ => rfl⟩

theorem throw (failure : Failure) :
    Confined see context (MonadExcept.throw failure : Action σ α) :=
  ⟨fun _ _ h => ⟨rfl, h⟩, fun _ _ _ => rfl⟩

/-- Actions in a row keep to a context if each of them does that is reached. -/
theorem bind {action : Action σ α} {rest : α → Action σ β} (h : Confined see context action)
    (hrest : ∀ a world left, Action.exec action world = (.ok a, left) →
      Confined see context (rest a)) :
    Confined see context (action >>= rest) := by
  constructor
  · intro world other hsame
    obtain ⟨houtcome, hleft⟩ := h.own world other hsame
    rw [Action.exec_bind, Action.exec_bind]
    rcases hfirst : Action.exec action world with ⟨outcome, left⟩
    rcases hsecond : Action.exec action other with ⟨outcome', left'⟩
    rw [hfirst, hsecond] at houtcome hleft
    obtain rfl : outcome = outcome' := houtcome
    cases outcome with
    | error failure => exact ⟨rfl, hleft⟩
    | ok a => exact (hrest a world left hfirst).own left left' hleft
  · intro other hother world
    rw [Action.exec_bind]
    have hkept := h.others other hother world
    rcases hfirst : Action.exec action world with ⟨outcome, left⟩
    rw [hfirst] at hkept
    cases outcome with
    | error failure => exact hkept
    | ok a => exact ((hrest a world left hfirst).others other hother left).trans hkept

end Confined

/-- Whether all operations of a collection keep to a context. -/
structure Collection.Confined (see : κ → σ → ν) (context : κ) (collection : Collection σ) :
    Prop where
  find : ∀ id, RecordApi.Confined see context (collection.find id)
  list : ∀ options, RecordApi.Confined see context (collection.list options)
  create : ∀ id data, RecordApi.Confined see context (collection.create id data)
  update : ∀ id data, RecordApi.Confined see context (collection.update id data)
  upsert : ∀ id data, RecordApi.Confined see context (collection.upsert id data)
  delete : ∀ id, RecordApi.Confined see context (collection.delete id)

/-- Whether requests to a store and the collections that it gives keep to the context of the
request, and looks at the clock to any. -/
structure Environment.Isolates (env : Environment σ κ) (see : κ → σ → ν) : Prop where
  store : ∀ request, Confined see request.context (env.store request)
  collections : ∀ request world collection left,
    Action.exec (env.store request) world = (.ok collection, left) →
      collection.Confined see request.context
  now : ∀ context, Confined see context env.now

section Operations

variable {see : κ → σ → ν} {context : κ} {binding : RecordBinding σ κ}
  (hnow : Confined see context binding.now)

include hnow

theorem RecordBinding.confined_stamped (stamp : Datum → Datum.Entries → Datum.Entries)
    (data : Datum.Entries) : Confined see context (binding.stamped stamp data) := by
  unfold stamped
  split
  · rw [map_eq_pure_bind]
    exact hnow.bind fun _ _ _ _ => .pure _
  · exact .pure data

theorem RecordBinding.confined_operate {collection : Collection σ}
    (h : collection.Confined see context) (arguments : Datum.Entries) (op : Operation) :
    Confined see context (binding.operate collection arguments op) := by
  cases op with
  | find => exact h.find _
  | list => exact h.list _
  | create => exact (confined_stamped hnow _ _).bind fun _ _ _ _ => h.create _ _
  | update =>
      refine (h.find _).bind fun found _ _ _ => ?_
      dsimp only
      split
      · exact .throw _
      · exact (confined_stamped hnow _ _).bind fun _ _ _ _ => h.update _ _
  | upsert =>
      simp only [operate]
      split
      · exact hnow.bind fun _ _ _ _ => (h.find _).bind fun _ _ _ _ => h.upsert _ _
      · exact h.upsert _ _
  | delete => exact h.delete _

end Operations

/-! ## Calls in a context -/

/-- The context of a call: that of its request, or that in which the service was built. -/
def Invocation.contextIn (env : Environment σ κ) (i : Invocation κ) : κ :=
  i.request.getD env.context

namespace Service

variable {env : Environment σ κ} {sources : List Source} {roots : List String} {options : Options}
  {world left : σ} {service : Service σ κ} {see : κ → σ → ν}

/-- The calls in a context. -/
def callsIn [DecidableEq κ] (env : Environment σ κ) (context : κ) (calls : List (Invocation κ)) :
    List (Invocation κ) :=
  calls.filter fun i => i.contextIn env = context

/-- What the calls in a context come to among others. -/
def outcomesIn [DecidableEq κ] (env : Environment σ κ) (service : Service σ κ) (context : κ)
    (calls : List (Invocation κ)) (world : σ) : List (Except Failure Datum) :=
  ((calls.zip (service.invokeAll calls world).1).filter
    fun entry => entry.1.contextIn env = context).map (·.2)

variable (hbuilt : Action.exec (build env sources roots options) world = (.ok service, left))
  (hscoped : options.requestScoped) (hisolates : env.Isolates see)

include hbuilt hscoped hisolates

/-- A call keeps to its context. -/
theorem confined_invoke (i : Invocation κ) :
    Confined see (i.contextIn env) (service.invoke i) := by
  cases hop : service.operationOf? i with
  | none =>
      obtain ⟨outcome, hplain, -⟩ := exec_invoke_of_none hop
      have hown (before : σ) : Action.exec (service.invoke i) before = (outcome, before) :=
        hplain i.request before
      constructor
      · intro before other hsame
        rw [hown, hown]
        exact ⟨rfl, hsame⟩
      · intro other _ before
        rw [hown]
  | some found =>
      obtain ⟨binding, op⟩ := found
      obtain ⟨hopens, -⟩ := calls_of_operation hbuilt hop
      have hopened : binding.handle.opened = none := by
        simpa [hscoped] using hopens.opened
      have hcollection : binding.handle.collection i.request = env.store
          ⟨binding.handle.descriptor.idName, binding.typeName, i.contextIn env⟩ := by
        rw [Handle.collection, hopened, ← hopens.store, Invocation.contextIn, ← hopens.context]
        rfl
      rw [invoke_of_operation hop, RecordBinding.run_eq_bind, hcollection]
      have hstore := hisolates.store
        ⟨binding.handle.descriptor.idName, binding.typeName, i.contextIn env⟩
      refine hstore.bind fun collection before after hanswer => ?_
      exact RecordBinding.confined_operate (hopens.now ▸ hisolates.now _)
        (hisolates.collections _ _ _ _ hanswer) i.arguments op

/-- Calls in a context come to what they come to without the calls in others. -/
theorem outcomesIn_eq [DecidableEq κ] (context : κ) (calls : List (Invocation κ))
    {before other : σ} (hsame : see context before = see context other) :
    service.outcomesIn env context calls before =
      (service.invokeAll (callsIn env context calls) other).1 := by
  induction calls generalizing before other with
  | nil => rfl
  | cons i rest ih =>
      have hconfined := confined_invoke hbuilt hscoped hisolates i
      simp only [outcomesIn, callsIn, invokeAll, List.zip_cons_cons, List.filter_cons]
      by_cases hcontext : i.contextIn env = context
      · subst hcontext
        obtain ⟨houtcome, hleft⟩ := hconfined.own before other hsame
        simp only [decide_true, if_true, List.map_cons, invokeAll, houtcome]
        exact congrArg _ (ih hleft)
      · have hkept := hconfined.others context (Ne.symm hcontext) before
        simp only [hcontext, decide_false, Bool.false_eq_true, if_false]
        exact ih (hkept.trans hsame)

end Service

/-- A service that is built with notes is the one that is built without them. When it is built, each
root type is asked for once with the context at hand and then touched by all its calls; or none is
asked for, and each call of an operation asks once with its own context and touches what it is
given. In the first case contexts of calls do not matter, and in the second the calls in a context
come to the same among any others, as far as the store and its collections keep contexts apart. -/
theorem service_logs [DecidableEq κ] {env : Environment σ κ} {sources : List Source}
    {roots : List String} {options : Options} {world left : σ} {service : Service σ κ}
    (hbuilt : Action.exec (Service.build env sources roots options) world =
      (.ok service, left)) :
    Action.exec (Service.build env.noted sources roots options) ⟨world, []⟩ =
      (.ok service.noted,
        ⟨left, if options.requestScoped then [] else env.askedFor 0 service.descriptors⟩) ∧
    (∀ (calls : List (Invocation κ)) (before : Noted σ κ), ∃ segments,
      service.noted.invokeAll calls before =
        ((service.invokeAll calls before.world).1,
          ⟨(service.invokeAll calls before.world).2, before.notes ++ segments.flatten⟩) ∧
      Logged env options service before.requests calls (service.invokeAll calls before.world).1
        segments) ∧
    (options.requestScoped = false → ∀ (i : Invocation κ) (request : Option κ) (before : σ),
      Action.exec (service.invoke { i with request := request }) before =
        Action.exec (service.invoke i) before) ∧
    (options.requestScoped → ∀ {ν : Type} (see : κ → σ → ν), env.Isolates see →
      ∀ (context : κ) (calls others : List (Invocation κ)) (before other : σ),
        see context before = see context other →
        Service.callsIn env context calls = Service.callsIn env context others →
        service.outcomesIn env context calls before =
          service.outcomesIn env context others other) := by
  refine ⟨Service.exec_build_noted hbuilt, Service.invokeAll_noted hbuilt,
    Service.exec_invoke_of_once hbuilt, ?_⟩
  intro hscoped ν see hisolates context calls others before other hsame hcalls
  rw [Service.outcomesIn_eq hbuilt hscoped hisolates context calls hsame, hcalls,
    Service.outcomesIn_eq hbuilt hscoped hisolates context others rfl]

/-! ## A store of tallies -/

/-- Counts what is written in each context. -/
def tallies : Environment (String → Int) String where
  store request :=
    let read : Action (String → Int) Datum := return .int ((← get) request.context)
    let write : Action (String → Int) Datum := do
      modify fun world => Function.update world request.context (world request.context + 1)
      read
    pure ⟨fun _ => read, fun _ => read, fun _ _ => write, fun _ _ => write, fun _ _ => write,
      fun _ => write⟩
  context := "built"
  now := pure .null

theorem isolates_tallies :
    tallies.Isolates fun context (world : String → Int) => world context where
  store _ := .pure _
  collections := by
    intro request world collection left hanswer
    obtain rfl := Except.ok.inj (Prod.mk.inj hanswer).1
    have hread : Confined (fun context (world : String → Int) => world context) request.context
        (do return .int ((← get) request.context) : Action (String → Int) Datum) :=
      ⟨fun world other hsame =>
        ⟨congrArg (fun n : Int => (Except.ok (.int n) : Except Failure Datum)) hsame, hsame⟩,
        fun _ _ _ => rfl⟩
    have hcount : Confined (fun context (world : String → Int) => world context) request.context
        (modify fun world => Function.update world request.context (world request.context + 1) :
          Action (String → Int) Unit) := by
      refine ⟨fun world other hsame => ⟨rfl, ?_⟩, fun other hother world => ?_⟩
      · simpa [Action.exec_modify] using hsame
      · simp [Action.exec_modify, Function.update_of_ne hother]
    have hwrite := hcount.bind fun _ _ _ _ => hread
    exact ⟨fun _ => hread, fun _ => hread, fun _ _ => hwrite, fun _ _ => hwrite,
      fun _ _ => hwrite, fun _ => hwrite⟩
  now _ := .pure _

/-- Widgets with an identifier of some name, whose calls acquire their collections. -/
def widgetsBy (idName : String) : Sources where
  working := Document.ofDefinitions
    [ .type (Fragment.objectType "Widget"
        [ Fragment.plainField idName [] (.nonNull (.named "ID")),
          Fragment.plainField "name" [] (.named "String") ]) ]
  options := { requestScoped := true }
  roots := ["Widget"]

def widgetBy (idName : String) : Descriptor :=
  { flatDescriptor "Widget" "name" with idName := idName }

def widgetsByDocument (idName : String) : Document :=
  Assembly.completeSchema (Document.ofDefinitions
    (Merge.mergeDefinitions (mergedPolicies (widgetsBy idName))
      ((mergedDocuments (widgetsBy idName)
        [Fragment.ofPairs
          (Assembly.rootBasis (widgetsBy idName).working (widgetsBy idName).options
            [widgetBy idName])
          (widgetBy idName) [⟨"Widget", .create⟩, ⟨"Widget", .update⟩]]).map (·.definitions))))

/-- The resolvers of widgets, whose collection is not acquired. -/
def widgetResolvers (idName : String) : ResolverMap (String → Int) String :=
  ResolverMap.addAll ⟨"Query", "Mutation"⟩
    [tallies.bindingOf (widgetsBy idName).options (widgetBy idName)]

theorem build_widgetsBy {idName : String} (h : idName ∈ ["id", "root"]) (world : String → Int) :
    ∃ service, Action.exec (Service.build tallies [.document (widgetsBy idName).working]
        (widgetsBy idName).roots (widgetsBy idName).options) world = (.ok service, world) ∧
      service.descriptors = [widgetBy idName] ∧
      service.resolvers = widgetResolvers idName := by
  have hassembled : Assembly.assemble [.document (widgetsBy idName).working]
      (widgetsBy idName).roots (widgetsBy idName).options =
        .ok ⟨widgetsByDocument idName, [widgetBy idName]⟩ := by
    rcases List.mem_pair.mp h with rfl | rfl
    · exact (assemble_singleton [⟨"Widget", .create⟩, ⟨"Widget", .update⟩] rfl rfl (by decide)
        (by decide) rfl rfl (by decide) rfl (by decide)).2
    · exact (assemble_singleton [⟨"Widget", .create⟩, ⟨"Widget", .update⟩] rfl rfl (by decide)
        (by decide) rfl rfl (by decide) rfl (by decide)).2
  obtain ⟨schema, hschema, hserved⟩ : ∃ schema,
      Schema.build (widgetsByDocument idName) = .ok schema ∧
        (schema.serving == ⟨"Query", "Mutation"⟩ &&
          (ResolverMap.check schema (widgetResolvers idName)).isOk) := by
    rcases List.mem_pair.mp h with rfl | rfl
    · exact exists_ok_of_any (by decide +kernel)
    · exact exists_ok_of_any (by decide +kernel)
  obtain ⟨hserving, hcheck⟩ := Bool.and_eq_true_iff.mp hserved
  have hacquired : Action.exec (tallies.resolvers (widgetsBy idName).options schema
      [widgetBy idName]) world = (.ok (widgetResolvers idName), world) :=
    Environment.exec_resolvers_eq_ok.mpr ⟨_, rfl, by rw [beq_iff_eq.mp hserving]; rfl⟩
  refine ⟨⟨widgetsByDocument idName, schema, widgetResolvers idName, [widgetBy idName]⟩, ?_, rfl,
    rfl⟩
  rw [Service.exec_build hassembled hschema, Action.exec_map, hacquired]
  · rfl
  · intro resolvers left hother
    obtain ⟨hsame, -⟩ := Prod.mk.inj (hacquired.symm.trans hother)
    obtain rfl := Except.ok.inj hsame
    rw [← ResolverMap.check_eq_ok]
    cases hfits : ResolverMap.check schema (widgetResolvers idName) with
    | ok => rfl
    | error failure =>
        rw [hfits] at hcheck
        cases hcheck

/-- Widgets are not asked for when they are built. What comes of creating one and finding it in a
context is the same if another is created in a different context in between. -/
theorem service_logs_widgets :
    ∃ service left, Action.exec (Service.build tallies [.document (widgetsBy "id").working]
        (widgetsBy "id").roots (widgetsBy "id").options) (fun _ => 0) = (.ok service, left) ∧
      Action.exec (Service.build tallies.noted [.document (widgetsBy "id").working]
        (widgetsBy "id").roots (widgetsBy "id").options) ⟨fun _ => 0, []⟩ =
          (.ok service.noted, ⟨left, []⟩) ∧
      (tallies.Isolates fun context (world : String → Int) => world context) ∧
      service.outcomesIn tallies "here"
          [ ⟨"WidgetMutation", "create", some "here", [("id", .text "w1"), ("data", .record [])]⟩,
            ⟨"WidgetMutation", "create", some "there", [("id", .text "w2"), ("data", .record [])]⟩,
            ⟨"WidgetQuery", "find", some "here", [("id", .text "w1")]⟩ ] left =
        service.outcomesIn tallies "here"
          [ ⟨"WidgetMutation", "create", some "here", [("id", .text "w1"), ("data", .record [])]⟩,
            ⟨"WidgetQuery", "find", some "here", [("id", .text "w1")]⟩ ] left := by
  obtain ⟨service, hbuilt, -, -⟩ := build_widgetsBy (show "id" ∈ _ by decide) fun _ => 0
  obtain ⟨hnoted, -, -, hisolated⟩ := service_logs hbuilt
  exact ⟨service, _, hbuilt, hnoted, isolates_tallies,
    hisolated rfl _ isolates_tallies "here" _ _ _ _ rfl rfl⟩

/-! ## An identifier by the name of an argument -/

/-- Where calls acquire their collections, one that finds a widget by an identifier named `root`
asks for none: its argument clashes with the first of those that each call has. -/
theorem unasked_by_root :
    ∃ service, Action.exec (Service.build tallies [.document (widgetsBy "root").working]
        (widgetsBy "root").roots (widgetsBy "root").options) (fun _ => 0) =
          (.ok service, fun _ => 0) ∧
      (∃ binding, service.resolvers.find? "WidgetQuery" "find" =
          some (.operation binding .find) ∧ binding.handle.descriptor.idName = "root") ∧
      ∀ context : String,
        Action.exec (service.noted.invoke
            ⟨"WidgetQuery", "find", some context, [("root", .text "w1")]⟩) ⟨fun _ => 0, []⟩ =
          (.error (.reservedArgument "root"), ⟨fun _ => 0, []⟩) := by
  obtain ⟨service, hbuilt, -, hresolvers⟩ := build_widgetsBy (show "root" ∈ _ by decide) fun _ => 0
  have hfind : service.resolvers.find? "WidgetQuery" "find" = some (.operation
      (tallies.bindingOf (widgetsBy "root").options (widgetBy "root")) .find) := by
    rw [hresolvers]
    rfl
  refine ⟨service, hbuilt, ⟨_, hfind, rfl⟩, fun context => ?_⟩
  obtain ⟨document, schema, resolvers, descriptors⟩ := service
  obtain rfl := hresolvers
  rfl

end RecordApi
