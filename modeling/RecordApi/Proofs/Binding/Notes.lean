import RecordApi.Binding.Gathering
import RecordApi.Proofs.Binding.Combination
import RecordApi.Proofs.Binding.EntryOrders

/-!
# Taking notes

A store can be made to note each request, and its collections to note each operation that is called
on them with the number of the request that they came from. Nothing else is changed by this: what is
done with notes comes to what it comes to without them.
-/

namespace RecordApi

open RecordApi.Language

/-- What is noted: a request to the store under its number, or an operation on the collection that
the store gave for the request of a number. -/
inductive Note (κ : Type) where
  | asked (number : Nat) (request : CollectionRequest κ)
  | touched (number : Nat) (operation : Operation)

/-- A world with the notes taken in it. -/
structure Noted (σ κ : Type) where
  world : σ
  notes : List (Note κ)

variable {σ κ α β : Type}

def Note.isRequest : Note κ → Bool
  | asked _ _ => true
  | touched _ _ => false

/-- How many requests have been noted. -/
def Noted.requests (noted : Noted σ κ) : Nat :=
  noted.notes.countP Note.isRequest

namespace Action

/-- An action on the world beneath the notes. -/
def beneath (action : Action σ α) : Action (Noted σ κ) α := do
  let noted ← get
  let (outcome, world) := (action.run.run noted.world).run
  set { noted with world := world }
  match outcome with
  | .ok a => return a
  | .error failure => throw failure

/-- Takes a note. -/
def note (note : Note κ) : Action (Noted σ κ) Unit :=
  modify fun noted => { noted with notes := noted.notes ++ [note] }

@[simp] theorem exec_beneath (action : Action σ α) (before : Noted σ κ) :
    exec (beneath action) before =
      ((exec action before.world).1, ⟨(exec action before.world).2, before.notes⟩) := by
  unfold beneath
  rw [exec_bind, exec_get, after_ok]
  change exec (do
    set (σ := Noted σ κ) ⟨(exec action before.world).2, before.notes⟩
    match (exec action before.world).1 with
    | .ok a => return a
    | .error failure => throw failure : Action (Noted σ κ) α) before = _
  rcases exec action before.world with ⟨failure | a, left⟩ <;> rfl

@[simp] theorem exec_note (taken : Note κ) (before : Noted σ κ) :
    exec (note taken) before = (.ok (), ⟨before.world, before.notes ++ [taken]⟩) := rfl

end Action

/-- A collection that notes under a number what is called on it. -/
def Collection.noted (number : Nat) (collection : Collection σ) : Collection (Noted σ κ) where
  find id := do
    Action.note (.touched number .find)
    Action.beneath (collection.find id)
  list options := do
    Action.note (.touched number .list)
    Action.beneath (collection.list options)
  create id data := do
    Action.note (.touched number .create)
    Action.beneath (collection.create id data)
  update id data := do
    Action.note (.touched number .update)
    Action.beneath (collection.update id data)
  upsert id data := do
    Action.note (.touched number .upsert)
    Action.beneath (collection.upsert id data)
  delete id := do
    Action.note (.touched number .delete)
    Action.beneath (collection.delete id)

/-- A store that notes each request, and gives collections that take notes under its number. -/
def Store.noted (store : Store σ κ) : Store (Noted σ κ) κ := fun request => do
  let number := (← get).requests
  Action.note (.asked number request)
  let collection ← Action.beneath (store request)
  return collection.noted number

/-- A binding that works with notes; a collection that has been acquired takes them under a number.
-/
def RecordBinding.noted (number : Nat) (binding : RecordBinding σ κ) :
    RecordBinding (Noted σ κ) κ where
  handle := ⟨Store.noted binding.handle.store, binding.handle.descriptor, binding.handle.context,
    binding.handle.opened.map (·.noted number)⟩
  timestamps := binding.timestamps
  mostPerPage := binding.mostPerPage
  now := Action.beneath binding.now

theorem Store.exec_noted (store : Store σ κ) (request : CollectionRequest κ)
    (before : Noted σ κ) :
    Action.exec (Store.noted store request) before =
      ((Action.exec (store request) before.world).1.map (·.noted before.requests),
        ⟨(Action.exec (store request) before.world).2,
          before.notes ++ [.asked before.requests request]⟩) := by
  unfold Store.noted
  simp only [Action.exec_bind, Action.exec_get, Action.after_ok, Action.exec_note,
    Action.exec_beneath]
  rcases Action.exec (store request) before.world with ⟨failure | collection, left⟩ <;> rfl

/-! ## Operations -/

namespace RecordBinding

/-- What an operation does with the collection once it is there. -/
def operate (binding : RecordBinding σ κ) (collection : Collection σ) (arguments : Datum.Entries) :
    Operation → Action σ Datum
  | .find => collection.find (binding.idOf arguments)
  | .list => collection.list ((ListOptions.ofArguments arguments).clamp binding.mostPerPage)
  | .create => do
    collection.create (binding.idOf arguments) (← binding.stamped stampCreated (dataOf arguments))
  | .update => do
    if (← collection.find (binding.idOf arguments)).isNull then
      throw (.noRecord binding.handle.descriptor.typeName (binding.idOf arguments).plainText)
    collection.update (binding.idOf arguments)
      (← binding.stamped stampModified (dataOf arguments))
  | .upsert => do
    if binding.timestamps then
      let now ← binding.now
      let missing := (← collection.find (binding.idOf arguments)).isNull
      collection.upsert (binding.idOf arguments)
        (if missing then stampCreated now (dataOf arguments)
          else stampModified now (dataOf arguments))
    else
      collection.upsert (binding.idOf arguments) (dataOf arguments)
  | .delete => collection.delete (binding.idOf arguments)

theorem run_eq_bind (binding : RecordBinding σ κ) (op : Operation) (request : Option κ)
    (arguments : Datum.Entries) :
    binding.run op request arguments =
      binding.handle.collection request >>= fun collection =>
        binding.operate collection arguments op := by
  cases op <;> rfl

end RecordBinding

/-- Whether operations end with one. -/
def EndsWith (op : Operation) (ops : List Operation) : Prop :=
  ∃ before, ops = before ++ [op]

/-- Whether an action that takes notes comes to the same as one that takes none, and notes under a
number operations that fulfil a condition unless it fails. -/
def Follows (number : Nat) (fulfils : List Operation → Prop) (action : Action σ α)
    (noted : Action (Noted σ κ) α) : Prop :=
  ∀ before : Noted σ κ, ∃ ops : List Operation,
    Action.exec noted before = ((Action.exec action before.world).1,
      ⟨(Action.exec action before.world).2, before.notes ++ ops.map (.touched number)⟩) ∧
    ∀ a, (Action.exec action before.world).1 = .ok a → fulfils ops

namespace Follows

variable {number : Nat} {first second : List Operation → Prop}

theorem beneath (action : Action σ α) :
    Follows number (· = []) action (Action.beneath action : Action (Noted σ κ) α) :=
  fun before => ⟨[], by simp, fun _ _ => rfl⟩

theorem pure (a : α) :
    Follows number (· = []) (Pure.pure a : Action σ α) (Pure.pure a : Action (Noted σ κ) α) :=
  fun before => ⟨[], by simp, fun _ _ => rfl⟩

theorem throw (failure : Failure) (fulfils : List Operation → Prop) :
    Follows number fulfils (MonadExcept.throw failure : Action σ α)
      (MonadExcept.throw failure : Action (Noted σ κ) α) := by
  refine fun before => ⟨[], by simp, fun _ h => ?_⟩
  cases h

/-- An operation on a collection that takes notes is noted. -/
theorem touch (action : Action σ α) (op : Operation) :
    Follows number (· = [op]) action (do
      Action.note (.touched number op)
      Action.beneath action : Action (Noted σ κ) α) := by
  refine fun before => ⟨[op], ?_, fun _ _ => rfl⟩
  rw [Action.exec_bind, Action.exec_note, Action.after_ok, Action.exec_beneath]
  rfl

theorem imp {fulfils : List Operation → Prop} {action : Action σ α}
    {noted : Action (Noted σ κ) α} (h : Follows number first action noted)
    (himp : ∀ ops, first ops → fulfils ops) : Follows number fulfils action noted := by
  intro before
  obtain ⟨ops, hexec, hops⟩ := h before
  exact ⟨ops, hexec, fun a ha => himp ops (hops a ha)⟩

theorem bind {fulfils : List Operation → Prop} {action : Action σ α} {rest : α → Action σ β}
    {noted : Action (Noted σ κ) α} {others : α → Action (Noted σ κ) β}
    (h : Follows number first action noted)
    (hrest : ∀ a, Follows number second (rest a) (others a))
    (hboth : ∀ ops more, first ops → second more → fulfils (ops ++ more)) :
    Follows number fulfils (action >>= rest) (noted >>= others) := by
  intro before
  obtain ⟨ops, hexec, hops⟩ := h before
  rw [Action.exec_bind, Action.exec_bind, hexec]
  rcases hfirst : Action.exec action before.world with ⟨failure | a, middle⟩
  · refine ⟨ops, rfl, fun _ h => ?_⟩
    cases h
  · obtain ⟨more, hmore, hend⟩ := hrest a ⟨middle, before.notes ++ ops.map (.touched number)⟩
    refine ⟨ops ++ more, ?_, fun b hb => hboth ops more (hops a (by rw [hfirst])) (hend b hb)⟩
    simp only [Action.after_ok]
    rw [hmore, List.map_append, List.append_assoc]

end Follows

namespace RecordBinding

variable {number other : Nat}

theorem follows_stamped (binding : RecordBinding σ κ)
    (stamp : Datum → Datum.Entries → Datum.Entries) (data : Datum.Entries) :
    Follows number (· = []) (binding.stamped stamp data)
      ((binding.noted other).stamped stamp data) := by
  unfold stamped
  change Follows number _ (if binding.timestamps then _ else _)
    (if binding.timestamps then _ else _)
  split
  · rw [map_eq_pure_bind, map_eq_pure_bind]
    exact (Follows.beneath binding.now).bind (fun now => .pure _) (by simp)
  · exact .pure data

/-- An operation touches the collection that is there for it, last of all as what it is. -/
theorem follows_operate (binding : RecordBinding σ κ) (collection : Collection σ)
    (arguments : Datum.Entries) (op : Operation) :
    Follows number (EndsWith op) (binding.operate collection arguments op)
      ((binding.noted other).operate (collection.noted number) arguments op) := by
  have hlast (action : Action σ Datum) : Follows number (EndsWith op) action (do
      Action.note (.touched number op)
      Action.beneath action : Action (Noted σ κ) Datum) :=
    (Follows.touch action op).imp fun _ h => ⟨[], h⟩
  have hend (first ops more : List Operation) (_ : ops = first) (hmore : EndsWith op more) :
      EndsWith op (ops ++ more) := by
    obtain ⟨before, rfl⟩ := hmore
    exact ⟨ops ++ before, (List.append_assoc ops before [op]).symm⟩
  cases op with
  | find | list | delete => exact hlast _
  | create => exact (follows_stamped binding _ _).bind (fun _ => hlast _) (hend [])
  | update =>
      refine (Follows.touch _ .find).bind (fun found => ?_) (hend [.find])
      dsimp only
      split
      · exact .throw _ _
      · exact (follows_stamped binding _ _).bind (fun _ => hlast _) (hend [])
  | upsert =>
      simp only [operate]
      change Follows number _ (if binding.timestamps then _ else _)
        (if binding.timestamps then _ else _)
      split
      · refine (Follows.beneath binding.now).bind (fun now => ?_) (hend [])
        exact (Follows.touch _ .find).bind (fun found => hlast _) (hend [.find])
      · exact hlast _

/-- A call on a collection that has been acquired touches this collection alone. -/
theorem exec_noted_of_opened {binding : RecordBinding σ κ} {collection : Collection σ}
    (hopened : binding.handle.opened = some collection) (op : Operation) (request : Option κ)
    (arguments : Datum.Entries) (before : Noted σ κ) :
    ∃ ops : List Operation,
      Action.exec ((binding.noted number).run op request arguments) before =
        ((Action.exec (binding.run op request arguments) before.world).1,
          ⟨(Action.exec (binding.run op request arguments) before.world).2,
            before.notes ++ ops.map (.touched number)⟩) ∧
      ∀ answer, (Action.exec (binding.run op request arguments) before.world).1 = .ok answer →
        EndsWith op ops := by
  have hcollection : binding.handle.collection request = pure collection := by
    rw [Handle.collection, hopened]
  have hnoted : (binding.noted number).handle.collection request =
      pure (collection.noted number) := by
    rw [Handle.collection, noted, hopened]
    rfl
  rw [run_eq_bind, run_eq_bind, hcollection, hnoted, pure_bind, pure_bind]
  exact follows_operate binding collection arguments op before

/-- A call that acquires its collection asks the store for it once, with the context of the request,
and touches this collection alone. -/
theorem exec_noted_of_unopened {binding : RecordBinding σ κ}
    (hopened : binding.handle.opened = none) (op : Operation) (request : Option κ)
    (arguments : Datum.Entries) (before : Noted σ κ) :
    ∃ ops : List Operation,
      Action.exec ((binding.noted number).run op request arguments) before =
        ((Action.exec (binding.run op request arguments) before.world).1,
          ⟨(Action.exec (binding.run op request arguments) before.world).2,
            before.notes ++ .asked before.requests
              ⟨binding.handle.descriptor.idName, binding.typeName,
                request.getD binding.handle.context⟩ ::
              ops.map (.touched before.requests)⟩) ∧
      ∀ answer, (Action.exec (binding.run op request arguments) before.world).1 = .ok answer →
        EndsWith op ops := by
  have hcollection : binding.handle.collection request = binding.handle.store
      ⟨binding.handle.descriptor.idName, binding.typeName,
        request.getD binding.handle.context⟩ := by
    rw [Handle.collection, hopened]
    rfl
  have hnoted : (binding.noted number).handle.collection request =
      Store.noted binding.handle.store ⟨binding.handle.descriptor.idName, binding.typeName,
        request.getD binding.handle.context⟩ := by
    rw [Handle.collection, noted, hopened]
    rfl
  rw [run_eq_bind, run_eq_bind, hcollection, hnoted, Action.exec_bind, Action.exec_bind,
    Store.exec_noted]
  rcases Action.exec (binding.handle.store _) before.world with ⟨failure | collection, middle⟩
  · refine ⟨[], rfl, fun _ h => ?_⟩
    cases h
  · have hfollows : Follows before.requests (EndsWith op) _
        ((binding.noted number).operate (collection.noted before.requests) arguments op) :=
      follows_operate binding collection arguments op
    obtain ⟨ops, hops, hends⟩ := hfollows ⟨middle, before.notes ++ [.asked before.requests _]⟩
    refine ⟨ops, ?_, hends⟩
    simp only [Except.map, Action.after_ok]
    rw [hops, List.append_assoc]
    rfl

end RecordBinding

/-! ## Resolvers -/

/-- The association with each value changed. -/
def Association.mapValues (f : α → β) (entries : Association α) : Association β :=
  entries.map fun entry => (entry.1, f entry.2)

namespace Association

theorem lookup_mapValues (f : α → β) (entries : Association α) (name : String) :
    (mapValues f entries).lookup name = (entries.lookup name).map f := by
  induction entries with
  | nil => rfl
  | cons entry rest ih =>
      rw [mapValues, List.map_cons, ← mapValues, lookup_cons, lookup_cons, ih]
      split <;> rfl

theorem put_mapValues (f : α → β) (key : String) (value : α) (entries : Association α) :
    mapValues f (put key value entries) = put key (f value) (mapValues f entries) := by
  induction entries with
  | nil => rfl
  | cons entry rest ih =>
      simp only [mapValues, put, List.map_cons] at ih ⊢
      split
      · rfl
      · rw [List.map_cons, ih]

theorem change_mapValues {f : α → β} {change : α → α} {other : β → β}
    (h : ∀ value, f (change value) = other (f value)) (key : String) (entries : Association α) :
    mapValues f (Association.change key change entries) =
      Association.change key other (mapValues f entries) := by
  induction entries with
  | nil => rfl
  | cons entry rest ih =>
      simp only [mapValues, Association.change, List.map_cons] at ih ⊢
      split
      · rw [List.map_cons, h]
      · rw [List.map_cons, ih]

end Association

/-- A resolver that works with notes, where root types have numbers. -/
def Resolver.noted (number : Descriptor → Nat) : Resolver σ κ → Resolver (Noted σ κ) κ
  | entryPoint => entryPoint
  | operation binding op => operation (binding.noted (number binding.handle.descriptor)) op

/-- Resolvers that work with notes, where root types have numbers. -/
def ResolverMap.noted (number : Descriptor → Nat) (resolvers : ResolverMap σ κ) :
    ResolverMap (Noted σ κ) κ :=
  Association.mapValues (Association.mapValues (Resolver.noted number)) resolvers

namespace ResolverMap

variable (number : Descriptor → Nat)

theorem find?_noted (resolvers : ResolverMap σ κ) (typeName fieldName : String) :
    (resolvers.noted number).find? typeName fieldName =
      (resolvers.find? typeName fieldName).map (Resolver.noted number) := by
  have htype : (resolvers.noted number).ofType? typeName =
      (resolvers.ofType? typeName).map (Association.mapValues (Resolver.noted number)) :=
    Association.lookup_mapValues _ _ _
  rw [find?, find?, htype]
  cases resolvers.ofType? typeName with
  | none => rfl
  | some fields => exact Association.lookup_mapValues _ _ _

theorem Fits.noted {schema : Schema} {resolvers : ResolverMap σ κ} (h : Fits schema resolvers) :
    Fits schema (resolvers.noted number) := by
  intro entry hentry
  obtain ⟨own, hown, rfl⟩ := List.mem_map.mp hentry
  obtain ⟨htype, hfields⟩ := h own hown
  refine ⟨htype, fun field hfield => ?_⟩
  obtain ⟨ownField, hownField, rfl⟩ := List.mem_map.mp hfield
  exact hfields ownField hownField

theorem noted_add (query mutation : String) (resolvers : ResolverMap σ κ)
    (binding : RecordBinding σ κ) :
    (add query mutation resolvers binding).noted number =
      add query mutation (resolvers.noted number)
        (binding.noted (number binding.handle.descriptor)) := by
  have hentry (fields : Association (Resolver σ κ)) :
      Association.mapValues (Resolver.noted number)
          (Association.put (Naming.lowerCamel binding.typeName) .entryPoint fields) =
        Association.put (Naming.lowerCamel binding.typeName) .entryPoint
          (Association.mapValues (Resolver.noted number) fields) :=
    Association.put_mapValues _ _ _ _
  have hoperations (operations : List Operation) :
      Association.mapValues (Resolver.noted number) (ofOperations binding operations) =
        ofOperations (binding.noted (number binding.handle.descriptor)) operations := by
    rw [ofOperations, ofOperations, Association.mapValues, List.map_map]
    rfl
  unfold add ResolverMap.noted
  rw [Association.put_mapValues, Association.put_mapValues, hoperations, hoperations]
  congr 2
  exact (Association.change_mapValues hentry mutation _).trans
    (congrArg _ (Association.change_mapValues hentry query resolvers))

theorem noted_empty (query mutation : String) :
    (empty query mutation : ResolverMap σ κ).noted number = empty query mutation := by
  unfold empty ResolverMap.noted
  rw [Association.put_mapValues]
  rfl

/-- Resolvers made with notes are those made without them, with notes. -/
theorem noted_foldl_add (query mutation : String) (bindings : List (RecordBinding σ κ))
    (resolvers : ResolverMap σ κ) :
    (bindings.foldl (add query mutation) resolvers).noted number =
      (bindings.map fun binding => binding.noted (number binding.handle.descriptor)).foldl
        (add query mutation) (resolvers.noted number) := by
  induction bindings generalizing resolvers with
  | nil => rfl
  | cons binding rest ih => rw [List.foldl_cons, ih, noted_add, List.map_cons, List.foldl_cons]

end ResolverMap

end RecordApi
