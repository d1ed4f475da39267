import RecordApi.Proofs.Binding.KeyValue
import RecordApi.Proofs.Binding.Operations

/-!
# What calls write

A call that writes leaves all records but one as they are, over a collection that stores what it is
given, and all of them if it fails. To that one it gives the data of its arguments, with the time if
times are kept: all of it to a new record, and on top of what is there to an old one.
-/

namespace RecordApi.RecordBinding

open RecordApi.Action

/-- A call of an operation. -/
structure Call (κ : Type) where
  operation : Operation
  request : Option κ
  arguments : Datum.Entries

variable {σ κ Key Instant : Type} (binding : RecordBinding σ κ) (view : View σ Key Instant)

/-- What a call answers, and the world that it leaves. -/
def perform (w : σ) (call : Call κ) : Except Failure Datum × σ :=
  exec (binding.run call.operation call.request call.arguments) w

/-- The world that calls leave. -/
def performAll (w : σ) (calls : List (Call κ)) : σ :=
  calls.foldl (fun w call => (binding.perform w call).2) w

/-- The world in which a call looks at the clock: it has its collection by then, and an update has
looked for its record. -/
def looking (w : σ) (call : Call κ) : σ :=
  match exec (binding.handle.collection call.request) w with
  | (.error _, acquired) => acquired
  | (.ok collection, acquired) =>
    if call.operation = .update then
      (exec (collection.find (binding.idOf call.arguments)) acquired).2
    else acquired

/-- The data with a time written into it, if times are kept. -/
def stampedAt (stamp : Datum → Datum.Entries → Datum.Entries) (now : Datum)
    (data : Datum.Entries) : Datum.Entries :=
  if binding.timestamps then stamp now data else data

theorem performAll_append (w : σ) (calls : List (Call κ)) (call : Call κ) :
    binding.performAll w (calls ++ [call]) =
      (binding.perform (binding.performAll w calls) call).2 := by
  simp [performAll]

variable [DecidableEq Key]

/-- What the records can become by a call, with what it answers. A record is written anew by a
creation, or by an upsert that does not find it; what is there already is written over by an update
or an upsert. -/
inductive Writes (w : σ) (call : Call κ) (outcome : Except Failure Datum) :
    (Key → Option Held) → Prop where
  | nothing (hfailed : outcome.isOk = false) : Writes w call outcome (view.stored w)
  | anew {key : Key} {held : Held} (hdone : outcome.isOk = true)
      (hkey : call.operation = .create ∧ outcome.toOption.bind view.keyOf = some key ∨
        call.operation = .upsert ∧ view.keyOf (binding.idOf call.arguments) = some key ∧
          view.stored w key = none) :
      Writes w call outcome (Function.update (view.stored w) key (some (held.write
        (binding.stampedAt stampCreated (view.datum (view.time (binding.looking w call)))
          (dataOf call.arguments)))))
  | changed {key : Key} {old : Held} (hdone : outcome.isOk = true)
      (hoperation : call.operation = .update ∨ call.operation = .upsert)
      (hkey : view.keyOf (binding.idOf call.arguments) = some key)
      (hold : view.stored w key = some old) :
      Writes w call outcome (Function.update (view.stored w) key (some (old.write
        (binding.stampedAt stampModified (view.datum (view.time (binding.looking w call)))
          (dataOf call.arguments)))))
  | removed {key : Key} (hoperation : call.operation = .delete) :
      Writes w call outcome (Function.update (view.stored w) key none)

variable [Preorder Instant]

/-- A call looks at the clock before it touches the records, and then leaves what it writes. -/
structure Leaves (w : σ) (call : Call κ) : Prop where
  looking : view.Leads w (binding.looking w call) (view.stored w)
  written : ∃ stored, view.Leads (binding.looking w call) (binding.perform w call).2 stored ∧
    Writes binding view w call (binding.perform w call).1 stored

section Leaving

variable {binding view} {w : σ} {call : Call κ}

/-- A call that fails leaves everything as it is. -/
theorem leaves_of_error {failure : Failure} {seen left : σ}
    (hperform : binding.perform w call = (.error failure, left))
    (hlooking : binding.looking w call = seen) (hseen : view.Leads w seen (view.stored w))
    (hleft : view.Leads seen left (view.stored w)) : binding.Leaves view w call := by
  subst hlooking
  refine ⟨hseen, view.stored w, ?_, .nothing ?_⟩
  · rw [hperform]
    exact hleft
  · rw [hperform]
    rfl

/-- A call that succeeds leaves the records that it leads to. -/
theorem leaves_of_ok {answer : Datum} {seen left : σ} {stored : Key → Option Held}
    (hperform : binding.perform w call = (.ok answer, left))
    (hlooking : binding.looking w call = seen) (hseen : view.Leads w seen (view.stored w))
    (hleft : view.Leads seen left stored)
    (hwrites : Writes binding view w call (.ok answer) stored) :
    binding.Leaves view w call := by
  subst hlooking
  refine ⟨hseen, stored, ?_, ?_⟩
  · rw [hperform]
    exact hleft
  · rw [hperform]
    exact hwrites

variable (hserves : view.Serves binding) (hw : view.Valid w) {request : Option κ}
  {arguments : Datum.Entries}

include hserves hw

/-- Writing the time into data looks at the clock, if times are kept. -/
theorem answers_stamped (stamp : Datum → Datum.Entries → Datum.Entries) (data : Datum.Entries) :
    view.Answers (binding.stamped stamp data) w
      (binding.stampedAt stamp (view.datum (view.time w)) data) (view.stored w) := by
  unfold stamped stampedAt
  split
  · obtain ⟨looked, hnow, hlooked⟩ := hserves.now hw
    exact ⟨looked, by simp [hnow], hlooked⟩
  · exact ⟨w, rfl, hw, le_rfl, rfl⟩

section Looking

variable {collection : Collection σ} {acquired : σ}
  (hacquire : exec (binding.handle.collection call.request) w = (.ok collection, acquired))

include hacquire

omit [DecidableEq Key] [Preorder Instant] hserves hw in
theorem looking_of_ne (hnot : call.operation ≠ .update) : binding.looking w call = acquired := by
  simp [looking, hacquire, hnot]

omit [DecidableEq Key] [Preorder Instant] hserves hw in
theorem looking_of_update (hupdate : call.operation = .update) {outcome : Except Failure Datum}
    {looked : σ}
    (hfind : exec (collection.find (binding.idOf call.arguments)) acquired = (outcome, looked)) :
    binding.looking w call = looked := by
  simp [looking, hacquire, hupdate, hfind]

end Looking

/-- A call leaves what it writes if it does so once it has its collection. -/
theorem leaves_of_acquired
    (hleaves : ∀ collection acquired, view.Keeps collection →
      exec (binding.handle.collection call.request) w = (.ok collection, acquired) →
      view.Leads w acquired (view.stored w) → binding.Leaves view w call) :
    binding.Leaves view w call := by
  rcases hserves.collection call.request hw with
    ⟨failure, acquired, hacquire, hlead⟩ | ⟨collection, hkeeps, acquired, hacquire, hlead⟩
  · have hlooking : binding.looking w call = acquired := by simp [looking, hacquire]
    exact leaves_of_error (exec_of_unacquired hacquire) hlooking hlead hlead.rest
  · exact hleaves collection acquired hkeeps hacquire hlead

theorem leaves_delete : binding.Leaves view w ⟨.delete, request, arguments⟩ := by
  apply leaves_of_acquired hserves hw
  intro collection acquired hkeeps hacquire hlead
  have hexec : binding.perform w ⟨.delete, request, arguments⟩ = _ := exec_delete hacquire
  have hlooking : binding.looking w ⟨.delete, request, arguments⟩ = acquired :=
    looking_of_ne hacquire nofun
  rcases hkeeps.delete (binding.idOf arguments) hlead.valid with
    ⟨failure, left, hfail, hleft⟩ | ⟨answer, key, hkey, left, hdelete, hleft⟩
  · rw [hlead.stored_eq] at hleft
    exact leaves_of_error (hexec.trans hfail) hlooking hlead hleft
  · rw [hlead.stored_eq] at hleft
    exact leaves_of_ok (hexec.trans hdelete) hlooking hlead hleft (.removed rfl)

theorem leaves_create : binding.Leaves view w ⟨.create, request, arguments⟩ := by
  apply leaves_of_acquired hserves hw
  intro collection acquired hkeeps hacquire hlead
  obtain ⟨looked, hstamped, hlooked⟩ :=
    answers_stamped hserves hlead.valid stampCreated (dataOf arguments)
  rw [hlead.stored_eq] at hlooked
  have hlooking : binding.looking w ⟨.create, request, arguments⟩ = acquired :=
    looking_of_ne hacquire nofun
  have hexec : binding.perform w ⟨.create, request, arguments⟩ = _ :=
    exec_create hacquire hstamped
  rcases hkeeps.create (binding.idOf arguments) _ hlooked.valid with
    ⟨failure, left, hfail, hleft⟩ | ⟨given, key, held, hgiven, -, left, hstore, hleft⟩
  · rw [hlooked.stored_eq] at hleft
    exact leaves_of_error (hexec.trans hfail) hlooking hlead (hlooked.trans hleft)
  · rw [hlooked.stored_eq] at hleft
    refine leaves_of_ok (hexec.trans hstore) hlooking hlead (hlooked.trans hleft) ?_
    rw [← hlooking]
    exact .anew rfl (.inl ⟨rfl, hgiven⟩)

theorem leaves_update : binding.Leaves view w ⟨.update, request, arguments⟩ := by
  apply leaves_of_acquired hserves hw
  intro collection acquired hkeeps hacquire hlead
  have hlooking : ∀ {outcome found},
      exec (collection.find (binding.idOf arguments)) acquired = (outcome, found) →
        binding.looking w ⟨.update, request, arguments⟩ = found :=
    fun hfind => looking_of_update hacquire rfl hfind
  rcases hkeeps.find hlead.valid (binding.idOf arguments) with
    ⟨failure, found, hfind, hfound⟩ | ⟨record, ⟨found, hfind, hfound⟩, hmissing⟩
  · rw [hlead.stored_eq] at hfound
    exact leaves_of_error (exec_update_unfound hacquire hfind) (hlooking hfind)
      (hlead.trans hfound) hfound.rest
  rw [hlead.stored_eq] at hfound hmissing
  cases hstored : (view.keyOf (binding.idOf arguments)).bind (view.stored w) with
  | none =>
      rw [hstored] at hmissing
      exact leaves_of_error (exec_update_missing hacquire hmissing hfind) (hlooking hfind)
        (hlead.trans hfound) hfound.rest
  | some old =>
      rw [hstored] at hmissing
      obtain ⟨key, hkey, hold⟩ := Option.bind_eq_some_iff.mp hstored
      obtain ⟨looked, hstamped, hlooked⟩ :=
        answers_stamped hserves hfound.valid stampModified (dataOf arguments)
      rw [hfound.stored_eq] at hlooked
      have hexec : binding.perform w ⟨.update, request, arguments⟩ = _ :=
        exec_update hacquire hmissing hfind hstamped
      have hstill := (congrFun hlooked.stored_eq key).trans hold
      rcases hkeeps.update _ hlooked.valid hkey hstill with
        ⟨failure, left, hfail, hleft⟩ | ⟨answer, left, hupdate, hleft⟩
      · rw [hlooked.stored_eq] at hleft
        exact leaves_of_error (hexec.trans hfail) (hlooking hfind) (hlead.trans hfound)
          (hlooked.trans hleft)
      · rw [hlooked.stored_eq] at hleft
        refine leaves_of_ok (hexec.trans hupdate) (hlooking hfind) (hlead.trans hfound)
          (hlooked.trans hleft) ?_
        rw [← hlooking hfind]
        exact .changed rfl (.inl rfl) hkey hold

omit hserves hw in
/-- What an upsert of a collection leaves, if the data is stamped as what is stored asks for. -/
theorem leaves_of_upsert {collection : Collection σ} (hkeeps : view.Keeps collection)
    (hseen : view.Leads w (binding.looking w ⟨.upsert, request, arguments⟩) (view.stored w))
    {before : σ}
    (hbefore : view.Leads (binding.looking w ⟨.upsert, request, arguments⟩) before (view.stored w))
    {data : Datum.Entries}
    (hexec : binding.perform w ⟨.upsert, request, arguments⟩ =
      exec (collection.upsert (binding.idOf arguments) data) before)
    (hdata : ∀ key, view.keyOf (binding.idOf arguments) = some key →
      data = binding.stampedAt (if (view.stored w key).isNone then stampCreated else stampModified)
        (view.datum (view.time (binding.looking w ⟨.upsert, request, arguments⟩)))
        (dataOf arguments)) :
    binding.Leaves view w ⟨.upsert, request, arguments⟩ := by
  rcases hkeeps.upsert (binding.idOf arguments) data hbefore.valid with
    ⟨failure, left, hfail, hleft⟩ | ⟨answer, key, held, hkey, hheld, left, hupsert, hleft⟩
  · rw [hbefore.stored_eq] at hleft
    exact leaves_of_error (hexec.trans hfail) rfl hseen (hbefore.trans hleft)
  rw [hbefore.stored_eq] at hleft hheld
  refine leaves_of_ok (hexec.trans hupsert) rfl hseen (hbefore.trans hleft) ?_
  rw [hdata key hkey]
  cases hstored : view.stored w key with
  | none => exact .anew rfl (.inr ⟨rfl, hkey, hstored⟩)
  | some old =>
      rw [hheld old hstored]
      exact .changed rfl (.inr rfl) hkey hstored

theorem leaves_upsert : binding.Leaves view w ⟨.upsert, request, arguments⟩ := by
  apply leaves_of_acquired hserves hw
  intro collection acquired hkeeps hacquire hlead
  have hlooking : binding.looking w ⟨.upsert, request, arguments⟩ = acquired :=
    looking_of_ne hacquire nofun
  by_cases htimes : binding.timestamps = true
  · obtain ⟨looked, hnow, hlooked⟩ := hserves.now hlead.valid
    rw [hlead.stored_eq] at hlooked
    rcases hkeeps.find hlooked.valid (binding.idOf arguments) with
      ⟨failure, found, hfind, hfound⟩ | ⟨record, ⟨found, hfind, hfound⟩, hmissing⟩
    · rw [hlooked.stored_eq] at hfound
      exact leaves_of_error (exec_upsert_unfound hacquire htimes hnow hfind) hlooking hlead
        (hlooked.trans hfound)
    rw [hlooked.stored_eq] at hfound hmissing
    refine leaves_of_upsert hkeeps (hlooking ▸ hlead) (hlooking ▸ hlooked.trans hfound)
      (exec_upsert hacquire htimes hnow hfind) fun key hkey => ?_
    rw [hkey, Option.bind_some] at hmissing
    rw [hlooking, stampedAt, if_pos htimes, hmissing]
    split <;> rfl
  · refine leaves_of_upsert hkeeps (hlooking ▸ hlead) (hlooking ▸ hlead.rest)
      (exec_upsert_plain hacquire (by simpa using htimes)) fun key _ => ?_
    rw [stampedAt, if_neg htimes]

/-- Every call that writes leaves the records as they can become by it. -/
theorem leaves_of_mutation (hmutation : call.operation ∈ Operation.mutations) :
    binding.Leaves view w call := by
  obtain ⟨operation, request, arguments⟩ := call
  cases operation with
  | create => exact leaves_create hserves hw
  | update => exact leaves_update hserves hw
  | upsert => exact leaves_upsert hserves hw
  | delete => exact leaves_delete hserves hw
  | find => simp [Operation.mutations] at hmutation
  | list => simp [Operation.mutations] at hmutation

end Leaving

end RecordApi.RecordBinding
