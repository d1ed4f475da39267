import RecordApi.Proofs.Binding.Writes

/-!
# Effects of calls

A call of an operation comes to an event, which tells what the call has been about and when it has
looked at the clock. Over a collection that stores what it is given, the event of a call that writes
tells what becomes of the records, if times are kept: nothing, or one record is created, changed or
removed.
-/

namespace RecordApi

open RecordApi.Action

/-! ## Calls and their events -/

/-- What a call has come to. -/
structure Event (Key Instant : Type) where
  operation : Operation
  /-- The key of the record that the call is about. -/
  key : Option Key
  /-- Whether nothing was stored under the key. -/
  missing : Bool
  /-- Whether the call has succeeded. -/
  done : Bool
  /-- What the clock showed when the call looked at it. -/
  instant : Instant

namespace Event

variable {Key Instant : Type}

/-- The last event of a kind. -/
def last? (kind : Event Key Instant → Bool) (history : List (Event Key Instant)) :
    Option (Event Key Instant) :=
  history.reverse.find? kind

theorem last?_append_of_kind (kind : Event Key Instant → Bool) {event : Event Key Instant}
    (h : kind event) (history : List (Event Key Instant)) :
    last? kind (history ++ [event]) = some event := by
  simp [last?, h]

theorem last?_append_of_not (kind : Event Key Instant → Bool) {event : Event Key Instant}
    (h : ¬ kind event) (history : List (Event Key Instant)) :
    last? kind (history ++ [event]) = last? kind history := by
  simp [last?, h]

theorem mem_of_last? {kind : Event Key Instant → Bool} {history : List (Event Key Instant)}
    {event : Event Key Instant} (h : last? kind history = some event) : event ∈ history :=
  List.mem_reverse.mp (List.mem_of_find?_eq_some h)

variable [DecidableEq Key]

/-- Whether the record under a key has been created. -/
def creates (event : Event Key Instant) (key : Key) : Bool :=
  event.done && event.key == some key &&
    (event.operation == .create || event.operation == .upsert && event.missing)

/-- Whether the record under a key has been created or changed. -/
def writes (event : Event Key Instant) (key : Key) : Bool :=
  event.done && event.key == some key &&
    (event.operation == .create || event.operation == .update || event.operation == .upsert)

theorem writes_of_creates {event : Event Key Instant} {key : Key} (h : event.creates key) :
    event.writes key := by
  simp only [creates, writes, Bool.and_eq_true, Bool.or_eq_true] at h ⊢
  exact ⟨h.1, h.2.imp .inl And.left⟩

theorem eq_of_writes {event : Event Key Instant} {key other : Key} (h : event.writes key)
    (hother : event.writes other) : other = key := by
  simp only [writes, Bool.and_eq_true, beq_iff_eq] at h hother
  exact Option.some.inj (hother.1.2.symm.trans h.1.2)

theorem not_creates_of_not_writes {event : Event Key Instant} {key : Key}
    (h : ¬ event.writes key) : ¬ event.creates key :=
  fun hcreates => h (writes_of_creates hcreates)

end Event

namespace RecordBinding

/-- A call that writes, with data that has no times of its own. -/
structure Call.Untimed {κ : Type} (call : Call κ) : Prop where
  operation_mem : call.operation ∈ Operation.mutations
  created : Entries.get? (dataOf call.arguments) "created" = none
  modified : Entries.get? (dataOf call.arguments) "modified" = none

variable {σ κ Key Instant : Type} (binding : RecordBinding σ κ) (view : View σ Key Instant)

/-- The event of a call. The record that is created is the one of the identifier answered. -/
def event (w : σ) (call : Call κ) : Event Key Instant :=
  let outcome := (binding.perform w call).1
  let key :=
    if call.operation = .create then outcome.toOption.bind view.keyOf
    else view.keyOf (binding.idOf call.arguments)
  { operation := call.operation
    key := key
    missing := (key.bind (view.stored w)).isNone
    done := outcome.isOk
    instant := view.time (binding.looking w call) }

/-- The events of calls that are made one after the other. -/
def history (w : σ) : List (Call κ) → List (Event Key Instant)
  | [] => []
  | call :: calls => binding.event view w call :: history (binding.perform w call).2 calls

/-! ## What is stored with its times -/

section Stamps

variable {now : Datum} {data : Datum.Entries} {held : Held}

theorem write_stampModified (hmodified : Entries.get? data "modified" = none) :
    held.write (stampModified now data) "modified" = some now := by
  rw [stampModified, Held.write_set hmodified, Function.update_self]

/-- A time of a change leaves the time of the creation as it is. -/
theorem write_stampModified_created (hcreated : Entries.get? data "created" = none)
    (hmodified : Entries.get? data "modified" = none) :
    held.write (stampModified now data) "created" = held "created" := by
  rw [stampModified, Held.write_set hmodified, Function.update_of_ne (by decide),
    Held.write_apply_of_get? hcreated]

theorem get?_set_created (hmodified : Entries.get? data "modified" = none) :
    Entries.get? (Entries.set "created" now data) "modified" = none := by
  rw [Entries.get?, Entries.set, Association.lookup_put_of_ne (by decide)]
  exact hmodified

theorem write_stampCreated (hmodified : Entries.get? data "modified" = none) :
    held.write (stampCreated now data) "modified" = some now :=
  write_stampModified (get?_set_created hmodified)

theorem write_stampCreated_created (hcreated : Entries.get? data "created" = none)
    (hmodified : Entries.get? data "modified" = none) :
    held.write (stampCreated now data) "created" = some now := by
  rw [stampCreated, stampModified, Held.write_set (get?_set_created hmodified),
    Function.update_of_ne (by decide), Held.write_set hcreated, Function.update_self]

end Stamps

variable [DecidableEq Key]

/-- What the records can become by a call, as its event tells. -/
inductive Effect (w : σ) (event : Event Key Instant) : (Key → Option Held) → Prop where
  | nothing (hnone : ∀ key, ¬ event.writes key) : Effect w event (view.stored w)
  | created {key : Key} {held : Held} (hcreates : event.creates key)
      (hcreated : held "created" = some (view.datum event.instant))
      (hmodified : held "modified" = some (view.datum event.instant)) :
      Effect w event (Function.update (view.stored w) key (some held))
  | changed {key : Key} {old held : Held} (hold : view.stored w key = some old)
      (hwrites : event.writes key) (hnot : ¬ event.creates key)
      (hcreated : held "created" = old "created")
      (hmodified : held "modified" = some (view.datum event.instant)) :
      Effect w event (Function.update (view.stored w) key (some held))
  | removed {key : Key} (hnone : ∀ key, ¬ event.writes key) :
      Effect w event (Function.update (view.stored w) key none)

variable [Preorder Instant]

/-- A call has the effect that its event tells, and looks at the clock in between. -/
structure Acts (w : σ) (call : Call κ) : Prop where
  effect : ∃ stored, view.Leads w (binding.perform w call).2 stored ∧
    Effect view w (binding.event view w call) stored
  time_le_instant : view.time w ≤ (binding.event view w call).instant
  instant_le_time : (binding.event view w call).instant ≤ view.time (binding.perform w call).2

section Acting

variable {binding view} {w : σ} {call : Call κ} (hserves : view.Serves binding)
  (htimes : binding.timestamps = true)

include htimes

omit [Preorder Instant] in
/-- What a call writes is the effect that its event tells, if the data has no times of its own. -/
theorem Writes.effect (huntimed : call.Untimed) {stored : Key → Option Held}
    (hwrites : Writes binding view w call (binding.perform w call).1 stored) :
    Effect view w (binding.event view w call) stored := by
  obtain ⟨-, hcreated, hmodified⟩ := huntimed
  cases hwrites with
  | nothing hfailed => exact .nothing fun key => by simp [Event.writes, event, hfailed]
  | anew hdone hkey =>
      rw [stampedAt, if_pos htimes]
      apply Effect.created
      · rcases hkey with ⟨hcreate, hkey⟩ | ⟨hupsert, hkey, hmissing⟩
        · simp [Event.creates, event, hdone, hcreate, hkey]
        · simp [Event.creates, event, hdone, hupsert, hkey, hmissing]
      · exact write_stampCreated_created hcreated hmodified
      · exact write_stampCreated hmodified
  | changed hdone hoperation hkey hold =>
      rw [stampedAt, if_pos htimes]
      apply Effect.changed hold
      · rcases hoperation with h | h <;> simp [Event.writes, event, hdone, h, hkey]
      · rcases hoperation with h | h <;> simp [Event.creates, event, h, hkey, hold]
      · exact write_stampModified_created hcreated hmodified
      · exact write_stampModified hmodified
  | removed hdelete => exact .removed fun key => by simp [Event.writes, event, hdelete]

include hserves

/-- Every call that writes has the effect that its event tells. -/
theorem acts_of_untimed (hw : view.Valid w) (huntimed : call.Untimed) :
    binding.Acts view w call := by
  obtain ⟨hlooking, stored, hlead, hwrites⟩ :=
    leaves_of_mutation hserves hw huntimed.operation_mem
  exact ⟨⟨stored, hlooking.trans hlead, hwrites.effect htimes huntimed⟩, hlooking.time_le,
    hlead.time_le⟩

end Acting

end RecordBinding

end RecordApi
