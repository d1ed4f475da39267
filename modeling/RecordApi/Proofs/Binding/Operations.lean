import RecordApi.Binding.Operation
import RecordApi.Proofs.Actions

/-!
# Running operations

What the operations that write come to, once the collection has been acquired and the record looked
for. With times kept, data is stamped with what the clock answers.
-/

namespace RecordApi.RecordBinding

open RecordApi.Action

variable {σ κ : Type} {binding : RecordBinding σ κ} {w acquired looked : σ} {request : Option κ}
  {arguments : Datum.Entries} {collection : Collection σ} {now : Datum}

/-- The binding whose collections have another update. -/
def withUpdate (binding : RecordBinding σ κ)
    (change : Datum → Datum.Entries → Action σ Datum) : RecordBinding σ κ :=
  let exchange := fun collection : Collection σ => { collection with update := change }
  { binding with handle := { binding.handle with
      store := fun request => exchange <$> binding.handle.store request
      opened := binding.handle.opened.map exchange } }

theorem exec_of_unacquired {failure : Failure} {operation : Operation}
    (hacquire : exec (binding.handle.collection request) w = (.error failure, acquired)) :
    exec (binding.run operation request arguments) w = (.error failure, acquired) := by
  cases operation <;>
    simp [run, find, list, create, update, upsert, delete, hacquire]

variable (hacquire : exec (binding.handle.collection request) w = (.ok collection, acquired))

include hacquire

theorem exec_create {data : Datum.Entries}
    (hstamped : exec (binding.stamped stampCreated (dataOf arguments)) acquired =
      (.ok data, looked)) :
    exec (binding.create request arguments) w =
      exec (collection.create (binding.idOf arguments) data) looked := by
  simp [create, hacquire, hstamped]

theorem exec_collection_withUpdate (change : Datum → Datum.Entries → Action σ Datum) :
    exec ((binding.withUpdate change).handle.collection request) w =
      (.ok { collection with update := change }, acquired) := by
  rw [Handle.collection] at hacquire ⊢
  simp only [withUpdate, Handle.acquire] at hacquire ⊢
  cases hopened : binding.handle.opened with
  | none =>
      simp only [hopened] at hacquire
      simp [hacquire]
  | some opened =>
      simp only [hopened] at hacquire
      cases hacquire
      rfl

theorem exec_update_unfound {failure : Failure}
    (hfind : exec (collection.find (binding.idOf arguments)) acquired = (.error failure, looked)) :
    exec (binding.update request arguments) w = (.error failure, looked) := by
  simp [update, hacquire, hfind]

theorem exec_update_missing {found : Datum} (hmissing : found.isNull = true)
    (hfind : exec (collection.find (binding.idOf arguments)) acquired = (.ok found, looked)) :
    exec (binding.update request arguments) w =
      (.error (.noRecord binding.handle.descriptor.typeName (binding.idOf arguments).plainText),
        looked) := by
  simp [update, hacquire, hfind, hmissing]

theorem exec_update {found : Datum} {data : Datum.Entries} {after : σ}
    (hfound : found.isNull = false)
    (hfind : exec (collection.find (binding.idOf arguments)) acquired = (.ok found, looked))
    (hstamped : exec (binding.stamped stampModified (dataOf arguments)) looked =
      (.ok data, after)) :
    exec (binding.update request arguments) w =
      exec (collection.update (binding.idOf arguments) data) after := by
  simp [update, hacquire, hfind, hfound, hstamped]

theorem exec_upsert_unfound {failure : Failure} {after : σ} (htimes : binding.timestamps = true)
    (hnow : exec binding.now acquired = (.ok now, looked))
    (hfind : exec (collection.find (binding.idOf arguments)) looked = (.error failure, after)) :
    exec (binding.upsert request arguments) w = (.error failure, after) := by
  simp [upsert, hacquire, htimes, hnow, hfind]

theorem exec_upsert {found : Datum} {after : σ} (htimes : binding.timestamps = true)
    (hnow : exec binding.now acquired = (.ok now, looked))
    (hfind : exec (collection.find (binding.idOf arguments)) looked = (.ok found, after)) :
    exec (binding.upsert request arguments) w =
      exec (collection.upsert (binding.idOf arguments)
        (if found.isNull then stampCreated now (dataOf arguments)
          else stampModified now (dataOf arguments))) after := by
  simp [upsert, hacquire, htimes, hnow, hfind]

theorem exec_upsert_plain (htimes : binding.timestamps = false) :
    exec (binding.upsert request arguments) w =
      exec (collection.upsert (binding.idOf arguments) (dataOf arguments)) acquired := by
  simp [upsert, hacquire, htimes]

theorem exec_delete :
    exec (binding.delete request arguments) w =
      exec (collection.delete (binding.idOf arguments)) acquired := by
  simp [delete, hacquire]

end RecordApi.RecordBinding
