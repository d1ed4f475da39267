/-!
# Associations

Values under names, in the order in which the names were first written. The first value under a name
counts, and a value that is written again keeps its place. A lookup after a write answers the value
written, and under every other name what was there before.
-/

namespace RecordApi

/-- Values under names. -/
abbrev Association (α : Type) := List (String × α)

namespace Association

variable {α : Type}

/-- Writes a value under a key: in its place if the key is there, at the end otherwise. -/
def put (key : String) (value : α) : Association α → Association α
  | [] => [(key, value)]
  | entry :: rest => if entry.1 = key then (key, value) :: rest else entry :: put key value rest

/-- Changes the value under a key, if there is one. -/
def change (key : String) (f : α → α) : Association α → Association α
  | [] => []
  | entry :: rest =>
    if entry.1 = key then (entry.1, f entry.2) :: rest else entry :: change key f rest

/-- Writes all values of the second association into the first. -/
def putAll (entries more : Association α) : Association α :=
  more.foldl (fun done entry => put entry.1 entry.2 done) entries

theorem lookup_cons (name : String) (entry : String × α) (rest : Association α) :
    List.lookup name (entry :: rest) =
      if name = entry.1 then some entry.2 else List.lookup name rest := by
  obtain ⟨key, value⟩ := entry
  rw [List.lookup_cons]
  by_cases h : name = key
  · simp [h]
  · simp [h, beq_false_of_ne h]

theorem lookup_put (key name : String) (value : α) (entries : Association α) :
    (put key value entries).lookup name =
      if name = key then some value else entries.lookup name := by
  induction entries with
  | nil => simp [put, lookup_cons]
  | cons entry rest ih =>
    by_cases hk : entry.1 = key
    · by_cases h : name = key <;> simp [put, lookup_cons, hk, h]
    · by_cases h : name = entry.1 <;> simp [put, lookup_cons, hk, h, ih]

@[simp] theorem lookup_put_self (key : String) (value : α) (entries : Association α) :
    (put key value entries).lookup key = some value := by
  simp [lookup_put]

theorem lookup_put_of_ne {key name : String} (h : name ≠ key) (value : α)
    (entries : Association α) :
    (put key value entries).lookup name = entries.lookup name := by
  simp [lookup_put, h]

/-- A write keeps the keys that are there in their order, and adds a new key at the end. -/
theorem keys_put (key : String) (value : α) (entries : Association α) :
    (put key value entries).map Prod.fst =
      if key ∈ entries.map Prod.fst then entries.map Prod.fst
      else entries.map Prod.fst ++ [key] := by
  induction entries with
  | nil => simp [put]
  | cons entry rest ih =>
    by_cases hk : entry.1 = key
    · simp [put, hk]
    · have hn : key ≠ entry.1 := fun h => hk h.symm
      by_cases hm : key ∈ rest.map Prod.fst
      · rw [if_pos hm] at ih
        rw [if_pos (by simp only [List.map_cons, List.mem_cons]; exact .inr hm)]
        simp only [put, if_neg hk, List.map_cons, ih]
      · rw [if_neg hm] at ih
        rw [if_neg (by simp only [List.map_cons, List.mem_cons, not_or]; exact ⟨hn, hm⟩)]
        simp only [put, if_neg hk, List.map_cons, ih, List.cons_append]

theorem key_mem_put (key : String) (value : α) (entries : Association α) :
    key ∈ (put key value entries).map Prod.fst := by
  rw [keys_put]
  split
  · assumption
  · exact List.mem_append_right _ List.mem_cons_self

theorem mem_keys_put {name : String} {entries : Association α} (h : name ∈ entries.map Prod.fst)
    (key : String) (value : α) : name ∈ (put key value entries).map Prod.fst := by
  rw [keys_put]
  split
  · exact h
  · exact List.mem_append_left _ h

theorem mem_of_mem_put {key : String} {value : α} {entries : Association α} {x : String × α}
    (h : x ∈ put key value entries) : x = (key, value) ∨ x ∈ entries := by
  induction entries with
  | nil => exact .inl (List.mem_singleton.mp h)
  | cons entry rest ih =>
    rw [put] at h
    split at h
    · rcases List.mem_cons.mp h with rfl | h
      · exact .inl rfl
      · exact .inr (List.mem_cons_of_mem _ h)
    · rcases List.mem_cons.mp h with rfl | h
      · exact .inr List.mem_cons_self
      · exact (ih h).imp_right (List.mem_cons_of_mem _)

theorem mem_of_mem_change {key : String} {f : α → α} {entries : Association α} {x : String × α}
    (h : x ∈ change key f entries) : x ∈ entries ∨ ∃ value, (key, value) ∈ entries ∧
      x = (key, f value) := by
  induction entries with
  | nil => exact .inl h
  | cons entry rest ih =>
    rw [change] at h
    split at h
    · next hkey =>
      rcases List.mem_cons.mp h with rfl | h
      · exact .inr ⟨entry.2, hkey ▸ List.mem_cons_self, by rw [hkey]⟩
      · exact .inl (List.mem_cons_of_mem _ h)
    · rcases List.mem_cons.mp h with rfl | h
      · exact .inl List.mem_cons_self
      · obtain h | ⟨value, hvalue, rfl⟩ := ih h
        · exact .inl (List.mem_cons_of_mem _ h)
        · exact .inr ⟨value, List.mem_cons_of_mem _ hvalue, rfl⟩

@[simp] theorem keys_change (key : String) (f : α → α) (entries : Association α) :
    (change key f entries).map Prod.fst = entries.map Prod.fst := by
  induction entries with
  | nil => rfl
  | cons entry rest ih => by_cases hk : entry.1 = key <;> simp_all [change]

theorem lookup_change (key name : String) (f : α → α) (entries : Association α) :
    (change key f entries).lookup name =
      if name = key then (entries.lookup name).map f else entries.lookup name := by
  induction entries with
  | nil => simp [change]
  | cons entry rest ih =>
    by_cases hk : entry.1 = key
    · by_cases h : name = key <;> simp [change, lookup_cons, hk, h]
    · by_cases h : name = entry.1 <;> simp [change, lookup_cons, hk, h, ih]

theorem lookup_eq_none {name : String} {entries : Association α}
    (h : name ∉ entries.map Prod.fst) : entries.lookup name = none := by
  induction entries with
  | nil => rfl
  | cons entry rest ih =>
      rw [List.map_cons, List.mem_cons, not_or] at h
      rw [lookup_cons, if_neg h.1, ih h.2]

theorem mem_of_lookup {name : String} {value : α} {entries : Association α}
    (h : entries.lookup name = some value) : (name, value) ∈ entries := by
  induction entries with
  | nil => cases h
  | cons entry rest ih =>
      rw [lookup_cons] at h
      split at h
      · next hname =>
          obtain rfl := Option.some.inj h
          exact hname ▸ List.mem_cons_self
      · exact List.mem_cons_of_mem entry (ih h)

/-- Where all keys are different, the value under a key is the one that stands with it. -/
theorem lookup_eq_some_iff {name : String} {value : α} {entries : Association α}
    (h : (entries.map Prod.fst).Nodup) :
    entries.lookup name = some value ↔ (name, value) ∈ entries := by
  refine ⟨mem_of_lookup, fun hmem => ?_⟩
  induction entries with
  | nil => cases hmem
  | cons entry rest ih =>
      obtain ⟨hnew, hrest⟩ := List.nodup_cons.mp h
      rw [lookup_cons]
      rcases List.mem_cons.mp hmem with rfl | hmem
      · exact if_pos rfl
      · have hne : name ≠ entry.1 := by
          rintro rfl
          exact hnew (List.mem_map.mpr ⟨(entry.1, value), hmem, rfl⟩)
        rw [if_neg hne]
        exact ih hrest hmem

theorem nodup_keys_put {entries : Association α} (h : (entries.map Prod.fst).Nodup) (key : String)
    (value : α) : ((put key value entries).map Prod.fst).Nodup := by
  rw [keys_put]
  split
  · exact h
  · next hnew =>
      refine List.nodup_append.mpr ⟨h, List.pairwise_singleton _ key, ?_⟩
      rintro other hother _ hmem rfl
      exact hnew (List.mem_singleton.mp hmem ▸ hother)

/-- Where all keys are different, writing an association into another lets it count first. -/
theorem lookup_putAll {more : Association α} (h : (more.map Prod.fst).Nodup)
    (entries : Association α) (name : String) :
    (putAll entries more).lookup name = (more.lookup name).or (entries.lookup name) := by
  induction more generalizing entries with
  | nil => rfl
  | cons entry rest ih =>
      obtain ⟨hnew, hrest⟩ := List.nodup_cons.mp h
      have hstep : putAll entries (entry :: rest) = putAll (put entry.1 entry.2 entries) rest := rfl
      rw [hstep, ih hrest, lookup_put, lookup_cons]
      by_cases hname : name = entry.1
      · rw [if_pos hname, if_pos hname, lookup_eq_none (hname ▸ hnew)]
        rfl
      · rw [if_neg hname, if_neg hname]

end Association

end RecordApi
