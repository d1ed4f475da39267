import RecordApi.Merge

/-!
# What merged documents hold

What holds of all definitions of some documents, and of two definitions that are combined, holds of
all definitions of the merged document. What a key stands for is told from the definitions of that
key alone, in their order.
-/

namespace RecordApi.Merge

open RecordApi.Language

/-! ## Members by name -/

theorem mem_of_mem_putByName {α : Type} {name : α → String} {item x : α} {items : List α}
    (h : x ∈ putByName name item items) : x = item ∨ x ∈ items := by
  induction items with
  | nil => simpa [putByName] using h
  | cons other rest ih =>
      unfold putByName at h
      split at h
      · rcases List.mem_cons.mp h with rfl | h
        · exact .inl rfl
        · exact .inr (List.mem_cons_of_mem other h)
      · rcases List.mem_cons.mp h with rfl | h
        · exact .inr List.mem_cons_self
        · exact (ih h).imp_right (List.mem_cons_of_mem other)

theorem mem_of_mem_nameMerge {α : Type} {name : α → String} {x : α} {first second : List α}
    (h : x ∈ nameMerge name first second) : x ∈ first ∨ x ∈ second := by
  induction second generalizing first with
  | nil => exact .inl h
  | cons item rest ih =>
      rcases ih h with h | h
      · rcases mem_of_mem_putByName h with rfl | h
        · exact .inr List.mem_cons_self
        · exact .inl h
      · exact .inr (List.mem_cons_of_mem item h)

theorem mem_putByName_of_mem {α : Type} {name : α → String} {item x : α} {items : List α}
    (hx : x ∈ items) (hsame : name item = name x → item = x) : x ∈ putByName name item items := by
  induction items with
  | nil => simp at hx
  | cons other rest ih =>
      unfold putByName
      split
      · next h =>
          rcases List.mem_cons.mp hx with rfl | hx
          · exact hsame h.1.symm ▸ List.mem_cons_self
          · exact List.mem_cons_of_mem item hx
      · rcases List.mem_cons.mp hx with rfl | hx
        · exact List.mem_cons_self
        · exact List.mem_cons_of_mem other (ih hx)

/-- An item stays in a merged list if the second list has no other item of its name. -/
theorem mem_nameMerge {α : Type} {name : α → String} {x : α} {first second : List α}
    (hsame : ∀ y ∈ second, name y = name x → y = x) (h : x ∈ first ∨ x ∈ second) :
    x ∈ nameMerge name first second := by
  induction second generalizing first with
  | nil => simpa using h
  | cons item rest ih =>
      obtain ⟨hitem, hrest⟩ := List.forall_mem_cons.mp hsame
      apply ih hrest
      rcases h with h | h
      · exact .inl (mem_putByName_of_mem h hitem)
      · rcases List.mem_cons.mp h with rfl | h
        · exact .inl (mem_putByName name x first)
        · exact .inr h

/-! ## Definitions by key -/

theorem key?_combine {policy : MergePolicy} {key : String} {later : Definition}
    (h : key? later = some key) (earlier : Definition) :
    key? (combine policy key earlier later) = some key := by
  cases policy with
  | override => exact h
  | fieldUnion => rfl

/-- A definition with a key leaves the extensions in a merged list as they are. -/
theorem extensions_absorb {policy : MergePolicy} {key : String} {d : Definition}
    (hd : key? d = some key) (merged : List Definition) :
    (absorb policy key d merged).filter (fun e => (key? e).isNone) =
      merged.filter fun e => (key? e).isNone := by
  induction merged with
  | nil => simp [absorb, hd]
  | cons earlier rest ih =>
      unfold absorb
      split
      · next hearlier => simp [hearlier, key?_combine hd]
      · rw [List.filter_cons, List.filter_cons, ih]

/-- Merging puts the extensions that are added behind those that are there, in their order. -/
theorem extensions_foldl_add (table : PolicyTable) (definitions merged : List Definition) :
    (definitions.foldl (add table) merged).filter (fun e => (key? e).isNone) =
      (merged ++ definitions).filter fun e => (key? e).isNone := by
  induction definitions generalizing merged with
  | nil => rw [List.foldl_nil, List.append_nil]
  | cons d rest ih =>
      rw [List.foldl_cons, ih, List.filter_append, List.filter_append, List.filter_cons]
      cases hd : key? d with
      | none => simp [add, hd]
      | some key => simp [add, hd, extensions_absorb hd]

theorem mergeDefinitions_cons_of_ne_nil (table : PolicyTable) {first : List Definition}
    (h : first ≠ []) (rest : List (List Definition)) :
    mergeDefinitions table (first :: rest) = rest.flatten.foldl (add table) first := by
  cases first with
  | nil => exact absurd rfl h
  | cons e more => rfl

section Kept

variable {table : PolicyTable} {good : Definition → Prop}
  (hcombine : ∀ policy key earlier later, key? earlier = some key → key? later = some key →
    good earlier → good later → good (combine policy key earlier later))

include hcombine

theorem forall_absorb {policy : MergePolicy} {key : String} {d : Definition}
    (hdkey : key? d = some key) (hd : good d) {merged : List Definition}
    (h : ∀ e ∈ merged, good e) :
    ∀ e ∈ absorb policy key d merged, good e := by
  induction merged with
  | nil => simpa [absorb] using hd
  | cons earlier rest ih =>
      obtain ⟨hearlier, hrest⟩ := List.forall_mem_cons.mp h
      unfold absorb
      split
      · next hkey =>
          exact List.forall_mem_cons.mpr ⟨hcombine _ _ _ _ hkey hdkey hearlier hd, hrest⟩
      · exact List.forall_mem_cons.mpr ⟨hearlier, ih hrest⟩

theorem forall_add {d : Definition} (hd : good d) {merged : List Definition}
    (h : ∀ e ∈ merged, good e) : ∀ e ∈ add table merged d, good e := by
  unfold add
  split
  · simpa [or_imp, forall_and] using ⟨h, hd⟩
  · next hdkey => exact forall_absorb hcombine hdkey hd h

theorem forall_foldl_add {definitions merged : List Definition}
    (hdefinitions : ∀ d ∈ definitions, good d) (h : ∀ e ∈ merged, good e) :
    ∀ e ∈ definitions.foldl (add table) merged, good e := by
  induction definitions generalizing merged with
  | nil => exact h
  | cons d rest ih =>
      obtain ⟨hd, hrest⟩ := List.forall_mem_cons.mp hdefinitions
      exact ih hrest (forall_add hcombine hd h)

/-- What combining keeps, merging keeps. -/
theorem forall_mergeDefinitions {lists : List (List Definition)}
    (h : ∀ list ∈ lists, ∀ d ∈ list, good d) : ∀ d ∈ mergeDefinitions table lists, good d := by
  induction lists with
  | nil => simp [mergeDefinitions]
  | cons first rest ih =>
      obtain ⟨hfirst, hrest⟩ := List.forall_mem_cons.mp h
      by_cases hempty : first = []
      · rw [hempty, mergeDefinitions_nil_cons]
        exact ih hrest
      · rw [mergeDefinitions_cons_of_ne_nil table hempty]
        refine forall_foldl_add hcombine (fun d hd => ?_) hfirst
        obtain ⟨list, hlist, hd⟩ := List.mem_flatten.mp hd
        exact hrest list hlist d hd

/-- What combining keeps holds of the merged document. -/
theorem forall_mergeDocuments {documents : List Document} {merged : Document}
    (h : ∀ document ∈ documents, ∀ d ∈ document.definitions, good d)
    (hmerged : mergeDocuments table documents = .ok merged) : ∀ d ∈ merged.definitions, good d := by
  unfold mergeDocuments at hmerged
  dsimp only at hmerged
  split at hmerged
  · simp at hmerged
  · obtain rfl := Except.ok.inj hmerged
    apply forall_mergeDefinitions hcombine
    intro list hlist
    obtain ⟨document, hdocument, rfl⟩ := List.mem_map.mp hlist
    exact h document hdocument

end Kept

/-! ## What a key stands for -/

/-- What a key stands for once one more definition has been added. -/
def united (table : PolicyTable) (key : String) (found : Option Definition) (d : Definition) :
    Option Definition :=
  if key? d = some key then
    some (match found with
      | some e => combine (policyOf table key) key e d
      | none => d)
  else found

theorem find?_absorb {policy : MergePolicy} {key : String} {d : Definition}
    (hd : key? d = some key) (merged : List Definition) (other : String) :
    (absorb policy key d merged).find? (key? · == some other) =
      if other = key then
        some (match merged.find? (key? · == some key) with
          | some e => combine policy key e d
          | none => d)
      else merged.find? (key? · == some other) := by
  induction merged with
  | nil =>
      by_cases h : other = key
      · simp [absorb, hd, h]
      · simp [absorb, hd, h, Ne.symm h]
  | cons e rest ih =>
      rw [absorb]
      split
      · next he =>
          by_cases h : other = key
          · subst h
            simp [he, key?_combine hd e]
          · have hkey : key ≠ other := Ne.symm h
            simp [he, key?_combine hd e, h, hkey]
      · next he =>
          by_cases h : other = key
          · subst h
            simp [he, ih]
          · simp only [List.find?_cons, ih, if_neg h]

theorem find?_add (table : PolicyTable) (key : String) (merged : List Definition)
    (d : Definition) :
    (add table merged d).find? (key? · == some key) =
      united table key (merged.find? (key? · == some key)) d := by
  unfold add united
  split
  · next hd => simp [hd, List.find?_append]
  · next other hd =>
      rw [find?_absorb hd]
      by_cases h : key = other
      · subst h
        simp [hd]
      · simp [h, hd, Ne.symm h]

theorem find?_foldl_add (table : PolicyTable) (key : String)
    (definitions merged : List Definition) :
    (definitions.foldl (add table) merged).find? (key? · == some key) =
      definitions.foldl (united table key) (merged.find? (key? · == some key)) := by
  induction definitions generalizing merged with
  | nil => rfl
  | cons d rest ih => rw [List.foldl_cons, ih, find?_add, List.foldl_cons]

/-- A definition stands for its key if all later ones of that key are the same and override. -/
theorem foldl_united_of_last {table : PolicyTable} {key : String} {d : Definition}
    (hpolicy : policyOf table key = .override) (hd : key? d = some key)
    {definitions : List Definition} (hsame : ∀ e ∈ definitions, key? e = some key → e = d)
    {found : Option Definition} (h : found = some d ∨ d ∈ definitions) :
    definitions.foldl (united table key) found = some d := by
  induction definitions generalizing found with
  | nil => simpa using h
  | cons e rest ih =>
      obtain ⟨he, hrest⟩ := List.forall_mem_cons.mp hsame
      apply ih hrest
      by_cases hkey : key? e = some key
      · obtain rfl := he hkey
        left
        simp only [united, hkey, if_true, hpolicy]
        cases found <;> rfl
      · have hne : d ≠ e := by
          rintro rfl
          exact hkey hd
        simpa [united, hkey, hne] using h

/-- Whether a definition is an object type with a field. -/
def Offers (d : Definition) (f : FieldDef) : Prop :=
  ∃ t interfaces fields, d = .type t ∧ t.body = .object interfaces fields ∧ f ∈ fields

theorem Offers.mem_fields {d : Definition} {f : FieldDef} (h : Offers d f) : f ∈ d.fields := by
  obtain ⟨⟨_, _, _, _⟩, interfaces, fields, rfl, rfl, hf⟩ := h
  exact hf

theorem offers_fieldUnion {key : String} {earlier later : Definition} {f : FieldDef}
    (hsame : ∀ g ∈ later.fields, g.name = f.name → g = f)
    (h : f ∈ earlier.fields ∨ f ∈ later.fields) : Offers (fieldUnion key earlier later) f :=
  ⟨_, _, _, rfl, rfl, mem_nameMerge hsame h⟩

/-- A definition that offers a field still offers it when it is added under its key. -/
theorem offers_united {table : PolicyTable} {key : String} {f : FieldDef} {d : Definition}
    (hkey : key? d = some key) (hd : Offers d f) (hsame : ∀ g ∈ d.fields, g.name = f.name → g = f)
    (found : Option Definition) : ∃ e, united table key found d = some e ∧ Offers e f := by
  simp only [united, hkey, if_true]
  cases found with
  | none => exact ⟨d, rfl, hd⟩
  | some e =>
      cases hpolicy : policyOf table key with
      | override => exact ⟨d, rfl, hd⟩
      | fieldUnion => exact ⟨_, rfl, offers_fieldUnion hsame (.inr hd.mem_fields)⟩

/-- What a key stands for goes on offering a field if all later definitions of the key are united
with it and have no field of that name. -/
theorem offers_foldl_united {table : PolicyTable} {key : String} {f : FieldDef}
    {definitions : List Definition}
    (hlater : ∀ d ∈ definitions, key? d = some key →
      policyOf table key = .fieldUnion ∧ ∀ g ∈ d.fields, g.name ≠ f.name)
    {found : Option Definition} (h : ∃ e, found = some e ∧ Offers e f) :
    ∃ e, definitions.foldl (united table key) found = some e ∧ Offers e f := by
  induction definitions generalizing found with
  | nil => exact h
  | cons d rest ih =>
      obtain ⟨hd, hrest⟩ := List.forall_mem_cons.mp hlater
      apply ih hrest
      obtain ⟨e, rfl, he⟩ := h
      by_cases hkey : key? d = some key
      · obtain ⟨hpolicy, hother⟩ := hd hkey
        simp only [united, hkey, if_true, hpolicy]
        refine ⟨_, rfl, offers_fieldUnion (fun g hg hname => ?_) (.inl he.mem_fields)⟩
        exact absurd hname (hother g hg)
      · exact ⟨e, by simp [united, hkey], he⟩

end RecordApi.Merge
