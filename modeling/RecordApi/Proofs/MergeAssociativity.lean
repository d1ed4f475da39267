import RecordApi.Proofs.Merging

/-!
# Merging is associative

Three documents give one result, whichever two of them are merged first. Definitions by key and
members by name are both folded in, and for both kinds of step it is enough that a step on the
second list may be taken behind the fold instead.

The middle document must not declare a key twice. It is kept as it is when it comes first, and
folded when it does not.
-/

namespace RecordApi

open RecordApi.Language

namespace Merge

/-- A fold is associative when a step on the second list may be taken behind the fold instead. -/
theorem foldl_foldl_of_step {α : Type} {step : List α → α → List α} {first : List α}
    (Good : List α → Prop)
    (hstep : ∀ items item, Good items →
      (step items item).foldl step first = step (items.foldl step first) item)
    (hgood : ∀ items item, Good items → Good (step items item)) (second third : List α)
    (hsecond : Good second) :
    (third.foldl step second).foldl step first =
      third.foldl step (second.foldl step first) := by
  induction third generalizing second with
  | nil => rfl
  | cons item rest ih =>
      rw [List.foldl_cons, ih _ (hgood second item hsecond), hstep second item hsecond]
      rfl

/-! ## Members by name -/

section ByName

variable {α : Type} {name : α → String}

/-- Whether an item of a list has a name. -/
def HasName (name : α → String) (n : String) (items : List α) : Prop :=
  ∃ x ∈ items, name x = n

theorem hasName_cons {n : String} {x : α} {rest : List α} :
    HasName name n (x :: rest) ↔ name x = n ∨ HasName name n rest := by
  simp [HasName]

theorem putByName_cons_of_mem {item : α} {rest : List α} (h : HasName name (name item) rest)
    (x : α) : putByName name item (x :: rest) = x :: putByName name item rest := by
  obtain ⟨y, hy, hn⟩ := h
  have hsome : ¬ (rest.all fun y => name y ≠ name item) = true := by
    simpa using ⟨y, hy, hn⟩
  rw [putByName, if_neg fun h => hsome h.2]

theorem putByName_cons_of_last {item x : α} {rest : List α} (hx : name x = name item)
    (h : ¬ HasName name (name item) rest) :
    putByName name item (x :: rest) = item :: rest := by
  have hall : (rest.all fun y => name y ≠ name item) = true := by
    simpa [HasName] using h
  rw [putByName, if_pos ⟨hx, hall⟩]

theorem putByName_cons_of_ne {item x : α} (hx : name x ≠ name item) (rest : List α) :
    putByName name item (x :: rest) = x :: putByName name item rest := by
  rw [putByName, if_neg fun h => hx h.1]

theorem hasName_putByName {n : String} {item : α} {items : List α} :
    HasName name n (putByName name item items) ↔ name item = n ∨ HasName name n items := by
  induction items with
  | nil => simp [putByName, HasName]
  | cons x rest ih =>
      by_cases hrest : HasName name (name item) rest
      · rw [putByName_cons_of_mem hrest, hasName_cons, ih, hasName_cons, or_left_comm]
      · by_cases hx : name x = name item
        · rw [putByName_cons_of_last hx hrest, hasName_cons, hasName_cons, hx, or_self_left]
        · rw [putByName_cons_of_ne hx, hasName_cons, ih, hasName_cons, or_left_comm]

/-- An item put over one of its own name leaves no trace of it. -/
theorem putByName_putByName_self {item other : α} (h : name other = name item)
    (items : List α) :
    putByName name item (putByName name other items) = putByName name item items := by
  induction items with
  | nil => exact putByName_cons_of_last h (by simp [HasName])
  | cons x rest ih =>
      have hput : HasName name (name item) (putByName name other rest) :=
        hasName_putByName.mpr (Or.inl h)
      by_cases hrest : HasName name (name item) rest
      · have hrest' : HasName name (name other) rest := h ▸ hrest
        rw [putByName_cons_of_mem hrest', putByName_cons_of_mem hput, ih,
          putByName_cons_of_mem hrest]
      · by_cases hx : name x = name item
        · rw [putByName_cons_of_last (hx.trans h.symm) (h ▸ hrest),
            putByName_cons_of_last h hrest, putByName_cons_of_last hx hrest]
        · rw [putByName_cons_of_ne (h ▸ hx), putByName_cons_of_mem hput, ih,
            putByName_cons_of_ne hx]

/-- Items of different names may be put in either order once one of the names is there. -/
theorem putByName_comm {item other : α} {items : List α} (h : name other ≠ name item)
    (hin : HasName name (name item) items) :
    putByName name item (putByName name other items) =
      putByName name other (putByName name item items) := by
  induction items with
  | nil => simp [HasName] at hin
  | cons x rest ih =>
      have hother : HasName name (name other) (putByName name item rest) ↔
          HasName name (name other) rest := by
        rw [hasName_putByName, or_iff_right h.symm]
      have hitem : HasName name (name item) (putByName name other rest) ↔
          HasName name (name item) rest := by
        rw [hasName_putByName, or_iff_right h]
      by_cases hrest : HasName name (name item) rest
      · rw [putByName_cons_of_mem hrest]
        by_cases hx : name x = name other ∧ ¬ HasName name (name other) rest
        · rw [putByName_cons_of_last hx.1 hx.2, putByName_cons_of_mem hrest,
            putByName_cons_of_last hx.1 fun hn => hx.2 (hother.mp hn)]
        · have hkeep (rest' : List α)
              (hr : HasName name (name other) rest' ↔ HasName name (name other) rest) :
              putByName name other (x :: rest') = x :: putByName name other rest' := by
            by_cases hn : name x = name other
            · exact putByName_cons_of_mem (hr.mpr (by simpa [hn] using hx)) x
            · exact putByName_cons_of_ne hn rest'
          rw [hkeep rest Iff.rfl, hkeep _ hother, putByName_cons_of_mem (hitem.mpr hrest), ih hrest]
      · have hx : name x = name item := (hasName_cons.mp hin).resolve_right hrest
        rw [putByName_cons_of_last hx hrest, putByName_cons_of_ne (hx ▸ h.symm),
          putByName_cons_of_last hx fun hn => hrest (hitem.mp hn), putByName_cons_of_ne h.symm]

theorem putByName_nameMerge {item : α} {merged rest : List α}
    (hin : HasName name (name item) merged) (hrest : ¬ HasName name (name item) rest) :
    putByName name item (nameMerge name merged rest) =
      nameMerge name (putByName name item merged) rest := by
  induction rest generalizing merged with
  | nil => rfl
  | cons x rest ih =>
      rw [hasName_cons, not_or] at hrest
      have hin' : HasName name (name item) (putByName name x merged) :=
        hasName_putByName.mpr (Or.inr hin)
      calc
        putByName name item (nameMerge name (putByName name x merged) rest) =
            nameMerge name (putByName name item (putByName name x merged)) rest :=
          ih hin' hrest.2
        _ = nameMerge name (putByName name x (putByName name item merged)) rest := by
          rw [putByName_comm hrest.1 hin]

/-- A step on the second list may be taken behind the union instead. -/
theorem nameMerge_putByName (first : List α) (items : List α) (item : α) :
    nameMerge name first (putByName name item items) =
      putByName name item (nameMerge name first items) := by
  induction items generalizing first with
  | nil => rfl
  | cons x rest ih =>
      by_cases hrest : HasName name (name item) rest
      · rw [putByName_cons_of_mem hrest]
        exact ih (putByName name x first)
      · by_cases hx : name x = name item
        · have hin : HasName name (name item) (putByName name x first) :=
            hasName_putByName.mpr (Or.inl hx)
          rw [putByName_cons_of_last hx hrest]
          calc
            nameMerge name (putByName name item first) rest =
                nameMerge name (putByName name item (putByName name x first)) rest := by
              rw [putByName_putByName_self hx]
            _ = putByName name item (nameMerge name (putByName name x first) rest) :=
              (putByName_nameMerge hin hrest).symm
        · rw [putByName_cons_of_ne hx]
          exact ih (putByName name x first)

theorem nameMerge_assoc (first second third : List α) :
    nameMerge name (nameMerge name first second) third =
      nameMerge name first (nameMerge name second third) :=
  (foldl_foldl_of_step (fun _ => True)
    (fun items item _ => nameMerge_putByName first items item) (fun _ _ _ => trivial)
    second third trivial).symm

end ByName

/-! ## Definitions by key -/

/-- Whether a definition of a list has a key. -/
def HasKey (key : String) (merged : List Definition) : Prop :=
  ∃ d ∈ merged, key? d = some key

theorem hasKey_cons {key : String} {e : Definition} {rest : List Definition} :
    HasKey key (e :: rest) ↔ key? e = some key ∨ HasKey key rest := by
  simp [HasKey]

/-- No two definitions of a list have the same key. -/
def UniqueKeys (definitions : List Definition) : Prop :=
  (definitions.filterMap key?).Nodup

instance (definitions : List Definition) : Decidable (UniqueKeys definitions) :=
  inferInstanceAs (Decidable (List.Nodup _))

theorem combine_assoc (policy : MergePolicy) (key : String) (first second third : Definition) :
    combine policy key (combine policy key first second) third =
      combine policy key first (combine policy key second third) := by
  cases policy with
  | override => rfl
  | fieldUnion =>
      simp [combine, fieldUnion, Definition.description, Definition.directives,
        Definition.interfaces, Definition.fields, nameMerge_assoc, Option.or_assoc]

/-- A definition that follows another of its key may be combined with that one first. -/
theorem absorb_absorb_self {policy : MergePolicy} {key : String} {d later : Definition}
    (hd : key? d = some key) (merged : List Definition) :
    absorb policy key later (absorb policy key d merged) =
      absorb policy key (combine policy key d later) merged := by
  induction merged with
  | nil => simp [absorb, hd]
  | cons e rest ih =>
      by_cases he : key? e = some key
      · rw [absorb, if_pos he, absorb, if_pos (key?_combine hd e), absorb, if_pos he,
          combine_assoc]
      · rw [absorb, if_neg he, absorb, if_neg he, ih, absorb, if_neg he]

theorem keys_absorb {policy : MergePolicy} {key : String} {d : Definition}
    (hd : key? d = some key) (merged : List Definition) :
    (absorb policy key d merged).filterMap key? =
      if key ∈ merged.filterMap key? then merged.filterMap key?
      else merged.filterMap key? ++ [key] := by
  induction merged with
  | nil => simp [absorb, hd]
  | cons e rest ih =>
      by_cases he : key? e = some key
      · simp [absorb, he, key?_combine hd e]
      · rw [absorb, if_neg he]
        cases hk : key? e with
        | none => simpa [hk] using ih
        | some other =>
            have hne : key ≠ other := fun h => he (h ▸ hk)
            simp only [List.filterMap_cons_some hk, List.mem_cons, hne, false_or, ih]
            split <;> rfl

section Fold

variable (table : PolicyTable)

theorem add_of_key {key : String} {d : Definition} (hd : key? d = some key)
    (merged : List Definition) :
    add table merged d = absorb (policyOf table key) key d merged := by
  rw [add, hd]

theorem add_of_extension {d : Definition} (hd : key? d = none) (merged : List Definition) :
    add table merged d = merged ++ [d] := by
  rw [add, hd]

theorem add_cons_of_eq {key : String} {d e : Definition} (hd : key? d = some key)
    (he : key? e = some key) (rest : List Definition) :
    add table (e :: rest) d = combine (policyOf table key) key e d :: rest := by
  rw [add_of_key table hd, absorb, if_pos he]

theorem add_cons_of_ne {d e : Definition}
    (h : ∀ key, key? d = some key → key? e ≠ some key) (rest : List Definition) :
    add table (e :: rest) d = e :: add table rest d := by
  cases hd : key? d with
  | none => rw [add_of_extension table hd, add_of_extension table hd, List.cons_append]
  | some key => rw [add_of_key table hd, add_of_key table hd, absorb, if_neg (h key hd)]

theorem hasKey_add {key : String} {d : Definition} {merged : List Definition} :
    HasKey key (add table merged d) ↔ key? d = some key ∨ HasKey key merged := by
  induction merged with
  | nil => cases hd : key? d <;> simp [add, absorb, HasKey, hd]
  | cons e rest ih =>
      by_cases hd : ∃ other, key? d = some other ∧ key? e = some other
      · obtain ⟨other, hd, he⟩ := hd
        rw [add_cons_of_eq table hd he, hasKey_cons, hasKey_cons, key?_combine hd e, hd, he,
          or_self_left]
      · rw [add_cons_of_ne table (fun other hd' he => hd ⟨other, hd', he⟩), hasKey_cons, ih,
          hasKey_cons, or_left_comm]

theorem hasKey_foldl_add {key : String} {definitions merged : List Definition} :
    HasKey key (definitions.foldl (add table) merged) ↔
      HasKey key definitions ∨ HasKey key merged := by
  induction definitions generalizing merged with
  | nil => simp [HasKey]
  | cons d rest ih => rw [List.foldl_cons, ih, hasKey_add, hasKey_cons, or_assoc, or_left_comm]

theorem uniqueKeys_add {d : Definition} {merged : List Definition} (h : UniqueKeys merged) :
    UniqueKeys (add table merged d) := by
  unfold UniqueKeys at *
  cases hd : key? d with
  | none => simpa [add_of_extension table hd, hd] using h
  | some key =>
      rw [add_of_key table hd, keys_absorb hd]
      split
      · exact h
      · next hnew =>
          refine List.nodup_append.mpr ⟨h, by simp, ?_⟩
          rintro x hx y hy rfl
          exact hnew (List.mem_singleton.mp hy ▸ hx)

/-- Definitions of different keys may be added in either order once one of the keys is there. -/
theorem add_comm {key : String} {d other : Definition} {merged : List Definition}
    (hd : key? d = some key) (hother : key? other ≠ some key) (hin : HasKey key merged) :
    add table (add table merged other) d = add table (add table merged d) other := by
  induction merged with
  | nil => simp [HasKey] at hin
  | cons e rest ih =>
      by_cases he : key? e = some key
      · have hne (e' : Definition) (he' : key? e' = some key) (k : String)
            (hk : key? other = some k) : key? e' ≠ some k :=
          fun h => hother (hk.trans (h.symm.trans he'))
        rw [add_cons_of_ne table (hne e he), add_cons_of_eq table hd he,
          add_cons_of_eq table hd he, add_cons_of_ne table (hne _ (key?_combine hd e))]
      · have hrest : HasKey key rest := (hasKey_cons.mp hin).resolve_left he
        have hkeep (e' : Definition) (he' : key? e' ≠ some key) (rest' : List Definition) :
            add table (e' :: rest') d = e' :: add table rest' d :=
          add_cons_of_ne table (fun k hk => Option.some.inj (hd.symm.trans hk) ▸ he') rest'
        rw [hkeep e he]
        by_cases hsame : ∃ k, key? other = some k ∧ key? e = some k
        · obtain ⟨k, hk, hek⟩ := hsame
          rw [add_cons_of_eq table hk hek, add_cons_of_eq table hk hek,
            hkeep _ (key?_combine hk e ▸ hk ▸ hother)]
        · have hne (k : String) (hk : key? other = some k) : key? e ≠ some k :=
            fun hek => hsame ⟨k, hk, hek⟩
          rw [add_cons_of_ne table hne, add_cons_of_ne table hne, hkeep e he, ih hrest]

theorem add_foldl_add {key : String} {d : Definition} {merged rest : List Definition}
    (hd : key? d = some key) (hin : HasKey key merged) (hrest : ¬ HasKey key rest) :
    add table (rest.foldl (add table) merged) d =
      rest.foldl (add table) (add table merged d) := by
  induction rest generalizing merged with
  | nil => rfl
  | cons e rest ih =>
      rw [hasKey_cons, not_or] at hrest
      rw [List.foldl_cons, ih ((hasKey_add table).mpr (Or.inr hin)) hrest.2,
        add_comm table hd hrest.1 hin]
      rfl

/-- A step on a second list without repeated keys may be taken behind the fold instead. -/
theorem foldl_add_add (first : List Definition) {merged : List Definition} (d : Definition)
    (h : UniqueKeys merged) :
    (add table merged d).foldl (add table) first =
      add table (merged.foldl (add table) first) d := by
  induction merged generalizing first with
  | nil => cases hd : key? d <;> simp [add, absorb, hd]
  | cons e rest ih =>
      have hrest : UniqueKeys rest := by
        unfold UniqueKeys at *
        cases he : key? e with
        | none => simpa [he] using h
        | some key =>
            rw [List.filterMap_cons_some he] at h
            exact (List.nodup_cons.mp h).2
      by_cases hsame : ∃ key, key? d = some key ∧ key? e = some key
      · obtain ⟨key, hd, he⟩ := hsame
        have hnew : ¬ HasKey key rest := by
          unfold UniqueKeys at h
          rw [List.filterMap_cons_some he, List.nodup_cons, List.mem_filterMap] at h
          exact h.1
        have hin : HasKey key (add table first e) := (hasKey_add table).mpr (Or.inl he)
        rw [add_cons_of_eq table hd he, List.foldl_cons, List.foldl_cons,
          add_foldl_add table hd hin hnew, add_of_key table (key?_combine hd e),
          add_of_key table he, add_of_key table hd, absorb_absorb_self he]
      · rw [add_cons_of_ne table fun key hd he => hsame ⟨key, hd, he⟩, List.foldl_cons,
          List.foldl_cons]
        exact ih (add table first e) hrest

theorem foldl_add_assoc (first third : List Definition) {second : List Definition}
    (h : UniqueKeys second) :
    (third.foldl (add table) second).foldl (add table) first =
      third.foldl (add table) (second.foldl (add table) first) :=
  foldl_foldl_of_step UniqueKeys (fun _ d hgood => foldl_add_add table first d hgood)
    (fun _ _ hgood => uniqueKeys_add table hgood) second third h

theorem add_ne_nil (merged : List Definition) (d : Definition) : add table merged d ≠ [] := by
  cases merged with
  | nil => cases hd : key? d <;> simp [add, absorb, hd]
  | cons e rest =>
      by_cases hsame : ∃ key, key? d = some key ∧ key? e = some key
      · obtain ⟨key, hd, he⟩ := hsame
        simp [add_cons_of_eq table hd he]
      · simp [add_cons_of_ne table fun key hd he => hsame ⟨key, hd, he⟩]

theorem foldl_add_ne_nil (definitions : List Definition) {merged : List Definition}
    (h : merged ≠ []) : definitions.foldl (add table) merged ≠ [] := by
  induction definitions generalizing merged with
  | nil => exact h
  | cons d rest ih => exact ih (add_ne_nil table merged d)

/-- Merging the first two of three lists first changes nothing. -/
theorem mergeDefinitions_left (a b c : List Definition) :
    mergeDefinitions table [mergeDefinitions table [a, b], c] =
      mergeDefinitions table [a, b, c] := by
  by_cases ha : a = []
  · simp [ha]
  · have hab := foldl_add_ne_nil table b ha
    simp [mergeDefinitions_cons_of_ne_nil table ha, mergeDefinitions_cons_of_ne_nil table hab]

/-- Merging the last two of three lists first changes nothing. -/
theorem mergeDefinitions_right (a : List Definition) {b : List Definition} (h : UniqueKeys b)
    (c : List Definition) :
    mergeDefinitions table [a, mergeDefinitions table [b, c]] =
      mergeDefinitions table [a, b, c] := by
  by_cases ha : a = []
  · simp [ha]
  · by_cases hb : b = []
    · simp [mergeDefinitions_cons_of_ne_nil table ha, hb]
    · simp [mergeDefinitions_cons_of_ne_nil table ha, mergeDefinitions_cons_of_ne_nil table hb,
        foldl_add_assoc table a c h]

end Fold

/-! ## Documents -/

/-- Whether every definition of a document that is merged by name has one. -/
def Named (document : Document) : Prop :=
  ∀ d ∈ document.definitions, isUnnamed d = false

instance (document : Document) : Decidable (Named document) :=
  inferInstanceAs (Decidable (∀ d ∈ document.definitions, isUnnamed d = false))

theorem isUnnamed_combine {policy : MergePolicy} {key : String} {earlier later : Definition}
    (h : isUnnamed later = false) : isUnnamed (combine policy key earlier later) = false := by
  cases policy with
  | override => exact h
  | fieldUnion => rfl

/-- Documents whose definitions are named can be merged. -/
theorem mergeDocuments_of_named (table : PolicyTable) {documents : List Document}
    (h : ∀ document ∈ documents, Named document) :
    mergeDocuments table documents =
      .ok (Document.ofDefinitions (mergeDefinitions table (documents.map (·.definitions)))) := by
  have hnone : (documents.map (·.definitions)).flatten.find? isUnnamed = none := by
    rw [List.find?_eq_none]
    intro d hd
    obtain ⟨list, hlist, hd⟩ := List.mem_flatten.mp hd
    obtain ⟨document, hdocument, rfl⟩ := List.mem_map.mp hlist
    simp [h document hdocument d hd]
  simp only [mergeDocuments, hnone]

theorem definitions_of_mergeDocuments {table : PolicyTable} {documents : List Document}
    {merged : Document} (h : mergeDocuments table documents = .ok merged) :
    merged.definitions = mergeDefinitions table (documents.map (·.definitions)) := by
  unfold mergeDocuments at h
  dsimp only at h
  split at h
  · cases h
  · obtain rfl := Except.ok.inj h
    rfl

theorem named_mergeDefinitions {table : PolicyTable} {documents : List Document}
    (h : ∀ document ∈ documents, Named document) :
    Named (Document.ofDefinitions (mergeDefinitions table (documents.map (·.definitions)))) := by
  refine forall_mergeDefinitions (fun _ _ _ _ _ _ _ hlater => isUnnamed_combine hlater)
    fun list hlist => ?_
  obtain ⟨document, hdocument, rfl⟩ := List.mem_map.mp hlist
  exact h document hdocument

theorem named_of_mergeDocuments {table : PolicyTable} {documents : List Document}
    {merged : Document} (h : mergeDocuments table documents = .ok merged) : Named merged := by
  unfold mergeDocuments at h
  dsimp only at h
  split at h
  · simp at h
  · next hnone =>
      obtain rfl := Except.ok.inj h
      apply named_mergeDefinitions
      intro document hdocument d hd
      rw [List.find?_eq_none] at hnone
      have hmem : d ∈ (documents.map (·.definitions)).flatten :=
        List.mem_flatten.mpr ⟨_, List.mem_map_of_mem hdocument, hd⟩
      simpa using hnone d hmem

/-- Three documents have one merged document, whichever two of them are merged first. -/
theorem mergeDocuments_assoc (table calls : PolicyTable) {a b c : Document} (ha : Named a)
    (hb : Named b) (hc : Named c) (hkeys : UniqueKeys b.definitions) :
    ∃ ab bc merged,
      mergeDocuments (calls ++ table) [a, b] = .ok ab ∧
      mergeDocuments (calls ++ table) [b, c] = .ok bc ∧
      mergeDocuments (calls ++ table) [a, b, c] = .ok merged ∧
      mergeDocuments (calls ++ table) [ab, c] = .ok merged ∧
      mergeDocuments (calls ++ table) [a, bc] = .ok merged := by
  have hab : ∀ document ∈ [a, b], Named document := by simp [ha, hb]
  have hbc : ∀ document ∈ [b, c], Named document := by simp [hb, hc]
  refine ⟨_, _, _, mergeDocuments_of_named _ hab, mergeDocuments_of_named _ hbc,
    mergeDocuments_of_named _ (by simp [ha, hb, hc]), ?_, ?_⟩
  · rw [mergeDocuments_of_named]
    · exact congrArg Except.ok (congrArg Document.ofDefinitions (mergeDefinitions_left _ _ _ _))
    · simpa [hc] using named_mergeDefinitions hab
  · rw [mergeDocuments_of_named]
    · exact congrArg Except.ok
        (congrArg Document.ofDefinitions (mergeDefinitions_right _ _ hkeys _))
    · simpa [ha] using named_mergeDefinitions hbc

/-- An object, an enumeration and an input type of one name unite in either order, beside schema
definitions and an extension. -/
theorem mergeDocuments_assoc_kinds :
    let field : FieldDef := ⟨none, "a", [], .named "Int", none, [], false⟩
    let member : InputDef := ⟨none, "a", .named "ID", none, []⟩
    let a := Document.ofDefinitions
      [.schema ⟨none, [], [⟨.query, "Query"⟩]⟩, .type ⟨none, "Query", [], .object ["Node"] [field]⟩]
    let b := Document.ofDefinitions
      [.typeExtension ⟨none, "Query", [], .object [] [field]⟩,
        .type ⟨some ⟨"Roots", false⟩, "Query", [⟨Pos.nowhere, "tag", []⟩], .enum []⟩]
    let c := Document.ofDefinitions
      [.type ⟨none, "Query", [], .input [member]⟩, .schema ⟨none, [], [⟨.mutation, "Query"⟩]⟩]
    Named a ∧ Named b ∧ Named c ∧ UniqueKeys b.definitions ∧
      ∃ ab bc merged,
        mergeDocuments PolicyTable.standard [a, b] = .ok ab ∧
        mergeDocuments PolicyTable.standard [b, c] = .ok bc ∧
        mergeDocuments PolicyTable.standard [a, b, c] = .ok merged ∧
        mergeDocuments PolicyTable.standard [ab, c] = .ok merged ∧
        mergeDocuments PolicyTable.standard [a, bc] = .ok merged := by
  refine ⟨by decide, by decide, by decide, by decide, ?_⟩
  exact mergeDocuments_assoc PolicyTable.standard [] (by decide) (by decide) (by decide)
    (by decide)

end Merge

end RecordApi
