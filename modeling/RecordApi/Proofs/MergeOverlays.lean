import RecordApi.Proofs.MergePlaces

/-!
# Merging over definitions of distinct keys

Definitions that repeat no key keep their places when others are merged over them. Each comes to
what the later definitions of its key make of it, and behind them stands what has a new key. Merging
the same over them again changes nothing, for uniting a list with itself by name leaves it as it is.
-/

namespace RecordApi

open RecordApi.Language

namespace Merge

/-! ## Uniting by name twice -/

section ByName

variable {α : Type} {name : α → String}

theorem lastOfName?_append_cons (front : List α) {x : α} {behind : List α}
    (h : ¬ HasName name (name x) behind) :
    lastOfName? name (name x) (front ++ x :: behind) = some x := by
  have hnone : behind.reverse.find? (fun y => name y = name x) = none := by
    rw [List.find?_eq_none]
    intro y hy hsame
    exact h ⟨y, List.mem_reverse.mp hy, by simpa using hsame⟩
  simp [lastOfName?, List.find?_append, hnone]

theorem lastOfName?_append (n : String) (first second : List α) :
    lastOfName? name n (first ++ second) =
      (lastOfName? name n second).or (lastOfName? name n first) := by
  simp [lastOfName?, List.find?_append]

theorem lastOfName?_cons (n : String) (x : α) (items : List α) :
    lastOfName? name n (x :: items) =
      (lastOfName? name n items).or (if name x = n then some x else none) := by
  have hfirst : lastOfName? name n [x] = if name x = n then some x else none := by
    by_cases h : name x = n <;> simp [lastOfName?, h]
  rw [← hfirst, ← lastOfName?_append, List.singleton_append]

theorem lastOfName?_eq_none {n : String} {items : List α} :
    lastOfName? name n items = none ↔ ¬ HasName name n items := by
  simp [lastOfName?, HasName]

theorem mem_of_lastOfName? {n : String} {items : List α} {x : α}
    (h : lastOfName? name n items = some x) : x ∈ items :=
  List.mem_reverse.mp (List.mem_of_find?_eq_some h)

/-- Only the items of a name decide which is the last of them. -/
theorem lastOfName?_congr {n : String} {first second : List α}
    (h : (first.filter fun x => name x = n) = second.filter fun x => name x = n) :
    lastOfName? name n first = lastOfName? name n second := by
  have hfilter (items : List α) :
      lastOfName? name n (items.filter fun x => name x = n) = lastOfName? name n items := by
    simp [lastOfName?, ← List.filter_reverse]
  rw [← hfilter first, h, hfilter]

theorem lastOfName?_putByName (n : String) (item : α) (items : List α) :
    lastOfName? name n (putByName name item items) = lastOfName? name n (items ++ [item]) := by
  induction items with
  | nil => rfl
  | cons x rest ih =>
      by_cases hrest : HasName name (name item) rest
      · rw [putByName_cons_of_mem hrest, List.cons_append, lastOfName?_cons, ih, lastOfName?_cons]
      · by_cases hx : name x = name item
        · -- The item takes the place of the first one, and none of its name lies behind.
          rw [putByName_cons_of_last hx hrest, lastOfName?_append_singleton, lastOfName?_cons,
            lastOfName?_cons, hx]
          split
          · next hn => rw [lastOfName?_eq_none.mpr (hn ▸ hrest), Option.none_or]
          · rfl
        · rw [putByName_cons_of_ne hx, List.cons_append, lastOfName?_cons, ih, lastOfName?_cons]

/-- The last item of a name among united items is the last one of both lists. -/
theorem lastOfName?_nameMerge (n : String) (first second : List α) :
    lastOfName? name n (nameMerge name first second) = lastOfName? name n (first ++ second) := by
  induction second generalizing first with
  | nil => rw [nameMerge_nil, List.append_nil]
  | cons item rest ih =>
      have hstep : nameMerge name first (item :: rest) =
          nameMerge name (putByName name item first) rest := rfl
      rw [hstep, ih, lastOfName?_append, lastOfName?_putByName, ← lastOfName?_append,
        List.append_assoc, List.singleton_append]

theorem renewed_suffix (front items : List α) : renewed name (front ++ items) items = items := by
  induction items generalizing front with
  | nil => rfl
  | cons x behind ih =>
      have hrest : renewed name (front ++ x :: behind) behind = behind := by
        rw [List.append_cons]
        exact ih (front ++ [x])
      rw [renewed, hrest]
      split
      · rfl
      · next hlast => rw [lastOfName?_append_cons front hlast, Option.getD_some]

theorem newcomers_eq_nil {before items : List α} (h : ∀ x ∈ items, HasName name (name x) before) :
    newcomers name before items = [] := by
  induction items generalizing before with
  | nil => rfl
  | cons x behind ih =>
      rw [newcomers, if_pos (h x List.mem_cons_self)]
      apply ih
      intro y hy
      exact hasName_append.mpr (.inl (h y (List.mem_cons_of_mem x hy)))

@[simp] theorem nameMerge_self (items : List α) : nameMerge name items items = items := by
  have hnew : newcomers name items items = [] := newcomers_eq_nil fun x hx => ⟨x, hx, rfl⟩
  have hkept : renewed name items items = items := renewed_suffix [] items
  rw [nameMerge_eq_unitedByName, unitedByName, hnew, hkept, List.append_nil]

theorem nameMerge_append (first second third : List α) :
    nameMerge name first (second ++ third) = nameMerge name (nameMerge name first second) third :=
  List.foldl_append

theorem putByName_of_new {item : α} {items : List α} (h : ¬ HasName name (name item) items) :
    putByName name item items = items ++ [item] := by
  induction items with
  | nil => rfl
  | cons x rest ih =>
      rw [hasName_cons, not_or] at h
      rw [putByName_cons_of_ne h.1, ih h.2, List.cons_append]

/-- Items of new names are added at the end. -/
theorem nameMerge_of_new {first second : List α}
    (hnew : ∀ x ∈ second, ¬ HasName name (name x) first) (hnodup : (second.map name).Nodup) :
    nameMerge name first second = first ++ second := by
  induction second generalizing first with
  | nil => simp
  | cons x rest ih =>
      obtain ⟨hx, hrest⟩ := List.forall_mem_cons.mp hnew
      obtain ⟨hother, hnodup⟩ := List.nodup_cons.mp hnodup
      have hput : nameMerge name first (x :: rest) = nameMerge name (first ++ [x]) rest :=
        congrArg (nameMerge name · rest) (putByName_of_new hx)
      rw [hput, ih _ hnodup, List.append_assoc, List.singleton_append]
      intro y hy
      rw [hasName_append, not_or]
      refine ⟨hrest y hy, ?_⟩
      rintro ⟨z, hz, hsame⟩
      obtain rfl := List.mem_singleton.mp hz
      exact hother (hsame ▸ List.mem_map_of_mem hy)

end ByName

/-! ## Combining twice -/

theorem foldl_of_forall_eq {α : Type} {f : α → α → α} {first x : α} {later : List α}
    (hne : later ≠ []) (hall : ∀ e ∈ later, e = x) (hfirst : f first x = x) (hx : f x x = x) :
    later.foldl f first = x := by
  induction later generalizing first with
  | nil => exact absurd rfl hne
  | cons e rest ih =>
      obtain ⟨rfl, hrest⟩ := List.forall_mem_cons.mp hall
      rw [List.foldl_cons, hfirst]
      cases rest with
      | nil => rfl
      | cons _ _ => exact ih (List.cons_ne_nil _ _) hrest hx

/-- An object type is left as it is when it is united with itself. -/
theorem combine_self {policy : MergePolicy} {t : TypeDef} {interfaces : List String}
    {fields : List FieldDef} (h : t.body = .object interfaces fields) :
    combine policy t.name (.type t) (.type t) = .type t := by
  obtain ⟨description, name, directives, body⟩ := t
  obtain rfl : body = _ := h
  cases policy with
  | override => rfl
  | fieldUnion =>
      simp [combine, fieldUnion, Definition.description, Definition.directives,
        Definition.interfaces, Definition.fields]

section Combine

variable {policy : MergePolicy} {key : String}

/-- A definition may be combined with another once more at the front. -/
theorem combine_combine_left (d later : Definition) :
    combine policy key d (combine policy key d later) = combine policy key d later := by
  rw [← combine_assoc]
  cases policy with
  | override => rfl
  | fieldUnion =>
      simp [combine, fieldUnion, Definition.description, Definition.directives,
        Definition.interfaces, Definition.fields]

/-- A definition may be combined with another once more at the end. -/
theorem combine_combine_right (d later : Definition) :
    combine policy key (combine policy key d later) later = combine policy key d later := by
  rw [combine_assoc]
  cases policy with
  | override => rfl
  | fieldUnion =>
      simp [combine, fieldUnion, Definition.description, Definition.directives,
        Definition.interfaces, Definition.fields]

theorem foldl_combine_cons (d e : Definition) (rest : List Definition) :
    (e :: rest).foldl (combine policy key) d =
      combine policy key d (rest.foldl (combine policy key) e) := by
  induction rest generalizing d e with
  | nil => rfl
  | cons e' rest ih =>
      calc
        (e :: e' :: rest).foldl (combine policy key) d =
            (e' :: rest).foldl (combine policy key) (combine policy key d e) := rfl
        _ = combine policy key d (combine policy key e (rest.foldl (combine policy key) e')) := by
          rw [ih, combine_assoc]
        _ = combine policy key d ((e' :: rest).foldl (combine policy key) e) := by rw [← ih]

/-- Combining with the same definitions twice is combining with them once. -/
theorem foldl_combine_twice (d : Definition) (later : List Definition) :
    later.foldl (combine policy key) (later.foldl (combine policy key) d) =
      later.foldl (combine policy key) d := by
  cases later with
  | nil => rfl
  | cons e rest => rw [foldl_combine_cons, foldl_combine_cons, combine_combine_right]

end Combine

/-! ## Definitions by place -/

theorem uniqueKeys_cons {d : Definition} {rest : List Definition} :
    UniqueKeys (d :: rest) ↔ (∀ key, key? d = some key → ¬ HasKey key rest) ∧ UniqueKeys rest := by
  unfold UniqueKeys
  cases hd : key? d with
  | none => simp [hd]
  | some key => simp [hd, HasKey]

theorem eq_of_key? {definitions : List Definition} (h : UniqueKeys definitions) {d e : Definition}
    (hd : d ∈ definitions) (he : e ∈ definitions) {key : String} (hdkey : key? d = some key)
    (hekey : key? e = some key) : d = e := by
  induction definitions with
  | nil => simp at hd
  | cons x rest ih =>
      obtain ⟨hx, hrest⟩ := uniqueKeys_cons.mp h
      rcases List.mem_cons.mp hd with rfl | hbehind
      · rcases List.mem_cons.mp he with rfl | he
        · rfl
        · exact absurd ⟨e, he, hekey⟩ (hx key hdkey)
      · rcases List.mem_cons.mp he with rfl | he
        · exact absurd ⟨d, hbehind, hdkey⟩ (hx key hekey)
        · exact ih hrest hbehind he

theorem keyed_append (key : String) (first second : List Definition) :
    keyed key (first ++ second) = keyed key first ++ keyed key second :=
  List.filter_append first second

theorem mem_keyed {key : String} {definitions : List Definition} {d : Definition} :
    d ∈ keyed key definitions ↔ d ∈ definitions ∧ key? d = some key := by
  simp [keyed]

theorem keyed_eq_nil {key : String} {definitions : List Definition} :
    keyed key definitions = [] ↔ ¬ HasKey key definitions := by
  simp [keyed, HasKey, List.filter_eq_nil_iff]

theorem keyed_of_uniqueKeys {definitions : List Definition} (h : UniqueKeys definitions)
    {d : Definition} (hd : d ∈ definitions) {key : String} (hkey : key? d = some key) :
    keyed key definitions = [d] := by
  induction definitions with
  | nil => simp at hd
  | cons e rest ih =>
      obtain ⟨he, hrest⟩ := uniqueKeys_cons.mp h
      rcases List.mem_cons.mp hd with rfl | hd
      · have hnil : keyed key rest = [] := keyed_eq_nil.mpr (he key hkey)
        rw [← List.singleton_append, keyed_append, hnil]
        simp [keyed, hkey]
      · have hne : key? e ≠ some key := fun hsame => he key hsame ⟨d, hd, hkey⟩
        rw [← List.singleton_append, keyed_append, ih hrest hd]
        simp [keyed, hne]

/-- Whether a definition has no key that stands among others. -/
def IsNew (before : List Definition) (d : Definition) : Prop :=
  ∀ key ∈ key? d, ¬ HasKey key before

instance (before : List Definition) (d : Definition) : Decidable (IsNew before d) :=
  inferInstanceAs (Decidable (∀ key ∈ key? d, ¬ HasKey key before))

section Overlays

variable (table : PolicyTable)

/-- What the later definitions of its key make of a definition. -/
def overlaid (later : List Definition) (d : Definition) : Definition :=
  match key? d with
  | none => d
  | some key => (keyed key later).foldl (combine (policyOf table key) key) d

variable {table}

theorem overlaid_of_extension {d : Definition} (h : key? d = none) (later : List Definition) :
    overlaid table later d = d := by
  rw [overlaid, h]

theorem overlaid_of_key {d : Definition} {key : String} (h : key? d = some key)
    (later : List Definition) :
    overlaid table later d = (keyed key later).foldl (combine (policyOf table key) key) d := by
  rw [overlaid, h]

theorem settled_eq_overlaid {d : Definition} {key : String} (h : key? d = some key)
    (later : List Definition) :
    settled (policyOf table key) d (keyed key later) = overlaid table later d := by
  rw [overlaid_of_key h]
  refine (foldl_combine_eq_settled fun hpolicy => name?_of_key? h ?_) _ |>.symm
  rintro rfl
  simp [policyOf] at hpolicy

@[simp] theorem key?_overlaid (later : List Definition) (d : Definition) :
    key? (overlaid table later d) = key? d := by
  cases h : key? d with
  | none => rw [overlaid_of_extension h, h]
  | some key =>
      rw [← settled_eq_overlaid h]
      exact key?_settled h key?_of_mem_keyed

/-- A definition whose key has no later definition is left as it is. -/
theorem overlaid_of_isNew {later : List Definition} {d : Definition} (h : IsNew later d) :
    overlaid table later d = d := by
  cases hd : key? d with
  | none => exact overlaid_of_extension hd later
  | some key =>
      have hnil : keyed key later = [] := keyed_eq_nil.mpr (h key hd)
      rw [overlaid_of_key hd, hnil]
      rfl

/-- What is merged over a definition may be merged over it in turn. -/
theorem overlaid_append (first second : List Definition) (d : Definition) :
    overlaid table (first ++ second) d = overlaid table second (overlaid table first d) := by
  cases h : key? d with
  | none => rw [overlaid_of_extension h, overlaid_of_extension h, overlaid_of_extension h]
  | some key =>
      have hkey : key? (overlaid table first d) = some key := (key?_overlaid first d).trans h
      rw [overlaid_of_key hkey, overlaid_of_key h, overlaid_of_key h, keyed_append,
        List.foldl_append]

/-- Of definitions that repeat no key, one is merged over a definition of its key. -/
theorem overlaid_of_uniqueKeys {later : List Definition} (h : UniqueKeys later) {d e : Definition}
    (he : e ∈ later) {key : String} (hd : key? d = some key) (hekey : key? e = some key) :
    overlaid table later d = combine (policyOf table key) key d e := by
  rw [overlaid_of_key hd, keyed_of_uniqueKeys h he hekey]
  rfl

/-- What has been merged over a definition changes nothing when it is merged over it again. -/
theorem overlaid_overlaid (later : List Definition) (d : Definition) :
    overlaid table later (overlaid table later d) = overlaid table later d := by
  cases h : key? d with
  | none => rw [overlaid_of_extension h, overlaid_of_extension h]
  | some key =>
      have hkey : key? (overlaid table later d) = some key := (key?_overlaid later d).trans h
      rw [overlaid_of_key hkey, overlaid_of_key h, foldl_combine_twice]

/-- Definitions of distinct keys keep their order, and each comes to what later ones make of it. -/
theorem placed_append_of_uniqueKeys {definitions : List Definition} (h : UniqueKeys definitions)
    (before behind : List Definition) :
    placed (policyOf table) before (definitions ++ behind) =
      (definitions.filter (IsNew before)).map (overlaid table behind) ++
        placed (policyOf table) (before ++ definitions) behind := by
  induction definitions generalizing before with
  | nil => simp
  | cons d rest ih =>
      obtain ⟨hd, hrest⟩ := uniqueKeys_cons.mp h
      -- No other definition has the key of this one, so the others are as new as before.
      have hnew : rest.filter (IsNew (before ++ [d])) = rest.filter (IsNew before) := by
        refine List.filter_congr fun e he => ?_
        have hsame (key : String) (hkey : key? e = some key) : key? d ≠ some key :=
          fun hdkey => hd key hdkey ⟨e, he, hkey⟩
        have hiff : IsNew (before ++ [d]) e ↔ IsNew before e := by
          refine forall₂_congr fun key hkey => ?_
          have hne := hsame key hkey
          rw [hasKey_append]
          simp [HasKey, hne]
        simp [hiff]
      rw [List.cons_append, placed, ih hrest, hnew, List.append_assoc, List.singleton_append]
      split
      · next hkey =>
          have hisNew : IsNew before d := by simp [IsNew, hkey]
          simp [hisNew, overlaid_of_extension hkey]
      · next key hkey =>
          have hiff : IsNew before d ↔ ¬ HasKey key before := by simp [IsNew, hkey]
          split
          · next hbefore => simp [hiff, hbefore]
          · next hbefore =>
              have hnone : keyed key rest = [] := keyed_eq_nil.mpr (hd key hkey)
              rw [keyed_append, hnone, List.nil_append, settled_eq_overlaid hkey]
              simp [hiff, hbefore]

/-- What is merged over definitions of distinct keys leaves each at its place. -/
theorem foldl_add_eq_overlaid {first : List Definition} (h : UniqueKeys first)
    (later : List Definition) :
    later.foldl (add table) first =
      first.map (overlaid table later) ++ placed (policyOf table) first later := by
  have hall : first.filter (IsNew []) = first := by
    refine List.filter_eq_self.mpr fun d _ => ?_
    simp [IsNew, HasKey]
  rw [foldl_add_eq_placed table h, placed_append_of_uniqueKeys h, hall, List.nil_append]

theorem uniqueKeys_foldl_add {first : List Definition} (h : UniqueKeys first)
    (later : List Definition) : UniqueKeys (later.foldl (add table) first) := by
  induction later generalizing first with
  | nil => exact h
  | cons d rest ih => exact ih (uniqueKeys_add table h)

/-- What is left behind others is an extension, or all that the definitions of a new key come to. -/
theorem mem_placed {before definitions : List Definition} {e : Definition}
    (h : e ∈ placed (policyOf table) before definitions) :
    (key? e = none ∧ e ∈ definitions) ∨
      ∃ key d rest, key? e = some key ∧ ¬ HasKey key before ∧ keyed key definitions = d :: rest ∧
        e = rest.foldl (combine (policyOf table key) key) d := by
  induction definitions generalizing before with
  | nil => simp [placed] at h
  | cons d behind ih =>
      have hbehind (h : e ∈ placed (policyOf table) (before ++ [d]) behind) :
          (key? e = none ∧ e ∈ d :: behind) ∨
            ∃ key first rest, key? e = some key ∧ ¬ HasKey key before ∧
              keyed key (d :: behind) = first :: rest ∧
              e = rest.foldl (combine (policyOf table key) key) first := by
        rcases ih h with ⟨hkey, hmem⟩ | ⟨key, first, rest, hkey, hnew, hkeyed, he⟩
        · exact .inl ⟨hkey, List.mem_cons_of_mem d hmem⟩
        · rw [hasKey_append, not_or] at hnew
          have hne : key? d ≠ some key := fun hd => hnew.2 ⟨d, List.mem_singleton_self d, hd⟩
          refine .inr ⟨key, first, rest, hkey, hnew.1, ?_, he⟩
          rw [← hkeyed]
          simp [keyed, hne]
      rw [placed] at h
      split at h
      · next hd =>
          rcases List.mem_cons.mp h with rfl | h
          · exact .inl ⟨hd, List.mem_cons_self⟩
          · exact hbehind h
      · next key hd =>
          split at h
          · exact hbehind h
          · next hnew =>
              rcases List.mem_cons.mp h with rfl | h
              · refine .inr ⟨key, d, keyed key behind, key?_settled hd key?_of_mem_keyed, hnew,
                  by simp [keyed, hd], ?_⟩
                rw [settled_eq_overlaid hd, overlaid_of_key hd]
              · exact hbehind h

/-- Nothing is left behind others that have all keys. -/
theorem placed_eq_nil {before definitions : List Definition}
    (h : ∀ d ∈ definitions, ∃ key, key? d = some key ∧ HasKey key before) :
    placed (policyOf table) before definitions = [] := by
  refine List.eq_nil_iff_forall_not_mem.mpr fun e he => ?_
  rcases mem_placed he with ⟨hkey, hmem⟩ | ⟨key, d, rest, hkey, hnew, hkeyed, -⟩
  · obtain ⟨key, hsome, -⟩ := h e hmem
    simp [hkey] at hsome
  · have hd : d ∈ keyed key definitions := hkeyed ▸ List.mem_cons_self
    obtain ⟨hd, hdkey⟩ := mem_keyed.mp hd
    obtain ⟨other, hother, hhas⟩ := h d hd
    obtain rfl : key = other := Option.some.inj (hdkey.symm.trans hother)
    exact hnew hhas

end Overlays

end Merge

end RecordApi
