import Mathlib.Data.List.Induction
import RecordApi.Proofs.MergeAssociativity

/-!
# Merged documents, place by place

The definitions of all documents are put one behind the other. An extension stays at its place. A
key keeps the place of its first definition, and there stands what all its definitions come to, from
the first to the last. Nothing is left of the places of its later definitions.

Members that are united by name are described in the same way, by the places of both lists. Both
descriptions go through the lists once and look at what lies behind a place; that merging yields
them is proved by induction on the last item, the one that merging adds last.
-/

namespace RecordApi

open RecordApi.Language

namespace Merge

/-! ## Members by place -/

section ByName

variable {α : Type} (name : α → String)

instance (n : String) (items : List α) : Decidable (HasName name n items) :=
  inferInstanceAs (Decidable (∃ x ∈ items, name x = n))

/-- The last item of a name. -/
def lastOfName? (n : String) (items : List α) : Option α :=
  items.reverse.find? fun x => name x = n

/-- A list in which the last item of every name has given way to the last item of that name in a
second list, where there is one. -/
def renewed (second : List α) : List α → List α
  | [] => []
  | x :: behind =>
    (if HasName name (name x) behind then x else (lastOfName? name (name x) second).getD x) ::
      renewed second behind

/-- The names of a list that are new after some items: each at its first place, with its last
item. -/
def newcomers (before : List α) : List α → List α
  | [] => []
  | x :: behind =>
    if HasName name (name x) before then newcomers (before ++ [x]) behind
    else (lastOfName? name (name x) (x :: behind)).getD x :: newcomers (before ++ [x]) behind

/-- Two lists united by name: the places of the first list, then the new names of the second. -/
def unitedByName (first second : List α) : List α :=
  renewed name second first ++ newcomers name first second

variable {name}

theorem hasName_append {n : String} {first second : List α} :
    HasName name n (first ++ second) ↔ HasName name n first ∨ HasName name n second := by
  simp [HasName, or_and_right, exists_or]

theorem lastOfName?_append_singleton (n : String) (items : List α) (y : α) :
    lastOfName? name n (items ++ [y]) =
      if name y = n then some y else lastOfName? name n items := by
  by_cases h : name y = n <;> simp [lastOfName?, h]

theorem name_of_lastOfName? {n : String} {items : List α} {x : α}
    (h : lastOfName? name n items = some x) : name x = n := by
  simpa using List.find?_some h

theorem name_lastOfName?_getD (name : α → String) (x : α) (items : List α) :
    name ((lastOfName? name (name x) items).getD x) = name x := by
  cases h : lastOfName? name (name x) items with
  | none => rfl
  | some y => exact name_of_lastOfName? h

theorem hasName_renewed {n : String} {second items : List α} :
    HasName name n (renewed name second items) ↔ HasName name n items := by
  induction items with
  | nil => rfl
  | cons x behind ih =>
      rw [renewed, hasName_cons, hasName_cons, ih]
      split
      · rfl
      · rw [name_lastOfName?_getD name]

theorem not_hasName_newcomers {n : String} {before items : List α} (h : HasName name n before) :
    ¬ HasName name n (newcomers name before items) := by
  induction items generalizing before with
  | nil => simp [newcomers, HasName]
  | cons x behind ih =>
      have hbefore : HasName name n (before ++ [x]) := hasName_append.mpr (Or.inl h)
      rw [newcomers]
      split
      · exact ih hbefore
      · next hx =>
          rw [hasName_cons, name_lastOfName?_getD name, not_or]
          exact ⟨fun hn => hx (hn ▸ h), ih hbefore⟩

theorem putByName_append (item : α) (first second : List α) :
    putByName name item (first ++ second) =
      if HasName name (name item) first ∧ ¬ HasName name (name item) second then
        putByName name item first ++ second
      else first ++ putByName name item second := by
  induction first with
  | nil => simp [HasName]
  | cons x rest ih =>
      by_cases hsecond : HasName name (name item) second
      · have happend : HasName name (name item) (rest ++ second) :=
          hasName_append.mpr (Or.inr hsecond)
        rw [List.cons_append, putByName_cons_of_mem happend, ih]
        simp [hsecond]
      · by_cases hrest : HasName name (name item) rest
        · have happend : HasName name (name item) (rest ++ second) :=
            hasName_append.mpr (Or.inl hrest)
          rw [List.cons_append, putByName_cons_of_mem happend, ih, putByName_cons_of_mem hrest]
          simp [hsecond, hrest, hasName_cons]
        · have happend : ¬ HasName name (name item) (rest ++ second) := by
            rw [hasName_append, not_or]
            exact ⟨hrest, hsecond⟩
          by_cases hx : name x = name item
          · rw [List.cons_append, putByName_cons_of_last hx happend,
              putByName_cons_of_last hx hrest]
            simp [hsecond, hasName_cons, hx]
          · rw [List.cons_append, putByName_cons_of_ne hx, ih]
            simp [hrest, hasName_cons, hx]

theorem renewed_append_singleton (second : List α) (y : α) (items : List α) :
    renewed name (second ++ [y]) items =
      if HasName name (name y) items then putByName name y (renewed name second items)
      else renewed name second items := by
  induction items with
  | nil => simp [renewed, HasName]
  | cons x behind ih =>
      rw [renewed, ih, renewed]
      by_cases hbehind : HasName name (name y) behind
      · have hput : HasName name (name y) (renewed name second behind) :=
          hasName_renewed.mpr hbehind
        rw [if_pos hbehind, if_pos (hasName_cons.mpr (Or.inr hbehind)),
          putByName_cons_of_mem hput]
        congr 1
        split
        · rfl
        · next hx =>
            have hne : name y ≠ name x := fun h => hx (h ▸ hbehind)
            rw [lastOfName?_append_singleton, if_neg hne]
      · have hput : ¬ HasName name (name y) (renewed name second behind) :=
          fun h => hbehind (hasName_renewed.mp h)
        rw [if_neg hbehind]
        by_cases hx : name x = name y
        · have hlast : ¬ HasName name (name x) behind := hx ▸ hbehind
          rw [if_pos (hasName_cons.mpr (Or.inl hx)), if_neg hlast, if_neg hlast,
            lastOfName?_append_singleton, if_pos hx.symm, putByName_cons_of_last _ hput]
          · rfl
          · rw [name_lastOfName?_getD name, hx]
        · have hnone : ¬ HasName name (name y) (x :: behind) := by
            rw [hasName_cons, not_or]
            exact ⟨hx, hbehind⟩
          rw [if_neg hnone, lastOfName?_append_singleton, if_neg (Ne.symm hx)]

theorem newcomers_append_singleton (before items : List α) (y : α) :
    newcomers name before (items ++ [y]) =
      if HasName name (name y) before then newcomers name before items
      else putByName name y (newcomers name before items) := by
  induction items generalizing before with
  | nil => simp [newcomers, lastOfName?, putByName]
  | cons x behind ih =>
      have hgrown : HasName name (name y) (before ++ [x]) ↔
          HasName name (name y) before ∨ name x = name y := by
        rw [hasName_append, hasName_cons]
        simp [HasName]
      rw [List.cons_append, newcomers, newcomers, ih]
      by_cases hx : HasName name (name x) before
      · have hsame : HasName name (name y) (before ++ [x]) ↔ HasName name (name y) before := by
          rw [hgrown]
          exact or_iff_left_of_imp fun h => h ▸ hx
        simp only [if_pos hx, hsame]
      · rw [if_neg hx, if_neg hx, ← List.cons_append, lastOfName?_append_singleton]
        by_cases hxy : name y = name x
        · have hnew : ¬ HasName name (name y) before := hxy ▸ hx
          have hknown : HasName name (name y) (before ++ [x]) := hgrown.mpr (Or.inr hxy.symm)
          rw [if_pos hxy, if_pos hknown, if_neg hnew,
            putByName_cons_of_last _ (not_hasName_newcomers hknown)]
          · rfl
          · rw [name_lastOfName?_getD name, hxy]
        · have hsame : HasName name (name y) (before ++ [x]) ↔ HasName name (name y) before := by
            rw [hgrown]
            exact or_iff_left fun h => hxy h.symm
          simp only [if_neg hxy, hsame]
          split
          · rfl
          · rw [putByName_cons_of_ne]
            rw [name_lastOfName?_getD name]
            exact Ne.symm hxy

/-- Uniting by name item after item yields what the places of both lists say. -/
theorem nameMerge_eq_unitedByName (first second : List α) :
    nameMerge name first second = unitedByName name first second := by
  induction second using List.reverseRecOn with
  | nil =>
      have hsame (items : List α) : renewed name [] items = items := by
        induction items with
        | nil => rfl
        | cons x behind ih => simp [renewed, lastOfName?, ih]
      simp [unitedByName, newcomers, hsame]
  | append_singleton items y ih =>
      have hstep : nameMerge name first (items ++ [y]) =
          putByName name y (nameMerge name first items) := by
        simp [nameMerge]
      rw [hstep, ih, unitedByName, unitedByName, putByName_append, renewed_append_singleton,
        newcomers_append_singleton]
      by_cases hfirst : HasName name (name y) first
      · have hnew : ¬ HasName name (name y) (newcomers name first items) :=
          not_hasName_newcomers hfirst
        rw [if_pos ⟨hasName_renewed.mpr hfirst, hnew⟩, if_pos hfirst, if_pos hfirst]
      · rw [if_neg fun h => hfirst (hasName_renewed.mp h.1), if_neg hfirst, if_neg hfirst]

end ByName

/-! ## Definitions by place -/

instance (key : String) (definitions : List Definition) : Decidable (HasKey key definitions) :=
  inferInstanceAs (Decidable (∃ d ∈ definitions, key? d = some key))

/-- Whether a definition must have a name and has none. Extensions and schema definitions need
none. -/
def LacksName (d : Definition) : Prop :=
  d.isExtension = false ∧ (∀ schema, d ≠ .schema schema) ∧ d.name? = none

/-- The policy for a key: the one of the call, or else the one of the table, or else to override.
Schema definitions always override. -/
def strategy (calls table : PolicyTable) (key : String) : MergePolicy :=
  if key = schemaKey then .override
  else ((calls.lookup key).or (table.lookup key)).getD .override

/-- The object type in which two definitions unite, under the name of the earlier one and with the
description of the later one if it has any. -/
def unitedType (earlier later : Definition) : Definition :=
  .type
    { description := later.description.or earlier.description
      name := earlier.name?.getD ""
      directives := unitedByName Directive.name earlier.directives later.directives
      body := .object (unitedByName id earlier.interfaces later.interfaces)
        (unitedByName FieldDef.name earlier.fields later.fields) }

/-- What a definition and the later ones of its key come to. -/
def settled (policy : MergePolicy) (d : Definition) (later : List Definition) : Definition :=
  match policy with
  | .override => later.getLast?.getD d
  | .fieldUnion => later.foldl unitedType d

/-- The definitions of a key. -/
def keyed (key : String) (definitions : List Definition) : List Definition :=
  definitions.filter fun d => key? d = some key

/-- What is left of definitions, place by place, behind some others. -/
def placed (policy : String → MergePolicy) (before : List Definition) :
    List Definition → List Definition
  | [] => []
  | d :: behind =>
    match key? d with
    | none => d :: placed policy (before ++ [d]) behind
    | some key =>
      if HasKey key before then placed policy (before ++ [d]) behind
      else settled (policy key) d (keyed key behind) :: placed policy (before ++ [d]) behind

theorem isUnnamed_iff_lacksName {d : Definition} : isUnnamed d = true ↔ LacksName d := by
  cases d <;> simp [isUnnamed, LacksName, Definition.isExtension, Definition.name?]

instance (d : Definition) : Decidable (LacksName d) :=
  decidable_of_iff (isUnnamed d = true) isUnnamed_iff_lacksName

theorem named_of_not_lacksName {documents : List Document}
    (h : ¬ ∃ document ∈ documents, ∃ d ∈ document.definitions, LacksName d) :
    ∀ document ∈ documents, Named document := by
  intro document hdocument d hd
  refine Bool.eq_false_iff.mpr fun hunnamed => h ⟨document, hdocument, d, hd, ?_⟩
  exact isUnnamed_iff_lacksName.mp hunnamed

theorem policyOf_append (calls table : PolicyTable) (key : String) :
    policyOf (calls ++ table) key = strategy calls table key := by
  simp [policyOf, strategy, PolicyTable.policyFor, List.lookup_append]

theorem hasKey_append {key : String} {first second : List Definition} :
    HasKey key (first ++ second) ↔ HasKey key first ∨ HasKey key second := by
  simp [HasKey, or_and_right, exists_or]

theorem name?_of_key? {d : Definition} {key : String} (h : key? d = some key)
    (hkey : key ≠ schemaKey) : d.name? = some key := by
  cases d with
  | schema s => exact absurd (Option.some.inj h).symm hkey
  | schemaExtension s => simp [key?] at h
  | typeExtension t => simp [key?] at h
  | _ => exact h

theorem fieldUnion_eq_unitedType {key : String} {earlier : Definition}
    (h : earlier.name? = some key) (later : Definition) :
    fieldUnion key earlier later = unitedType earlier later := by
  simp [fieldUnion, unitedType, h, nameMerge_eq_unitedByName]

/-- Combining the definitions of a key one after the other yields what they come to. -/
theorem foldl_combine_eq_settled {policy : MergePolicy} {key : String} {d : Definition}
    (hunion : policy = .fieldUnion → d.name? = some key) (later : List Definition) :
    later.foldl (combine policy key) d = settled policy d later := by
  cases policy with
  | override =>
      induction later using List.reverseRecOn with
      | nil => rfl
      | append_singleton rest e ih => simp [settled, combine]
  | fieldUnion =>
      have hd := hunion rfl
      clear hunion
      induction later generalizing d with
      | nil => rfl
      | cons e rest ih =>
          rw [List.foldl_cons, ih (d := combine .fieldUnion key d e) rfl]
          simp only [settled, List.foldl_cons, combine, fieldUnion_eq_unitedType hd]

section Places

variable {table : PolicyTable}

theorem settled_append_singleton {key : String} {d e : Definition} (hd : key? d = some key)
    (later : List Definition) :
    settled (policyOf table key) d (later ++ [e]) =
      combine (policyOf table key) key (settled (policyOf table key) d later) e := by
  have hunion : policyOf table key = .fieldUnion → d.name? = some key := by
    intro hpolicy
    apply name?_of_key? hd
    rintro rfl
    simp [policyOf] at hpolicy
  rw [← foldl_combine_eq_settled hunion, ← foldl_combine_eq_settled hunion, List.foldl_append]
  rfl

theorem key?_settled {key : String} {d : Definition} (hd : key? d = some key)
    {later : List Definition} (hlater : ∀ e ∈ later, key? e = some key) :
    key? (settled (policyOf table key) d later) = some key := by
  induction later using List.reverseRecOn with
  | nil => cases policyOf table key <;> exact hd
  | append_singleton rest e ih =>
      rw [settled_append_singleton hd]
      exact key?_combine (hlater e (by simp)) _

theorem key?_of_mem_keyed {key : String} {definitions : List Definition} :
    ∀ e ∈ keyed key definitions, key? e = some key := by
  simp [keyed]

theorem keyed_append_singleton (key : String) (definitions : List Definition) (e : Definition) :
    keyed key (definitions ++ [e]) =
      if key? e = some key then keyed key definitions ++ [e] else keyed key definitions := by
  by_cases h : key? e = some key <;> simp [keyed, h]

variable (table)

theorem placed_append_extension {e : Definition} (he : key? e = none)
    (before definitions : List Definition) :
    placed (policyOf table) before (definitions ++ [e]) =
      placed (policyOf table) before definitions ++ [e] := by
  induction definitions generalizing before with
  | nil => simp [placed, he]
  | cons d behind ih =>
      have hlater (key : String) : keyed key (behind ++ [e]) = keyed key behind := by
        rw [keyed_append_singleton, if_neg (by simp [he])]
      simp only [List.cons_append, placed, ih, hlater]
      split
      · rfl
      · split <;> rfl

/-- A later definition of a key that stands before all places leaves no trace. -/
theorem placed_append_of_hasKey {key : String} {e : Definition} (he : key? e = some key)
    {before : List Definition} (hbefore : HasKey key before) (definitions : List Definition) :
    placed (policyOf table) before (definitions ++ [e]) =
      placed (policyOf table) before definitions := by
  induction definitions generalizing before with
  | nil => simp [placed, he, hbefore]
  | cons d behind ih =>
      have hgrown : HasKey key (before ++ [d]) := hasKey_append.mpr (Or.inl hbefore)
      rw [List.cons_append, placed, placed, ih hgrown]
      split
      · rfl
      · next other hd =>
          split
          · rfl
          · next hnew =>
              have hne : key ≠ other := fun h => hnew (h ▸ hbefore)
              rw [keyed_append_singleton, if_neg (by simp [he, hne])]

/-- A definition of a key that does not stand before all places is added to what is left. -/
theorem placed_append_of_not_hasKey {key : String} {e : Definition} (he : key? e = some key)
    {before : List Definition} (hbefore : ¬ HasKey key before) (definitions : List Definition) :
    placed (policyOf table) before (definitions ++ [e]) =
      add table (placed (policyOf table) before definitions) e := by
  induction definitions generalizing before with
  | nil =>
      simp only [List.nil_append, placed, he, if_neg hbefore, add, absorb, keyed, List.filter_nil]
      cases policyOf table key <;> rfl
  | cons d behind ih =>
      have hgrown : HasKey key (before ++ [d]) ↔ key? d = some key := by
        rw [hasKey_append, or_iff_right hbefore]
        simp [HasKey]
      rw [List.cons_append, placed, placed]
      split
      · next hd =>
          rw [ih (by simp [hgrown, hd]), add_cons_of_ne]
          simp [hd]
      · next other hd =>
          by_cases hother : HasKey other before
          · have hne : other ≠ key := fun h => hbefore (h ▸ hother)
            rw [if_pos hother, if_pos hother, ih (by simp [hgrown, hd, hne])]
          · have hsettled : key? (settled (policyOf table other) d (keyed other behind)) =
                some other :=
              key?_settled hd key?_of_mem_keyed
            rw [if_neg hother, if_neg hother, keyed_append_singleton]
            by_cases hsame : other = key
            · subst hsame
              rw [if_pos he, settled_append_singleton hd, add_cons_of_eq table he hsettled,
                placed_append_of_hasKey table he (hgrown.mpr hd)]
            · rw [if_neg (by simpa [he] using Ne.symm hsame),
                ih (by simp [hgrown, hd, hsame]), add_cons_of_ne]
              simpa [he, hsettled] using hsame

/-- Adding a definition to what is left of others is the same as leaving what is left of all. -/
theorem placed_append_singleton (definitions : List Definition) (e : Definition) :
    placed (policyOf table) [] (definitions ++ [e]) =
      add table (placed (policyOf table) [] definitions) e := by
  cases he : key? e with
  | none => rw [placed_append_extension table he, add_of_extension table he]
  | some key => exact placed_append_of_not_hasKey table he (by simp [HasKey]) definitions

/-- Definitions that repeat no key are left as they are. -/
theorem placed_of_uniqueKeys {before definitions : List Definition}
    (h : UniqueKeys (before ++ definitions)) :
    placed (policyOf table) before definitions = definitions := by
  induction definitions generalizing before with
  | nil => rfl
  | cons d behind ih =>
      have hrest : placed (policyOf table) (before ++ [d]) behind = behind :=
        ih (by simpa using h)
      rw [placed, hrest]
      split
      · rfl
      · next key hd =>
          unfold UniqueKeys at h
          rw [List.filterMap_append, List.filterMap_cons_some hd, List.nodup_append] at h
          obtain ⟨-, hbehind, hapart⟩ := h
          have hbefore : ¬ HasKey key before := by
            rintro ⟨e, he, hkey⟩
            exact hapart key (List.mem_filterMap.mpr ⟨e, he, hkey⟩) key List.mem_cons_self rfl
          have hlater : keyed key behind = [] := by
            rw [keyed, List.filter_eq_nil_iff]
            intro e he hkey
            refine (List.nodup_cons.mp hbehind).1 (List.mem_filterMap.mpr ⟨e, he, ?_⟩)
            simpa using hkey
          rw [if_neg hbefore, hlater]
          cases policyOf table key <;> rfl

theorem foldl_add_eq_placed {first : List Definition} (h : UniqueKeys first)
    (definitions : List Definition) :
    definitions.foldl (add table) first = placed (policyOf table) [] (first ++ definitions) := by
  induction definitions using List.reverseRecOn with
  | nil =>
      have hplaced : placed (policyOf table) [] first = first := placed_of_uniqueKeys table h
      rw [List.append_nil]
      exact hplaced.symm
  | append_singleton rest e ih =>
      rw [List.foldl_append, ih, ← List.append_assoc, placed_append_singleton]
      rfl

end Places

/-- Whether the first list that is not empty repeats no key. -/
def FirstUnique : List (List Definition) → Prop
  | [] => True
  | [] :: rest => FirstUnique rest
  | first :: _ => UniqueKeys first

theorem mergeDefinitions_eq_placed (table : PolicyTable) {lists : List (List Definition)}
    (h : FirstUnique lists) :
    mergeDefinitions table lists = placed (policyOf table) [] lists.flatten := by
  induction lists with
  | nil => rfl
  | cons first rest ih =>
      cases first with
      | nil => exact ih h
      | cons d more =>
          rw [mergeDefinitions_cons_of_ne_nil table (List.cons_ne_nil d more),
            foldl_add_eq_placed table h, List.flatten_cons]

/-- Merging documents fails just if a definition lacks its name, and otherwise yields what is left
of all their definitions, place by place. -/
theorem mergeDocuments_eq_placed (table calls : PolicyTable) (documents : List Document)
    (hfirst : FirstUnique (documents.map (·.definitions))) :
    ((∃ kind, mergeDocuments (calls ++ table) documents = .error (.unnamed kind)) ↔
        ∃ document ∈ documents, ∃ d ∈ document.definitions, LacksName d) ∧
      ((¬ ∃ document ∈ documents, ∃ d ∈ document.definitions, LacksName d) →
        mergeDocuments (calls ++ table) documents =
          .ok (Document.ofDefinitions
            (placed (strategy calls table) [] (documents.flatMap (·.definitions))))) := by
  have hok (h : ¬ ∃ document ∈ documents, ∃ d ∈ document.definitions, LacksName d) :
      mergeDocuments (calls ++ table) documents =
        .ok (Document.ofDefinitions
          (placed (strategy calls table) [] (documents.flatMap (·.definitions)))) := by
    have hnamed := named_of_not_lacksName h
    have hpolicy : policyOf (calls ++ table) = strategy calls table :=
      funext (policyOf_append calls table)
    rw [mergeDocuments_of_named _ hnamed, mergeDefinitions_eq_placed _ hfirst, hpolicy,
      List.flatMap_def]
  refine ⟨⟨?_, ?_⟩, hok⟩
  · rintro ⟨kind, hkind⟩
    by_contra h
    rw [hok h] at hkind
    cases hkind
  · rintro ⟨document, hdocument, d, hd, hlacks⟩
    have hsome : ((documents.map (·.definitions)).flatten.find? isUnnamed).isSome := by
      refine List.find?_isSome.mpr ⟨d, ?_, isUnnamed_iff_lacksName.mpr hlacks⟩
      exact List.mem_flatten.mpr ⟨_, List.mem_map.mpr ⟨document, hdocument, rfl⟩, hd⟩
    obtain ⟨e, he⟩ := Option.isSome_iff_exists.mp hsome
    exact ⟨e.kindName, by simp only [mergeDocuments, he]⟩

/-- A root type of the call's own is united with two later definitions of one document, of which one
is an enumeration; the schema is overridden where it stands, and an extension is kept. -/
theorem mergeDocuments_eq_placed_roots :
    let field (name type : String) : FieldDef := ⟨none, name, [], .named type, none, [], false⟩
    let tag (name : String) : Directive := ⟨Pos.nowhere, name, []⟩
    let first := Document.ofDefinitions
      [.type ⟨some ⟨"Roots", false⟩, "Root", [tag "a", tag "b"], .object [] [field "x" "Int"]⟩,
        .schema ⟨none, [], [⟨.query, "Root"⟩]⟩]
    let second := Document.ofDefinitions
      [.typeExtension ⟨none, "Root", [], .object [] [field "e" "Int"]⟩,
        .type ⟨none, "Root", [tag "b", tag "c"], .enum []⟩,
        .type ⟨none, "Root", [], .object ["Node"] [field "x" "ID", field "y" "Int"]⟩,
        .schema ⟨none, [], [⟨.mutation, "Root"⟩]⟩]
    FirstUnique ([Document.ofDefinitions [], first, second].map (·.definitions)) ∧
      mergeDocuments ([("Root", .fieldUnion)] ++ PolicyTable.standard)
          [Document.ofDefinitions [], first, second] =
        .ok (Document.ofDefinitions
          [.type ⟨some ⟨"Roots", false⟩, "Root", [tag "a", tag "b", tag "c"],
              .object ["Node"] [field "x" "ID", field "y" "Int"]⟩,
            .schema ⟨none, [], [⟨.mutation, "Root"⟩]⟩,
            .typeExtension ⟨none, "Root", [], .object [] [field "e" "Int"]⟩]) := by
  intro field tag first second
  have hunique : UniqueKeys first.definitions := by decide
  refine ⟨hunique, ?_⟩
  rw [(mergeDocuments_eq_placed PolicyTable.standard [("Root", .fieldUnion)]
    [Document.ofDefinitions [], first, second] hunique).2 (by decide)]
  decide

end Merge

end RecordApi
