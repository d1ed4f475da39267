import RecordApi.Proofs.MergeRepeats

/-!
# Name spaces of merged documents

Types, directives, the schema and the definitions of requests are named apart from each other, but
merging tells definitions by their keys alone. Nothing of a name space is lost as long as all
definitions that are merged under a key belong to one, and no directives unite, for what unites is a
type. Where all keys are such, the definitions of a name space are merged as if there were no
others.
-/

namespace RecordApi

open RecordApi.Language

/-- The name spaces of definitions. -/
inductive NameSpace where
  | types
  | directives
  | schema
  | requests
deriving DecidableEq, Repr, Inhabited

/-- The name space that a definition belongs to. -/
def spaceOf : Definition → NameSpace
  | .type _ | .typeExtension _ => .types
  | .directive _ => .directives
  | .schema _ | .schemaExtension _ => .schema
  | .operation _ | .fragment _ => .requests

/-- The definitions of a document that belong to a name space. -/
def spacePart (space : NameSpace) (document : Document) : Document :=
  Document.ofDefinitions (document.definitions.filter fun d => spaceOf d = space)

/-- Whether a document defines a name in a name space. Every schema definition has one name. -/
def Declares (space : NameSpace) (key : String) (document : Document) : Prop :=
  ∃ d ∈ document.definitions, Merge.key? d = some key ∧ spaceOf d = space

instance (space : NameSpace) (key : String) (document : Document) :
    Decidable (Declares space key document) :=
  inferInstanceAs (Decidable (∃ d ∈ document.definitions, _))

namespace Merge

/-- Whether definitions belong to one name space, and unite only if they are types. -/
structure Kindred (policy : MergePolicy) (definitions : List Definition) : Prop where
  same : ∀ d ∈ definitions, ∀ e ∈ definitions, spaceOf d = spaceOf e
  types : policy = .fieldUnion → definitions.length ≤ 1 ∨ ∀ d ∈ definitions, spaceOf d = .types

/-! ## One key -/

section OneKey

variable {policy : MergePolicy} {key : String} {definitions : List Definition}

/-- A definition that none follows is left as it is, and several come to the last of them, or to a
type that they unite in. -/
theorem combined?_cases {m : Definition} (h : combined? policy key definitions = some m) :
    definitions = [m] ∨
      1 < definitions.length ∧ (policy = .override ∧ m ∈ definitions ∨
        policy = .fieldUnion ∧ spaceOf m = .types) := by
  cases definitions with
  | nil => cases h
  | cons d later =>
      obtain rfl := Option.some.inj h
      cases later with
      | nil => exact .inl rfl
      | cons e rest =>
          refine .inr ⟨by simp, ?_⟩
          cases policy with
          | override =>
              refine .inl ⟨rfl, List.mem_cons_of_mem d ?_⟩
              rw [foldl_override, List.getLast?_eq_some_getLast (List.cons_ne_nil e rest)]
              exact List.getLast_mem _
          | fieldUnion =>
              rw [foldl_combine_cons]
              exact .inr ⟨rfl, rfl⟩

/-- Definitions are kindred just if what they come to belongs to the name space of each. -/
theorem kindred_iff {m : Definition} (h : combined? policy key definitions = some m) :
    Kindred policy definitions ↔ ∀ d ∈ definitions, spaceOf d = spaceOf m := by
  rcases combined?_cases h with rfl | ⟨hlength, hcases⟩
  · refine iff_of_true ⟨?_, fun _ => .inl (Nat.le_refl 1)⟩ ?_
    · simp
    · simp
  · constructor
    · intro hkindred d hd
      rcases hcases with ⟨-, hm⟩ | ⟨hunion, hm⟩
      · exact hkindred.same d hd m hm
      · have htypes := (hkindred.types hunion).resolve_left (Nat.not_le_of_lt hlength)
        rw [htypes d hd, hm]
    · intro hsame
      refine ⟨fun d hd e he => (hsame d hd).trans (hsame e he).symm, fun hunion => .inr ?_⟩
      rcases hcases with ⟨hover, -⟩ | ⟨-, hm⟩
      · rw [hover] at hunion
        cases hunion
      · exact fun d hd => (hsame d hd).trans hm

theorem combined?_eq_none : combined? policy key definitions = none ↔ definitions = [] := by
  cases definitions <;> simp [combined?]

/-- Kindred definitions come to one in the name space that they belong to. -/
theorem exists_combined_iff (key : String) (h : Kindred policy definitions) (space : NameSpace) :
    (∃ d ∈ (combined? policy key definitions).toList, spaceOf d = space) ↔
      ∃ d ∈ definitions, spaceOf d = space := by
  cases hm : combined? policy key definitions with
  | none =>
      obtain rfl := combined?_eq_none.mp hm
      simp
  | some m =>
      have hsame := (kindred_iff hm).mp h
      obtain ⟨e, he⟩ := List.exists_mem_of_ne_nil definitions fun hnil => by
        rw [combined?_eq_none.mpr hnil] at hm
        cases hm
      constructor
      · rintro ⟨d, hd, rfl⟩
        obtain rfl := List.mem_singleton.mp hd
        exact ⟨e, he, hsame e he⟩
      · rintro ⟨d, hd, rfl⟩
        exact ⟨m, List.mem_singleton_self m, (hsame d hd).symm⟩

/-- Definitions are kindred if what they come to belongs to every name space that they belong to. -/
theorem kindred_of_exists (key : String) (h : ∀ d ∈ definitions,
      ∃ m ∈ (combined? policy key definitions).toList, spaceOf m = spaceOf d) :
    Kindred policy definitions := by
  cases hm : combined? policy key definitions with
  | none =>
      obtain rfl := combined?_eq_none.mp hm
      exact ⟨by simp, fun _ => .inl (Nat.zero_le 1)⟩
  | some m =>
      refine (kindred_iff hm).mpr fun d hd => ?_
      obtain ⟨e, he, hspace⟩ := h d hd
      rw [hm] at he
      obtain rfl := List.mem_singleton.mp he
      exact hspace.symm

/-- Definitions are kindred under every key if those of one key belong to one name space, and none
that is no type has a key that unites. -/
theorem kindred_keyed (policy : String → MergePolicy) {definitions : List Definition}
    (hsame : ∀ d ∈ definitions, ∀ e ∈ definitions, ∀ key ∈ key? d, key? e = some key →
      spaceOf d = spaceOf e)
    (htypes : ∀ d ∈ definitions, ∀ key ∈ key? d, policy key = .fieldUnion → spaceOf d = .types)
    (key : String) : Kindred (policy key) (keyed key definitions) where
  same d hd e he := by
    obtain ⟨hd, hdkey⟩ := mem_keyed.mp hd
    obtain ⟨he, hekey⟩ := mem_keyed.mp he
    exact hsame d hd e he key hdkey hekey
  types hunion := .inr fun d hd => by
    obtain ⟨hd, hdkey⟩ := mem_keyed.mp hd
    exact htypes d hd key hdkey hunion

theorem Kindred.of_sublist {part : List Definition} (h : Kindred policy definitions)
    (hsub : part.Sublist definitions) : Kindred policy part where
  same d hd e he := h.same d (hsub.subset hd) e (hsub.subset he)
  types hunion := (h.types hunion).imp (Nat.le_trans hsub.length_le) fun htypes d hd =>
    htypes d (hsub.subset hd)

theorem head?_sublist {α : Type} (items : List α) : items.head?.toList.Sublist items := by
  cases items with
  | nil => exact List.Sublist.refl _
  | cons x rest => simp

end OneKey

/-! ## Definitions by place -/

theorem keyed_filter (key : String) (p : Definition → Bool) (definitions : List Definition) :
    keyed key (definitions.filter p) = (keyed key definitions).filter p := by
  simp only [keyed, List.filter_filter, Bool.and_comm]

section Places

variable {table : PolicyTable} {key : String} {before behind : List Definition} {d : Definition}

theorem keyed_append_cons (hd : key? d = some key) (hnew : ¬ HasKey key before)
    (behind : List Definition) : keyed key (before ++ d :: behind) = d :: keyed key behind := by
  rw [keyed_append, keyed_eq_nil.mpr hnew, List.nil_append, keyed_cons_of_key hd]

/-- What kindred definitions come to stays in the name space of the first. -/
theorem spaceOf_settled (hd : key? d = some key)
    (h : Kindred (policyOf table key) (d :: keyed key behind)) :
    spaceOf (settled (policyOf table key) d (keyed key behind)) = spaceOf d := by
  have hm : combined? (policyOf table key) key (d :: keyed key behind) =
      some (settled (policyOf table key) d (keyed key behind)) := by
    rw [settled_eq_overlaid hd, overlaid_of_key hd]
    rfl
  exact ((kindred_iff hm).mp h d List.mem_cons_self).symm

/-- A definition of another name space leaves no trace in this one. -/
theorem filter_placed_cons_of_ne {space : NameSpace} (hspace : spaceOf d ≠ space)
    (h : ∀ key, Kindred (policyOf table key) (keyed key (before ++ d :: behind))) :
    (placed (policyOf table) before (d :: behind)).filter (fun d => spaceOf d = space) =
      (placed (policyOf table) (before ++ [d]) behind).filter fun d => spaceOf d = space := by
  rw [placed]
  split
  · simp [hspace]
  · next key hd =>
      by_cases hkey : HasKey key before
      · rw [if_pos hkey]
      · have hkindred := h key
        rw [keyed_append_cons hd hkey] at hkindred
        have hsettled := spaceOf_settled hd hkindred
        rw [if_neg hkey, List.filter_cons]
        simp [hsettled, hspace]

/-- Only definitions of its own name space stand before a definition with its key. -/
theorem hasKey_filter {space : NameSpace} (hspace : spaceOf d = space) (hd : key? d = some key)
    (h : Kindred (policyOf table key) (keyed key (before ++ d :: behind))) :
    HasKey key (before.filter fun d => spaceOf d = space) ↔ HasKey key before := by
  constructor
  · rintro ⟨e, he, hkey⟩
    exact ⟨e, (List.mem_filter.mp he).1, hkey⟩
  · rintro ⟨e, he, hkey⟩
    have hsame := h.same e (mem_keyed.mpr ⟨List.mem_append_left _ he, hkey⟩) d
      (mem_keyed.mpr ⟨by simp, hd⟩)
    exact ⟨e, List.mem_filter.mpr ⟨he, by simpa using hsame.trans hspace⟩, hkey⟩

/-- Where all keys are kindred, what is left of the definitions of a name space is what would be
left without all others. -/
theorem filter_placed (before : List Definition) (space : NameSpace) {definitions : List Definition}
    (h : ∀ key, Kindred (policyOf table key) (keyed key (before ++ definitions))) :
    (placed (policyOf table) before definitions).filter (fun d => spaceOf d = space) =
      placed (policyOf table) (before.filter fun d => spaceOf d = space)
        (definitions.filter fun d => spaceOf d = space) := by
  induction definitions generalizing before with
  | nil => rfl
  | cons d behind ih =>
      have hrest := ih (before ++ [d]) (by simpa using h)
      by_cases hspace : spaceOf d = space
      · have hbefore : (before ++ [d]).filter (fun d => spaceOf d = space) =
            before.filter (fun d => spaceOf d = space) ++ [d] := by simp [hspace]
        have hbehind : (d :: behind).filter (fun d => spaceOf d = space) =
            d :: behind.filter fun d => spaceOf d = space := by simp [hspace]
        rw [hbefore] at hrest
        rw [hbehind, placed, placed]
        split
        · simp only [List.filter_cons, hspace, decide_true, if_true, hrest]
        · next key hd =>
            simp only [hasKey_filter hspace hd (h key)]
            by_cases hkey : HasKey key before
            · rw [if_pos hkey, if_pos hkey, hrest]
            · have hkindred := h key
              rw [keyed_append_cons hd hkey] at hkindred
              have hlater : keyed key (behind.filter fun d => spaceOf d = space) =
                  keyed key behind := by
                rw [keyed_filter, List.filter_eq_self]
                intro e he
                have hsame := hkindred.same e (List.mem_cons_of_mem d he) d List.mem_cons_self
                simpa using hsame.trans hspace
              have hsettled := (spaceOf_settled hd hkindred).trans hspace
              rw [if_neg hkey, if_neg hkey, hlater, List.filter_cons, hrest]
              simp [hsettled]
      · have hbefore : (before ++ [d]).filter (fun d => spaceOf d = space) =
            before.filter (fun d => spaceOf d = space) := by simp [hspace]
        have hbehind : (d :: behind).filter (fun d => spaceOf d = space) =
            behind.filter fun d => spaceOf d = space := by simp [hspace]
        rw [hbehind, ← hbefore, ← hrest, filter_placed_cons_of_ne hspace h]

end Places

/-! ## Documents -/

theorem mergeDefinitions_of_uniqueKeys (table : PolicyTable) {lists : List (List Definition)}
    (h : ∀ list ∈ lists, UniqueKeys list) :
    mergeDefinitions table lists = placed (policyOf table) [] lists.flatten := by
  rw [mergeDefinitions_eq, foldl_add_eq_placed table (uniqueKeys_firstDefinitions h), flatten_eq]

theorem uniqueKeys_filter {definitions : List Definition} (h : UniqueKeys definitions)
    (p : Definition → Bool) : UniqueKeys (definitions.filter p) :=
  List.Nodup.sublist (List.filter_sublist.filterMap key?) h

/-- Merging the definitions of one name space gives the definitions of that name space that merging
all of them gives. -/
theorem mergeDefinitions_filter (table : PolicyTable) {lists : List (List Definition)}
    (hkeys : ∀ list ∈ lists, UniqueKeys list)
    (hkindred : ∀ key, Kindred (policyOf table key) (keyed key lists.flatten))
    (space : NameSpace) :
    mergeDefinitions table (lists.map (List.filter fun d => spaceOf d = space)) =
      (mergeDefinitions table lists).filter fun d => spaceOf d = space := by
  have hparts : ∀ part ∈ lists.map (List.filter fun d => spaceOf d = space), UniqueKeys part := by
    intro part hpart
    obtain ⟨list, hlist, rfl⟩ := List.mem_map.mp hpart
    exact uniqueKeys_filter (hkeys list hlist) _
  rw [mergeDefinitions_of_uniqueKeys _ hparts, mergeDefinitions_of_uniqueKeys _ hkeys,
    ← List.filter_flatten]
  exact (filter_placed [] space hkindred).symm

theorem declares_iff {space : NameSpace} {key : String} {document : Document} :
    Declares space key document ↔ ∃ d ∈ keyed key document.definitions, spaceOf d = space := by
  simp [Declares, mem_keyed, and_assoc]

theorem exists_declares_iff {space : NameSpace} {key : String} {documents : List Document} :
    (∃ document ∈ documents, Declares space key document) ↔
      ∃ d ∈ keyed key (firstDefinitions (documents.map (·.definitions))) ++
        keyed key (laterDefinitions (documents.map (·.definitions))), spaceOf d = space := by
  rw [← keyed_append, ← flatten_eq]
  simp only [declares_iff, mem_keyed, List.mem_flatten, List.mem_map]
  constructor
  · rintro ⟨document, hdocument, d, ⟨hd, hkey⟩, hspace⟩
    exact ⟨d, ⟨⟨_, ⟨document, hdocument, rfl⟩, hd⟩, hkey⟩, hspace⟩
  · rintro ⟨d, ⟨⟨_, ⟨document, hdocument, rfl⟩, hd⟩, hkey⟩, hspace⟩
    exact ⟨document, hdocument, d, ⟨hd, hkey⟩, hspace⟩

/-- Merging loses nothing of a name space where the definitions that are merged under a key are
kindred: each name that a document defines in a name space is defined there by the merged document.
Where the first document with any definitions does not repeat the key, nothing is lost only if they
are. Where no document repeats a key and all definitions of each are kindred, the definitions of a
name space are merged as they would be without all others. -/
theorem mergeDocuments_spaces (table calls : PolicyTable) (documents : List Document)
    (hnamed : ¬ ∃ document ∈ documents, ∃ d ∈ document.definitions, LacksName d) :
    ∃ merged, mergeDocuments (calls ++ table) documents = .ok merged ∧
      (∀ key,
        let first := keyed key (firstDefinitions (documents.map (·.definitions)))
        let later := keyed key (laterDefinitions (documents.map (·.definitions)))
        let met := first.head?.toList ++ later
        keyed key merged.definitions =
            (combined? (strategy calls table key) key met).toList ++ first.tail ∧
          (Kindred (strategy calls table key) met → ∀ space,
            Declares space key merged ↔ ∃ document ∈ documents, Declares space key document) ∧
          (first.length ≤ 1 →
            (∀ space, (∃ document ∈ documents, Declares space key document) →
              Declares space key merged) →
            Kindred (strategy calls table key) met)) ∧
      ((∀ document ∈ documents, UniqueKeys document.definitions) →
        (∀ key, Kindred (strategy calls table key)
          (keyed key (documents.flatMap (·.definitions)))) →
        ∀ space, mergeDocuments (calls ++ table) (documents.map (spacePart space)) =
          .ok (spacePart space merged)) := by
  have hall := named_of_not_lacksName hnamed
  refine ⟨_, mergeDocuments_of_named _ hall, fun key => ?_, fun hkeys hkindred space => ?_⟩
  · intro first later met
    have hkept : keyed key (mergeDefinitions (calls ++ table) (documents.map (·.definitions))) =
        (combined? (strategy calls table key) key met).toList ++ first.tail := by
      rw [keyed_mergeDefinitions_eq, policyOf_append]
    refine ⟨hkept, fun hkindred space => ?_, fun hlength hsurvive => ?_⟩
    · rw [declares_iff, exists_declares_iff, exists_append_tail first,
        ← exists_combined_iff key hkindred]
      change (∃ d ∈ keyed key (mergeDefinitions _ _), _) ↔ _ ∨ ∃ d ∈ first.tail, _
      rw [hkept]
      simp only [List.mem_append, or_and_right, exists_or]
    · rw [length_le_one_iff] at hlength
      rw [hlength, List.append_nil] at hkept
      apply kindred_of_exists key
      intro d hd
      rw [← hkept]
      refine declares_iff.mp (hsurvive (spaceOf d) ?_)
      rw [exists_declares_iff, exists_append_tail first]
      exact .inl ⟨d, hd, rfl⟩
  · have hlists : ∀ list ∈ documents.map (·.definitions), UniqueKeys list := by
      intro list hlist
      obtain ⟨document, hdocument, rfl⟩ := List.mem_map.mp hlist
      exact hkeys document hdocument
    have hparts : ∀ part ∈ documents.map (spacePart space), Named part := by
      intro part hpart d hd
      obtain ⟨document, hdocument, rfl⟩ := List.mem_map.mp hpart
      exact hall document hdocument d (List.mem_filter.mp hd).1
    have hpolicy : policyOf (calls ++ table) = strategy calls table :=
      funext (policyOf_append calls table)
    have hfilter := mergeDefinitions_filter (calls ++ table) hlists
      (by simpa only [hpolicy, List.flatMap_def] using hkindred) space
    rw [List.map_map] at hfilter
    rw [mergeDocuments_of_named _ hparts, List.map_map]
    exact congrArg Except.ok (congrArg Document.ofDefinitions hfilter)

/-- A directive that may be applied to types. -/
def directiveOf (name : String) (arguments : List InputDef) : Definition :=
  .directive ⟨none, name, arguments, false, ["OBJECT"]⟩

/-- A directive and a type of different names are each merged with their own kind. -/
theorem mergeDocuments_spaces_tagged :
    let reason : InputDef := ⟨none, "reason", .named "String", none, []⟩
    let first := Document.ofDefinitions
      [widgetOf "Int", directiveOf "tag" [], .schema ⟨none, [], [⟨.query, "Widget"⟩]⟩]
    let second := Document.ofDefinitions [directiveOf "tag" [reason], widgetOf "ID"]
    (¬ ∃ document ∈ [first, second], ∃ d ∈ document.definitions, LacksName d) ∧
      ∃ merged, mergeDocuments ([] ++ PolicyTable.standard) [first, second] = .ok merged ∧
        (∀ space key, (∃ document ∈ [first, second], Declares space key document) →
          Declares space key merged) ∧
        mergeDocuments ([] ++ PolicyTable.standard)
            ([first, second].map (spacePart .directives)) =
          .ok (spacePart .directives merged) := by
  intro reason first second
  have hnamed : ¬ ∃ document ∈ [first, second], ∃ d ∈ document.definitions, LacksName d := by
    decide
  have hkindred (key : String) : Kindred (strategy [] PolicyTable.standard key)
      (keyed key (first.definitions ++ second.definitions)) :=
    kindred_keyed (strategy [] PolicyTable.standard) (by decide) (by decide) key
  obtain ⟨merged, hmerged, hkept, hparts⟩ :=
    mergeDocuments_spaces PolicyTable.standard [] [first, second] hnamed
  refine ⟨hnamed, merged, hmerged, fun space key hdeclared => ?_, ?_⟩
  · refine ((hkept key).2.1 ((hkindred key).of_sublist ?_) space).mpr hdeclared
    rw [keyed_append]
    exact List.Sublist.append (head?_sublist _) (List.Sublist.refl _)
  · exact hparts (by decide) hkindred .directives

/-- A type takes the place of a directive of its name. -/
theorem mergeDocuments_auth :
    let first := Document.ofDefinitions [directiveOf "auth" []]
    let second := Document.ofDefinitions
      [.type ⟨none, "auth", [], .object [] [⟨none, "id", [], .named "ID", none, [], false⟩]⟩]
    mergeDocuments PolicyTable.standard [first, second] = .ok second ∧
      Declares .directives "auth" first ∧ ¬ Declares .directives "auth" second := by
  decide

end Merge

end RecordApi
