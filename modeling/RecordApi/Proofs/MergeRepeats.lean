import RecordApi.Proofs.MergeOverlays

/-!
# Keys that documents repeat

The definitions of one key are merged apart from all others. Merging combines a later definition
with the first one of its key and does not look at further ones, so of every key it keeps just as
many definitions as the first document that has any, and one of a key that only later documents
have. Where that document repeats no key, a key that overrides is left to the last definition in the
last document that declares it; where it repeats one, a later document takes the place of the first
definition alone.
-/

namespace RecordApi

open RecordApi.Language

namespace Merge

/-- The definitions that merging begins with. -/
def firstDefinitions : List (List Definition) → List Definition
  | [] => []
  | [] :: rest => firstDefinitions rest
  | first :: _ => first

/-- The definitions that merging adds. -/
def laterDefinitions : List (List Definition) → List Definition
  | [] => []
  | [] :: rest => laterDefinitions rest
  | _ :: rest => rest.flatten

/-- The last definition of a key in the last document that declares it. -/
def lastDeclared? (key : String) (documents : List Document) : Option Definition :=
  documents.reverse.findSome? fun document => (keyed key document.definitions).getLast?

theorem mergeDefinitions_eq (table : PolicyTable) (lists : List (List Definition)) :
    mergeDefinitions table lists = (laterDefinitions lists).foldl (add table)
      (firstDefinitions lists) := by
  induction lists with
  | nil => rfl
  | cons first rest ih =>
      cases first with
      | nil => exact ih
      | cons d more => rfl

theorem flatten_eq (lists : List (List Definition)) :
    lists.flatten = firstDefinitions lists ++ laterDefinitions lists := by
  induction lists with
  | nil => rfl
  | cons first rest ih =>
      cases first with
      | nil => exact ih
      | cons d more => rfl

theorem lastDeclared?_eq (key : String) (documents : List Document) :
    lastDeclared? key documents = (keyed key (documents.map (·.definitions)).flatten).getLast? := by
  induction documents using List.reverseRecOn with
  | nil => rfl
  | append_singleton rest document ih =>
      have hlast : lastDeclared? key (rest ++ [document]) =
          (keyed key document.definitions).getLast?.or (lastDeclared? key rest) := by
        simp only [lastDeclared?, List.reverse_append, List.reverse_singleton,
          List.singleton_append, List.findSome?_cons]
        cases (keyed key document.definitions).getLast? <;> rfl
      rw [hlast, ih, List.map_append, List.flatten_append, keyed_append, List.getLast?_append]
      simp

/-! ## One key at a time -/

section OneKey

variable {table : PolicyTable} {key : String}

theorem keyed_cons_of_key {d : Definition} (h : key? d = some key) (rest : List Definition) :
    keyed key (d :: rest) = d :: keyed key rest := by
  simp [keyed, h]

theorem keyed_cons_of_ne {d : Definition} (h : key? d ≠ some key) (rest : List Definition) :
    keyed key (d :: rest) = keyed key rest := by
  simp [keyed, h]

theorem keyed_absorb {d : Definition} (hd : key? d = some key) (policy : MergePolicy)
    (merged : List Definition) :
    keyed key (absorb policy key d merged) = absorb policy key d (keyed key merged) := by
  induction merged with
  | nil => exact keyed_cons_of_key hd []
  | cons e rest ih =>
      rw [absorb]
      split
      · next he =>
          rw [keyed_cons_of_key (key?_combine hd e), keyed_cons_of_key he, absorb, if_pos he]
      · next he => rw [keyed_cons_of_ne he, keyed_cons_of_ne he, ih]

theorem keyed_absorb_of_ne {other : String} {d : Definition} (hd : key? d = some other)
    (hne : other ≠ key) (policy : MergePolicy) (merged : List Definition) :
    keyed key (absorb policy other d merged) = keyed key merged := by
  have hkey : some other ≠ some key := fun h => hne (Option.some.inj h)
  induction merged with
  | nil => exact keyed_cons_of_ne (hd ▸ hkey) []
  | cons e rest ih =>
      rw [absorb]
      split
      · next he =>
          rw [keyed_cons_of_ne (key?_combine hd e ▸ hkey), keyed_cons_of_ne (he ▸ hkey)]
      · by_cases he : key? e = some key
        · rw [keyed_cons_of_key he, keyed_cons_of_key he, ih]
        · rw [keyed_cons_of_ne he, keyed_cons_of_ne he, ih]

/-- Adding a definition changes the definitions of its own key alone. -/
theorem keyed_add (merged : List Definition) (d : Definition) :
    keyed key (add table merged d) =
      if key? d = some key then absorb (policyOf table key) key d (keyed key merged)
      else keyed key merged := by
  cases hd : key? d with
  | none =>
      have hsingle : keyed key [d] = [] := keyed_cons_of_ne (by simp [hd]) []
      rw [add_of_extension table hd, keyed_append, hsingle, List.append_nil, if_neg (by simp)]
  | some other =>
      rw [add_of_key table hd]
      by_cases hother : other = key
      · subst hother
        rw [if_pos rfl, keyed_absorb hd]
      · rw [if_neg (by simpa using hother), keyed_absorb_of_ne hd hother]

/-- Merging definitions merges those of every key by themselves. -/
theorem keyed_foldl_add (definitions merged : List Definition) :
    keyed key (definitions.foldl (add table) merged) =
      (keyed key definitions).foldl (fun merged d => absorb (policyOf table key) key d merged)
        (keyed key merged) := by
  induction definitions generalizing merged with
  | nil => rfl
  | cons d rest ih =>
      rw [List.foldl_cons, ih, keyed_add]
      by_cases hd : key? d = some key
      · rw [if_pos hd, keyed_cons_of_key hd, List.foldl_cons]
      · rw [if_neg hd, keyed_cons_of_ne hd]

/-- The first definition of a key takes in all later ones. -/
theorem foldl_absorb {definitions : List Definition} (h : ∀ d ∈ definitions, key? d = some key)
    (policy : MergePolicy) {e : Definition} (he : key? e = some key) (rest : List Definition) :
    definitions.foldl (fun merged d => absorb policy key d merged) (e :: rest) =
      definitions.foldl (combine policy key) e :: rest := by
  induction definitions generalizing e with
  | nil => rfl
  | cons d more ih =>
      obtain ⟨hd, hmore⟩ := List.forall_mem_cons.mp h
      have habsorb : absorb policy key d (e :: rest) = combine policy key e d :: rest := if_pos he
      rw [List.foldl_cons, habsorb, ih hmore (key?_combine hd e), List.foldl_cons]

theorem foldl_override (d : Definition) (later : List Definition) :
    later.foldl (combine .override key) d = later.getLast?.getD d :=
  foldl_combine_eq_settled (by simp) later

/-- What definitions of a key come to when each is combined with those before it. -/
def combined? (policy : MergePolicy) (key : String) : List Definition → Option Definition
  | [] => none
  | d :: later => some (later.foldl (combine policy key) d)

theorem combined?_override (definitions : List Definition) :
    combined? .override key definitions = definitions.getLast? := by
  cases definitions with
  | nil => rfl
  | cons d later =>
      rw [List.getLast?_cons]
      exact congrArg some (foldl_override d later)

/-- Merging combines the first definition of a key with all that are added, and keeps what is behind
the first one. -/
theorem keyed_foldl_add_eq (definitions merged : List Definition) :
    keyed key (definitions.foldl (add table) merged) =
      (combined? (policyOf table key) key
        ((keyed key merged).head?.toList ++ keyed key definitions)).toList ++
        (keyed key merged).tail := by
  have hadded : ∀ e ∈ keyed key definitions, key? e = some key := key?_of_mem_keyed
  have hmerged : ∀ e ∈ keyed key merged, key? e = some key := key?_of_mem_keyed
  rw [keyed_foldl_add]
  generalize keyed key definitions = added at hadded
  generalize keyed key merged = kept at hmerged
  cases kept with
  | cons e others => exact foldl_absorb hadded _ (hmerged e List.mem_cons_self) others
  | nil =>
      cases added with
      | nil => rfl
      | cons d more =>
          obtain ⟨hd, hmore⟩ := List.forall_mem_cons.mp hadded
          exact foldl_absorb hmore _ hd []

/-- Merging keeps of every key what is behind its first definition. In the place of the first one a
key that overrides has the last of the definitions that are added. -/
theorem keyed_merged (definitions merged : List Definition) :
    (keyed key (definitions.foldl (add table) merged)).tail = (keyed key merged).tail ∧
      (policyOf table key = .override →
        (keyed key (definitions.foldl (add table) merged)).head? =
          (keyed key definitions).getLast?.or (keyed key merged).head?) := by
  rw [keyed_foldl_add_eq]
  generalize keyed key definitions = added
  generalize keyed key merged = kept
  cases kept with
  | cons e others =>
      refine ⟨rfl, fun hpolicy => ?_⟩
      rw [hpolicy]
      change some (added.foldl (combine .override key) e) = added.getLast?.or (some e)
      rw [foldl_override]
      cases added.getLast? <;> rfl
  | nil =>
      cases added with
      | nil => exact ⟨rfl, fun _ => rfl⟩
      | cons d more =>
          refine ⟨rfl, fun hpolicy => ?_⟩
          rw [hpolicy]
          change some (more.foldl (combine .override key) d) = (d :: more).getLast?.or none
          rw [foldl_override, List.getLast?_cons, Option.or_none]

end OneKey

/-! ## Documents -/

theorem length_le_one_iff {α : Type} (items : List α) : items.length ≤ 1 ↔ items.tail = [] := by
  rw [← List.length_eq_zero_iff, List.length_tail]
  omega

theorem eq_of_tail_eq_nil {α : Type} {items : List α} (h : items.tail = []) :
    items = items.head?.toList ∧ items.head? = items.getLast? := by
  cases items with
  | nil => exact ⟨rfl, rfl⟩
  | cons x rest =>
      obtain rfl : rest = [] := h
      exact ⟨rfl, rfl⟩

section Documents

variable {table : PolicyTable}

theorem firstDefinitions_mem (lists : List (List Definition)) :
    firstDefinitions lists = [] ∨ firstDefinitions lists ∈ lists := by
  induction lists with
  | nil => exact .inl rfl
  | cons first rest ih =>
      cases first with
      | nil => exact ih.imp_right (List.mem_cons_of_mem _)
      | cons d more => exact .inr List.mem_cons_self

theorem length_keyed_of_uniqueKeys {definitions : List Definition} (h : UniqueKeys definitions)
    (key : String) : (keyed key definitions).length ≤ 1 := by
  cases hkeyed : keyed key definitions with
  | nil => exact Nat.zero_le 1
  | cons d rest =>
      obtain ⟨hd, hkey⟩ := mem_keyed.mp (hkeyed ▸ List.mem_cons_self : d ∈ keyed key definitions)
      rw [← hkeyed, keyed_of_uniqueKeys h hd hkey]
      exact Nat.le_refl 1

theorem uniqueKeys_firstDefinitions {lists : List (List Definition)}
    (h : ∀ list ∈ lists, UniqueKeys list) : UniqueKeys (firstDefinitions lists) := by
  rcases firstDefinitions_mem lists with hnone | hmem
  · rw [hnone]
    exact List.nodup_nil
  · exact h _ hmem

/-- Lists that repeat no key are merged into one that repeats none. -/
theorem uniqueKeys_mergeDefinitions {lists : List (List Definition)}
    (h : ∀ list ∈ lists, UniqueKeys list) : UniqueKeys (mergeDefinitions table lists) := by
  rw [mergeDefinitions_eq]
  exact uniqueKeys_foldl_add (uniqueKeys_firstDefinitions h) _

/-- Merging neither loses a key nor comes up with one. -/
theorem hasKey_mergeDefinitions {lists : List (List Definition)} {key : String} :
    HasKey key (mergeDefinitions table lists) ↔ HasKey key lists.flatten := by
  rw [mergeDefinitions_eq, hasKey_foldl_add, or_comm, ← hasKey_append, ← flatten_eq]

/-- Merging combines the first definition of a key with all of the lists behind the first one, and
keeps what the first list repeats. -/
theorem keyed_mergeDefinitions_eq (key : String) (lists : List (List Definition)) :
    keyed key (mergeDefinitions table lists) =
      (combined? (policyOf table key) key
        ((keyed key (firstDefinitions lists)).head?.toList ++
          keyed key (laterDefinitions lists))).toList ++
        (keyed key (firstDefinitions lists)).tail := by
  rw [mergeDefinitions_eq, keyed_foldl_add_eq]

/-- A key that merging does not begin with twice stands for what all its definitions come to. -/
theorem keyed_mergeDefinitions_of_length {lists : List (List Definition)} {key : String}
    (h : (keyed key (firstDefinitions lists)).length ≤ 1) :
    keyed key (mergeDefinitions table lists) =
      (combined? (policyOf table key) key (keyed key lists.flatten)).toList := by
  rw [length_le_one_iff] at h
  rw [keyed_mergeDefinitions_eq, h, List.append_nil, ← (eq_of_tail_eq_nil h).1, flatten_eq,
    keyed_append]

/-- Of a key that overrides, and that merging does not begin with twice, the last definition is
left. -/
theorem keyed_mergeDefinitions {lists : List (List Definition)} {key : String}
    (hpolicy : policyOf table key = .override)
    (h : (keyed key (firstDefinitions lists)).length ≤ 1) :
    keyed key (mergeDefinitions table lists) = (keyed key lists.flatten).getLast?.toList := by
  rw [keyed_mergeDefinitions_of_length h, hpolicy, combined?_override]

/-- A definition of a key is the first of the first list, one that is added, or a repeated one. -/
theorem exists_append_tail (first : List Definition) {later : List Definition}
    {p : Definition → Prop} :
    (∃ d ∈ first ++ later, p d) ↔
      (∃ d ∈ first.head?.toList ++ later, p d) ∨ ∃ d ∈ first.tail, p d := by
  cases first with
  | nil => simp
  | cons e rest => simp [or_and_right, exists_or, or_assoc, or_comm]

end Documents

/-- Named definitions of documents are merged into a document that has one definition of every key
and what the first document with any definitions repeats of it. If that document does not repeat a
key that overrides, the last definition in the last document with the key is left of it; otherwise
the last definition of the documents behind is left in the place of the first. -/
theorem mergeDocuments_keyed (table calls : PolicyTable) (documents : List Document)
    (hnamed : ¬ ∃ document ∈ documents, ∃ d ∈ document.definitions, LacksName d) :
    ∃ merged, mergeDocuments (calls ++ table) documents = .ok merged ∧ ∀ key,
      let first := keyed key (firstDefinitions (documents.map (·.definitions)))
      let later := keyed key (laterDefinitions (documents.map (·.definitions)))
      (keyed key merged.definitions).tail = first.tail ∧
      ((keyed key merged.definitions).length ≤ 1 ↔ first.length ≤ 1) ∧
      (strategy calls table key = .override →
        (keyed key merged.definitions).head? = later.getLast?.or first.head? ∧
        (first.length ≤ 1 →
          keyed key merged.definitions = (lastDeclared? key documents).toList)) := by
  have hall := named_of_not_lacksName hnamed
  refine ⟨_, mergeDocuments_of_named _ hall, fun key => ?_⟩
  intro first later
  obtain ⟨htail, hhead⟩ : _ ∧ (_ → _ = later.getLast?.or first.head?) :=
    @keyed_merged (calls ++ table) key
      (laterDefinitions (documents.map (·.definitions)))
      (firstDefinitions (documents.map (·.definitions)))
  rw [← mergeDefinitions_eq] at htail hhead
  refine ⟨htail, ?_, fun hpolicy => ?_⟩
  · rw [length_le_one_iff, length_le_one_iff]
    exact Eq.congr_left htail
  · rw [← policyOf_append] at hpolicy
    refine ⟨hhead hpolicy, fun hlength => ?_⟩
    rw [lastDeclared?_eq]
    exact keyed_mergeDefinitions hpolicy hlength

/-- A widget with fields of a type. -/
def widgetOf (type : String) : Definition :=
  .type ⟨none, "Widget", [], .object [] [⟨none, "size", [], .named type, none, [], false⟩]⟩

/-- A later document repeats a key and yet leaves one definition of it. -/
theorem mergeDocuments_keyed_later :
    (¬ ∃ document ∈ [Document.ofDefinitions [widgetOf "Int"],
        Document.ofDefinitions [widgetOf "ID", widgetOf "Float"]],
      ∃ d ∈ document.definitions, LacksName d) ∧
    ∃ merged, mergeDocuments ([] ++ PolicyTable.standard)
        [Document.ofDefinitions [widgetOf "Int"],
          Document.ofDefinitions [widgetOf "ID", widgetOf "Float"]] = .ok merged ∧
      keyed "Widget" merged.definitions = [widgetOf "Float"] := by
  have hnamed : ¬ ∃ document ∈ [Document.ofDefinitions [widgetOf "Int"],
        Document.ofDefinitions [widgetOf "ID", widgetOf "Float"]],
      ∃ d ∈ document.definitions, LacksName d := by
    decide
  obtain ⟨merged, hmerged, hkeyed⟩ := mergeDocuments_keyed PolicyTable.standard [] _ hnamed
  obtain ⟨-, -, hoverride⟩ := hkeyed "Widget"
  exact ⟨hnamed, merged, hmerged, (hoverride (by decide)).2 (by decide)⟩

/-- A key that the first document repeats is left twice, and its last definition is not the one of
the last document. -/
theorem mergeDocuments_repeated :
    mergeDocuments ([] ++ PolicyTable.standard)
        [Document.ofDefinitions [widgetOf "Int", widgetOf "ID"],
          Document.ofDefinitions [widgetOf "Float"]] =
      .ok (Document.ofDefinitions [widgetOf "Float", widgetOf "ID"]) ∧
    strategy [] PolicyTable.standard "Widget" = .override ∧
    (keyed "Widget" [widgetOf "Float", widgetOf "ID"]).length = 2 ∧
    lastDeclared? "Widget" [Document.ofDefinitions [widgetOf "Int", widgetOf "ID"],
        Document.ofDefinitions [widgetOf "Float"]] = some (widgetOf "Float") := by
  decide

end Merge

end RecordApi
