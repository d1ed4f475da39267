import Mathlib.Data.List.Infix
import RecordApi.Proofs.Derivation.Assembled
import RecordApi.Proofs.Derivation.Precedence

/-!
# Types of an assembled schema

A name stands for what the last definition of that name makes of it. The input types of a root type
are the ones that are emitted under their names, and its type of mutations keeps its fields unless
something of its name is merged over it.
-/

namespace RecordApi

open RecordApi.Language

/-! ## Names of derived types -/

theorem append_ne {suffix other : String} (h : ¬ suffix.toList <:+ other.toList)
    (front : String) : front ++ suffix ≠ other := by
  rintro rfl
  rw [String.toList_append] at h
  exact h (List.suffix_append _ _)

theorem append_ne_append {a b : String} (hab : ¬ a.toList <:+ b.toList)
    (hba : ¬ b.toList <:+ a.toList) (x y : String) : x ++ a ≠ y ++ b := by
  apply append_ne
  intro ha
  have hb : b.toList <:+ (y ++ b).toList := by
    rw [String.toList_append]
    exact List.suffix_append _ _
  exact (List.suffix_or_suffix_of_suffix ha hb).elim hab hba

theorem inputName_eq_append (mode : InputMode) (name : String) :
    ∃ front, mode.inputName name = front ++ "Input" := by
  cases mode
  · exact ⟨name, rfl⟩
  · exact ⟨name ++ "Update", by rw [String.append_assoc]; rfl⟩

theorem inputName_ne {other : String} (h : ¬ "Input".toList <:+ other.toList) (mode : InputMode)
    (name : String) : mode.inputName name ≠ other := by
  obtain ⟨front, hfront⟩ := inputName_eq_append mode name
  rw [hfront]
  exact append_ne h front

theorem inputName_ne_schemaKey (mode : InputMode) (name : String) :
    mode.inputName name ≠ Merge.schemaKey :=
  inputName_ne (by decide) mode name

/-- What ends otherwise is not the name of an input type. -/
theorem inputName_ne_append {suffix : String} (hinput : ¬ "Input".toList <:+ suffix.toList)
    (hsuffix : ¬ suffix.toList <:+ "Input".toList) (mode : InputMode) (name front : String) :
    mode.inputName name ≠ front ++ suffix := by
  obtain ⟨own, hown⟩ := inputName_eq_append mode name
  rw [hown]
  exact append_ne_append hinput hsuffix own front

/-- Two pairs have one input name only if one type is called like the other with Update behind. -/
theorem InputPair.eq_of_inputName {p q : InputPair} (h : p.inputName = q.inputName) :
    p = q ∨ (p = ⟨q.typeName ++ "Update", .create⟩ ∧ q.mode = .update) ∨
      (p.mode = .update ∧ q = ⟨p.typeName ++ "Update", .create⟩) := by
  obtain ⟨name, mode⟩ := p
  obtain ⟨other, otherMode⟩ := q
  have hsplit (x : String) : x ++ "UpdateInput" = x ++ "Update" ++ "Input" := by
    rw [String.append_assoc]
    rfl
  cases mode <;> cases otherMode
  · obtain rfl := InputMode.inputName_injective h
    exact .inl rfl
  · change name ++ "Input" = other ++ "UpdateInput" at h
    rw [hsplit] at h
    obtain rfl := (String.append_left_inj _).mp h
    exact .inr (.inl ⟨rfl, rfl⟩)
  · change name ++ "UpdateInput" = other ++ "Input" at h
    rw [hsplit] at h
    obtain rfl := (String.append_left_inj _).mp h
    exact .inr (.inr ⟨rfl, rfl⟩)
  · obtain rfl := InputMode.inputName_injective h
    exact .inl rfl

/-! ## Lookups -/

theorem typeNamed?_of_find? {document : Document} {name : String} {t : TypeDef}
    (h : document.definitions.find? (Merge.key? · == some name) = some (.type t)) :
    document.typeNamed? name = some t := by
  unfold Document.typeNamed? Document.types
  generalize document.definitions = definitions at h ⊢
  induction definitions with
  | nil => simp at h
  | cons d rest ih =>
      rw [List.find?_cons] at h
      split at h
      · next hkey =>
          obtain rfl := Option.some.inj h
          have hname : t.name = name := by simpa [Merge.key?, Definition.name?] using hkey
          simp [hname]
      · next hkey =>
          cases d with
          | type e =>
              have hname : (e.name == name) = false := by
                simpa [Merge.key?, Definition.name?] using hkey
              simpa [hname] using ih h
          | _ => exact ih h

/-- A definition with both roots in it if it is that of a schema. -/
def completeDefinition (names : RootNames) : Definition → Definition
  | .schema d => .schema (Assembly.completeRoots names d)
  | d => d

theorem completeSchema_eq (document : Document) :
    Assembly.completeSchema document = Document.ofDefinitions
      (document.definitions.map (completeDefinition (RootNames.ofDocument document))) := by
  unfold Assembly.completeSchema
  refine congrArg Document.ofDefinitions (List.map_congr_left fun d _ => ?_)
  cases d <;> rfl

@[simp] theorem key?_completeDefinition (names : RootNames) (d : Definition) :
    Merge.key? (completeDefinition names d) = Merge.key? d := by
  cases d <;> rfl

@[simp] theorem name?_completeDefinition (names : RootNames) (d : Definition) :
    (completeDefinition names d).name? = d.name? := by
  cases d <;> rfl

theorem declaredNames_completeSchema (document : Document) :
    declaredNames (Assembly.completeSchema document) = declaredNames document := by
  rw [completeSchema_eq, declaredNames, Document.ofDefinitions, List.filterMap_map]
  exact List.filterMap_congr fun d _ => name?_completeDefinition _ d

theorem types_completeSchema (document : Document) :
    (Assembly.completeSchema document).types = document.types := by
  rw [completeSchema_eq, Document.types, Document.ofDefinitions, List.filterMap_map]
  refine List.filterMap_congr fun d _ => ?_
  cases d <;> rfl

theorem typeNamed?_completeSchema (document : Document) (name : String) :
    (Assembly.completeSchema document).typeNamed? name = document.typeNamed? name := by
  rw [Document.typeNamed?, types_completeSchema, Document.typeNamed?]

/-- The merged document of a schema holds the primitives, and behind them the rest. -/
theorem merged_definitions {s : Sources} {generated : List (List Definition)} {merged : Document}
    (h : Merge.mergeDocuments (mergedPolicies s) (mergedDocuments s generated) = .ok merged) :
    merged.definitions =
      (s.working.definitions ++ generated.flatten).foldl (Merge.add (mergedPolicies s))
        (Primitives.definitions s.options.ns) := by
  unfold Merge.mergeDocuments at h
  dsimp only at h
  split at h
  · simp at h
  · obtain rfl := Except.ok.inj h
    have hfragments : (generated.map Document.ofDefinitions).map (·.definitions) = generated := by
      rw [List.map_map]
      exact List.map_id _
    have hne : Primitives.definitions s.options.ns ≠ [] := by simp [Primitives.definitions]
    rw [mergedDocuments, List.map_cons, List.map_cons, hfragments]
    simp only [Document.ofDefinitions]
    rw [Merge.mergeDefinitions_cons_of_ne_nil _ hne, List.flatten_cons]

/-- What a key stands for in the merged document of a schema. -/
theorem find?_merged {s : Sources} {generated : List (List Definition)} {merged : Document}
    (h : Merge.mergeDocuments (mergedPolicies s) (mergedDocuments s generated) = .ok merged)
    (key : String) :
    merged.definitions.find? (Merge.key? · == some key) =
      (s.working.definitions ++ generated.flatten).foldl (Merge.united (mergedPolicies s) key)
        ((Primitives.definitions s.options.ns).find? (Merge.key? · == some key)) := by
  rw [merged_definitions h, Merge.find?_foldl_add]

/-- Whether a name is that of the type which serves queries or mutations. -/
def RootNames.Includes (names : RootNames) (name : String) : Prop :=
  name = names.query ∨ name = names.mutation

instance (names : RootNames) (name : String) : Decidable (names.Includes name) :=
  inferInstanceAs (Decidable (name = names.query ∨ name = names.mutation))

/-- No input type serves a schema whose queries and mutations are served by types of names that end
otherwise. -/
theorem not_includes_inputName {names : RootNames}
    (hquery : ¬ "Input".toList <:+ names.query.toList)
    (hmutation : ¬ "Input".toList <:+ names.mutation.toList) (p : InputPair) :
    ¬ names.Includes p.inputName := by
  rintro (hsame | hsame)
  · exact inputName_ne hquery p.mode p.typeName hsame
  · exact inputName_ne hmutation p.mode p.typeName hsame

/-- The policy for a key that is not that of a root of the schema. -/
theorem policyOf_eq_override {s : Sources} {key : String}
    (hroots : ¬ (RootNames.ofDocument s.working).Includes key)
    (hstandard : key ∉ ["Query", "Mutation", "Subscription"]) :
    Merge.policyOf (mergedPolicies s) key = .override := by
  obtain ⟨hquery, hmutation⟩ := not_or.mp hroots
  simp only [List.mem_cons, List.not_mem_nil, or_false, not_or] at hstandard
  unfold Merge.policyOf
  split
  · rfl
  · simp [PolicyTable.policyFor, mergedPolicies, Assembly.rootPolicies, PolicyTable.standard,
      Association.lookup_cons, hquery, hmutation, hstandard]

theorem inputName_not_mem_standard (mode : InputMode) (name : String) :
    mode.inputName name ∉ ["Query", "Mutation", "Subscription"] := by
  simp only [List.mem_cons, List.not_mem_nil, or_false, not_or]
  exact ⟨inputName_ne (by decide) mode name, inputName_ne (by decide) mode name,
    inputName_ne (by decide) mode name⟩

theorem policyOf_root {s : Sources} {key : String} (hschema : key ≠ Merge.schemaKey)
    (h : (RootNames.ofDocument s.working).Includes key) :
    Merge.policyOf (mergedPolicies s) key = .fieldUnion := by
  rw [Merge.policyOf, if_neg hschema]
  by_cases hquery : key = (RootNames.ofDocument s.working).query
  · simp [PolicyTable.policyFor, mergedPolicies, Assembly.rootPolicies, hquery]
  · have hmutation := h.resolve_left hquery
    simp [PolicyTable.policyFor, mergedPolicies, Assembly.rootPolicies, Association.lookup_cons,
      ← hmutation]

/-! ## Definitions of fragments -/

/-- The definitions of all fragments. -/
theorem mem_flatten_ofPairs {basis : Basis} {ds : List Descriptor} {parts : List (List InputPair)}
    (h : parts.length = ds.length) {definition : Definition} :
    definition ∈ (List.zipWith (Fragment.ofPairs basis) ds parts).flatten ↔
      (∃ p ∈ parts.flatten, definition = .type (basis.inputOf p)) ∨
      ∃ d ∈ ds, definition ∈
        (Fragment.outputTypes basis d).map .type ++ Fragment.augmented basis d.typeName := by
  induction ds generalizing parts with
  | nil => simp [List.length_eq_zero_iff.mp h]
  | cons d rest ih =>
      cases parts with
      | nil => simp at h
      | cons added more =>
          rw [List.zipWith_cons_cons, List.flatten_cons, List.mem_append, ih (Nat.succ.inj h),
            Fragment.ofPairs, List.map_append, List.append_assoc, List.mem_append]
          constructor
          · rintro ((hinput | houtput) | ⟨p, hp, rfl⟩ | ⟨e, he, houtput⟩)
            · rw [List.map_map] at hinput
              obtain ⟨p, hp, rfl⟩ := List.mem_map.mp hinput
              exact .inl ⟨p, by simp [hp], rfl⟩
            · exact .inr ⟨d, List.mem_cons_self, houtput⟩
            · exact .inl ⟨p, List.mem_append_right _ hp, rfl⟩
            · exact .inr ⟨e, List.mem_cons_of_mem d he, houtput⟩
          · rintro (⟨p, hp, rfl⟩ | ⟨e, he, houtput⟩)
            · rcases List.mem_append.mp hp with hp | hp
              · exact .inl (.inl (by simpa using ⟨p, hp, rfl⟩))
              · exact .inr (.inl ⟨p, hp, rfl⟩)
            · rcases List.mem_cons.mp he with rfl | he
              · exact .inl (.inr houtput)
              · exact .inr (.inr ⟨e, he, houtput⟩)

/-- The definitions of a fragment behind its type of mutations. -/
def closingTypes (basis : Basis) (d : Descriptor) : List Definition :=
  (Fragment.entryPoints basis.roots d.typeName).map .type ++ Fragment.augmented basis d.typeName

theorem outputTypes_eq (basis : Basis) (d : Descriptor) :
    (Fragment.outputTypes basis d).map .type ++ Fragment.augmented basis d.typeName =
      ([Fragment.edgeType d.typeName, Fragment.connectionType basis.options.ns d.typeName,
        Fragment.queryType basis.options d].map .type) ++
        .type (Fragment.mutationType d) :: closingTypes basis d := by
  simp [Fragment.outputTypes, closingTypes]

/-- What the types of a fragment are called in front of its type of mutations. -/
def pageSuffixes : List String :=
  ["Edge", "Connection", "Query"]

theorem mem_outputTypes {basis : Basis} {d : Descriptor} {definition : Definition}
    (h : definition ∈
      (Fragment.outputTypes basis d).map .type ++ Fragment.augmented basis d.typeName) :
    (∃ t, definition = .type t ∧ ∃ suffix ∈ pageSuffixes, t.name = d.typeName ++ suffix) ∨
      definition = .type (Fragment.mutationType d) ∨ definition ∈ closingTypes basis d := by
  rw [outputTypes_eq] at h
  rcases List.mem_append.mp h with h | h
  · left
    obtain ⟨t, ht, rfl⟩ := List.mem_map.mp h
    simp only [List.mem_cons, List.not_mem_nil, or_false] at ht
    rcases ht with rfl | rfl | rfl
    · exact ⟨_, rfl, "Edge", by decide, rfl⟩
    · exact ⟨_, rfl, "Connection", by decide, rfl⟩
    · exact ⟨_, rfl, "Query", by decide, rfl⟩
  · right
    exact List.mem_cons.mp h

theorem inputName_ne_page {suffix : String} (h : suffix ∈ pageSuffixes) (mode : InputMode)
    (name front : String) : mode.inputName name ≠ front ++ suffix := by
  have hsuffixes : ∀ suffix ∈ pageSuffixes,
      ¬ "Input".toList <:+ suffix.toList ∧ ¬ suffix.toList <:+ "Input".toList := by
    decide
  obtain ⟨hinput, hsuffix⟩ := hsuffixes suffix h
  exact inputName_ne_append hinput hsuffix mode name front

theorem mutation_ne_page {suffix : String} (h : suffix ∈ pageSuffixes) (name front : String) :
    name ++ "Mutation" ≠ front ++ suffix := by
  have hsuffixes : ∀ suffix ∈ pageSuffixes,
      ¬ "Mutation".toList <:+ suffix.toList ∧ ¬ suffix.toList <:+ "Mutation".toList := by
    decide
  obtain ⟨hmutation, hsuffix⟩ := hsuffixes suffix h
  exact append_ne_append hmutation hsuffix name front

theorem mutation_ne_inputName (mode : InputMode) (name front : String) :
    mode.inputName name ≠ front ++ "Mutation" :=
  inputName_ne_append (by decide) (by decide) mode name front

/-- Behind its type of mutations, a fragment holds the entry points of its root type, and the root
type itself if times have to be added. -/
theorem mem_closingTypes {basis : Basis} {d : Descriptor} {definition : Definition}
    (h : definition ∈ closingTypes basis d) :
    ∃ t, definition = .type t ∧
      (basis.roots.Includes t.name ∧
          (∀ f ∈ definition.fields, f.name = Naming.lowerCamel d.typeName) ∨
        basis.options.timestamps ∧ t.name = d.typeName ∧
          Fragment.withTimestamps basis d.typeName = some t) := by
  rcases List.mem_append.mp h with h | h
  · obtain ⟨t, ht, rfl⟩ := List.mem_map.mp h
    simp only [Fragment.entryPoints, List.mem_cons, List.not_mem_nil, or_false] at ht
    refine ⟨t, rfl, .inl ?_⟩
    rcases ht with rfl | rfl
    · exact ⟨.inl rfl, by simp [Fragment.objectType, Definition.fields, Fragment.plainField]⟩
    · exact ⟨.inr rfl, by simp [Fragment.objectType, Definition.fields, Fragment.plainField]⟩
  · unfold Fragment.augmented at h
    split at h
    · next htimes =>
        obtain ⟨t, ht, rfl⟩ := List.mem_map.mp h
        have htimed := Option.mem_toList.mp ht
        obtain ⟨e, interfaces, fields, htype, -, -, rfl⟩ := withTimestamps_eq_some.mp htimed
        have hname : e.name = d.typeName := by simpa using List.find?_some htype
        exact ⟨_, rfl, .inr ⟨htimes, hname, htimed⟩⟩
    · simp at h

/-- The definitions of all fragments, divided at the type of mutations of one root type. -/
theorem flatten_ofPairs_at {basis : Basis} {front rest : List Descriptor} {d : Descriptor}
    {parts : List (List InputPair)} (h : parts.length = (front ++ d :: rest).length) :
    ∃ before behind,
      (List.zipWith (Fragment.ofPairs basis) (front ++ d :: rest) parts).flatten =
        before ++ .type (Fragment.mutationType d) :: behind ∧
      ∀ e ∈ behind, (∃ p ∈ parts.flatten, e = .type (basis.inputOf p)) ∨
        e ∈ closingTypes basis d ∨
        ∃ r ∈ rest, e ∈
          (Fragment.outputTypes basis r).map .type ++ Fragment.augmented basis r.typeName := by
  induction front generalizing parts with
  | nil =>
      cases parts with
      | nil => simp at h
      | cons added more =>
          have hmore : more.length = rest.length := Nat.succ.inj h
          rw [List.nil_append, List.zipWith_cons_cons, List.flatten_cons, Fragment.ofPairs,
            List.map_append, List.append_assoc ((added.map basis.inputOf).map _), outputTypes_eq]
          simp only [List.append_assoc, List.cons_append]
          rw [← List.append_assoc]
          refine ⟨_, _, rfl, fun e he => ?_⟩
          rcases List.mem_append.mp he with he | he
          · exact .inr (.inl he)
          · rcases (mem_flatten_ofPairs hmore).mp he with ⟨p, hp, rfl⟩ | hlater
            · exact .inl ⟨p, List.mem_append_right _ hp, rfl⟩
            · exact .inr (.inr hlater)
  | cons first front ih =>
      cases parts with
      | nil => simp at h
      | cons added more =>
          obtain ⟨before, behind, hflatten, hbehind⟩ := ih (Nat.succ.inj h)
          rw [List.cons_append, List.zipWith_cons_cons, List.flatten_cons, hflatten]
          refine ⟨Fragment.ofPairs basis first added ++ before, behind,
            (List.append_assoc _ _ _).symm, fun e he => ?_⟩
          rcases hbehind e he with ⟨p, hp, rfl⟩ | hlater
          · exact .inl ⟨p, List.mem_append_right _ hp, rfl⟩
          · exact .inr hlater

/-! ## Types of an assembled schema -/

/-- The root types from one on. -/
def Sources.rootsFrom (s : Sources) (name : String) : List String :=
  s.roots.eraseDups.dropWhile (· != name)

/-- Whether nothing is merged over a mutation of a root type: no entry point of its name, where the
type of mutations serves the schema, and not the type of mutations as a later root type itself. -/
structure Sources.KeepsMutation (s : Sources) (name field : String) : Prop where
  entries : (RootNames.ofDocument s.working).Includes (name ++ "Mutation") →
    ∀ root ∈ s.rootsFrom name, Naming.lowerCamel root ≠ field
  times : s.options.timestamps → name ++ "Mutation" ∈ s.rootsFrom name →
    ∀ declared, s.working.composite? (name ++ "Mutation") = some declared →
      (∀ time ∈ timestampFields, time ∈ declared.map (·.name)) ∨
        (RootNames.ofDocument s.working).Includes (name ++ "Mutation") ∧
          field ∉ declared.map (·.name)

section Merged

variable {s : Sources} {descriptors : List Descriptor} {generated : List (List Definition)}
  {merged : Document}
  (hdistinct : (s.working.types.map (·.name)).Nodup)
  (hroots : s.roots.eraseDups.mapM (Assembly.describeRoot s.working s.options.selector) =
    .ok descriptors)
  (hwritten : s.working.Written)
  (hns : s.options.ns.toList.all isNameContinue)
  (hgenerated : Assembly.fragments (Assembly.rootBasis s.working s.options descriptors)
    descriptors = .ok generated)
  (hmerged : Merge.mergeDocuments (mergedPolicies s) (mergedDocuments s generated) = .ok merged)

include hdistinct hroots hwritten hns hgenerated

omit hdistinct hwritten hns hgenerated in
theorem declared_of_root {name : String} (h : name ∈ s.roots) : name ∈ declaredNames s.working := by
  obtain ⟨d, hd, rfl⟩ := (mem_roots hroots).mp h
  obtain ⟨-, fields, idField, hfields, -⟩ := describeRoot_eq_ok (describeRoot_of_mem hroots hd)
  obtain ⟨t, ht, hbody⟩ := List.exists_of_findSome?_eq_some hfields
  refine List.mem_filterMap.mpr ⟨.type t, mem_types.mp (List.mem_reverse.mp ht), ?_⟩
  obtain ⟨_, _, _, body⟩ := t
  cases body <;> simp_all [Definition.name?]

/-- The definitions of fragments that have the name of an input type of a root type. -/
theorem input_of_key {name : String} {mode : InputMode}
    (hdeclared : mode.inputName name ∉ declaredNames s.working)
    (hrole : ¬ (RootNames.ofDocument s.working).Includes (mode.inputName name))
    {p : InputPair} (hp : s.Emitted p) (hpname : p.inputName = mode.inputName name) :
    .type ((Assembly.rootBasis s.working s.options descriptors).inputOf p) ∈ generated.flatten ∧
      ∀ e ∈ generated.flatten, Merge.key? e = some (mode.inputName name) →
        e = .type ((Assembly.rootBasis s.working s.options descriptors).inputOf p) := by
  obtain ⟨parts, hlength, rfl, hemitted, hnodup⟩ :=
    fragments_of_emitted hdistinct hroots hwritten hns hgenerated
  have hmem := (hemitted p).mpr hp
  refine ⟨(mem_flatten_ofPairs hlength).mpr (.inl ⟨p, hmem, rfl⟩), fun e he hkey => ?_⟩
  rcases (mem_flatten_ofPairs hlength).mp he with ⟨q, hq, rfl⟩ | ⟨r, hr, he⟩
  · have hsame : q.inputName = p.inputName := by
      rw [hpname]
      exact Option.some.inj hkey
    rw [List.inj_on_of_nodup_map hnodup hq hmem hsame]
  · rcases mem_outputTypes he with ⟨t, rfl, suffix, hsuffix, ht⟩ | rfl | he
    · have hkey : t.name = mode.inputName name := Option.some.inj hkey
      exact absurd (hkey.symm.trans ht) (inputName_ne_page hsuffix mode name _)
    · have hkey : r.typeName ++ "Mutation" = mode.inputName name := Option.some.inj hkey
      exact absurd hkey.symm (mutation_ne_inputName mode name _)
    · obtain ⟨t, rfl, hclosing⟩ := mem_closingTypes he
      have hkey : t.name = mode.inputName name := Option.some.inj hkey
      rw [hkey] at hclosing
      rcases hclosing with ⟨hincludes, -⟩ | ⟨-, hroot, -⟩
      · exact absurd hincludes hrole
      · have hmemRoot : r.typeName ∈ s.roots := (mem_roots hroots).mpr ⟨r, hr, rfl⟩
        rw [← hroot] at hmemRoot
        exact absurd (declared_of_root hroots hmemRoot) hdeclared

include hmerged in
/-- The input type of a root type is the one that is emitted under its name. -/
theorem typeNamed?_input {name : String} {mode : InputMode}
    (hdeclared : mode.inputName name ∉ declaredNames s.working)
    (hrole : ¬ (RootNames.ofDocument s.working).Includes (mode.inputName name))
    {p : InputPair} (hp : s.Emitted p) (hpname : p.inputName = mode.inputName name) :
    ∃ fields, s.fields? p.typeName = some fields ∧
      merged.typeNamed? (mode.inputName name) = some (s.inputType p fields) := by
  obtain ⟨hmem, hsame⟩ :=
    input_of_key hdistinct hroots hwritten hns hgenerated hdeclared hrole hp hpname
  have hreaches := (reaches_rootBasis hdistinct hroots).mpr (Sources.reachable_of_emitted hp)
  obtain ⟨fields, hfields⟩ :=
    Option.isSome_iff_exists.mp (isSome_of_reaches_roots hdistinct hroots hreaches)
  refine ⟨fields, hfields, ?_⟩
  rw [← inputOf_rootBasis hdistinct hroots hfields]
  apply typeNamed?_of_find?
  rw [find?_merged hmerged]
  have hstandard := inputName_not_mem_standard mode name
  have hschema := inputName_ne_schemaKey mode name
  have hkeyed : Merge.key? (.type ((Assembly.rootBasis s.working s.options descriptors).inputOf p))
      = some (mode.inputName name) := congrArg some hpname
  refine Merge.foldl_united_of_last (policyOf_eq_override hrole hstandard) hkeyed
    (fun e he hkey => ?_) (.inr (List.mem_append_right _ hmem))
  rcases List.mem_append.mp he with he | he
  · refine absurd (List.mem_filterMap.mpr ⟨e, he, ?_⟩) hdeclared
    cases e with
    | schema d => exact absurd (Option.some.inj hkey).symm hschema
    | schemaExtension d => simp [Merge.key?] at hkey
    | typeExtension d => simp [Merge.key?] at hkey
    | _ => exact hkey
  · exact hsame e he hkey

omit hdistinct hwritten hns hgenerated in
theorem rootsFrom_eq {front rest : List Descriptor} {d : Descriptor}
    (h : descriptors = front ++ d :: rest) :
    s.rootsFrom d.typeName = (d :: rest).map (·.typeName) := by
  have hnames := typeNames_descriptors hroots
  have hnodup := nodup_eraseDups s.roots
  rw [← hnames, h, List.map_append, List.map_cons] at hnodup
  have hfront : ∀ name ∈ front.map (·.typeName), (name != d.typeName) = true := by
    intro name hname
    have hne := (List.nodup_append.mp hnodup).2.2 name hname d.typeName List.mem_cons_self
    simpa using hne
  rw [Sources.rootsFrom, ← hnames, h, List.map_append, List.dropWhile_append_of_pos hfront]
  simp

omit hroots hwritten hns hgenerated in
/-- What closes the fragments from a root type on leaves its type of mutations the given field. -/
theorem closing_of_key {d r : Descriptor} (hr : r.typeName ∈ s.rootsFrom d.typeName)
    {field : String} (hfield : field ∉ timestampFields)
    (hkept : s.KeepsMutation d.typeName field) {e : Definition}
    (he : e ∈ closingTypes (Assembly.rootBasis s.working s.options descriptors) r)
    (hkey : Merge.key? e = some (d.typeName ++ "Mutation")) :
    (RootNames.ofDocument s.working).Includes (d.typeName ++ "Mutation") ∧
      ∀ f ∈ e.fields, f.name ≠ field := by
  obtain ⟨t, rfl, ht⟩ := mem_closingTypes he
  have hkey : t.name = d.typeName ++ "Mutation" := Option.some.inj hkey
  rw [hkey] at ht
  rcases ht with ⟨hincludes, hfields⟩ | ⟨htimes, hname, htimed⟩
  · refine ⟨hincludes, fun f hf hsame => ?_⟩
    exact hkept.entries hincludes r.typeName hr ((hfields f hf).symm.trans hsame)
  · obtain ⟨e, interfaces, fields, htype, hbody, hmissing, rfl⟩ := withTimestamps_eq_some.mp htimed
    have hcomposite : s.working.composite? (d.typeName ++ "Mutation") = some fields := by
      rw [hname, ← type?_fields hdistinct s.options descriptors, htype, Option.map_some]
      obtain ⟨_, _, _, body⟩ := e
      obtain rfl : body = _ := hbody
      rfl
    rcases hkept.times htimes (hname ▸ hr) fields hcomposite with hall | ⟨hincludes, hother⟩
    · obtain ⟨f, hf⟩ := List.exists_mem_of_ne_nil _ hmissing
      obtain ⟨time, htime, hlacks, -⟩ := exists_time_of_mem_missingTimes hf
      exact absurd (hall time htime) hlacks
    · refine ⟨hincludes, fun f hf hsame => ?_⟩
      rcases List.mem_append.mp hf with hf | hf
      · exact hother (hsame ▸ List.mem_map_of_mem hf)
      · obtain ⟨time, htime, -, rfl⟩ := exists_time_of_mem_missingTimes hf
        exact hfield (hsame ▸ htime)

/-- The definitions of fragments, divided at the mutations of a root type. Of those behind, only
the ones that are united with it have its name, and none has a field of the given name. -/
theorem mutation_of_key {d : Descriptor} (hd : d ∈ descriptors) {field : String}
    (hfield : field ∉ timestampFields) (hkept : s.KeepsMutation d.typeName field) :
    ∃ before behind, generated.flatten = before ++ .type (Fragment.mutationType d) :: behind ∧
      ∀ e ∈ behind, Merge.key? e = some (d.typeName ++ "Mutation") →
        (RootNames.ofDocument s.working).Includes (d.typeName ++ "Mutation") ∧
          ∀ f ∈ e.fields, f.name ≠ field := by
  obtain ⟨parts, hlength, rfl, -⟩ :=
    fragments_of_emitted hdistinct hroots hwritten hns hgenerated
  obtain ⟨front, rest, hsplit⟩ := List.append_of_mem hd
  have hfrom (r : Descriptor) (hr : r ∈ d :: rest) : r.typeName ∈ s.rootsFrom d.typeName := by
    rw [rootsFrom_eq hroots hsplit]
    exact List.mem_map_of_mem hr
  obtain ⟨before, behind, hflatten, hbehind⟩ := flatten_ofPairs_at (hsplit ▸ hlength)
  refine ⟨before, behind, hsplit ▸ hflatten, fun e he hkey => ?_⟩
  rcases hbehind e he with ⟨p, -, rfl⟩ | hown | ⟨r, hr, hlater⟩
  · exact absurd (Option.some.inj hkey) (mutation_ne_inputName _ _ _)
  · exact closing_of_key hdistinct (hfrom d List.mem_cons_self) hfield hkept hown hkey
  · rcases mem_outputTypes hlater with ⟨t, rfl, suffix, hsuffix, ht⟩ | rfl | hlater
    · have hkey : t.name = d.typeName ++ "Mutation" := Option.some.inj hkey
      exact absurd (hkey.symm.trans ht) (mutation_ne_page hsuffix _ _)
    · have hkey : r.typeName ++ "Mutation" = d.typeName ++ "Mutation" := Option.some.inj hkey
      have hsame : r.typeName = d.typeName := by simpa using hkey
      have hnodup := nodup_eraseDups s.roots
      rw [← typeNames_descriptors hroots, hsplit, List.map_append, List.map_cons] at hnodup
      have hfresh := (List.nodup_cons.mp (List.nodup_append.mp hnodup).2.1).1
      exact absurd (hsame ▸ List.mem_map_of_mem hr) hfresh
    · exact closing_of_key hdistinct (hfrom r (List.mem_cons_of_mem d hr)) hfield hkept hlater hkey

include hmerged in
/-- The mutations of a root type have their own fields where nothing is merged over them. -/
theorem mutation_offers {d : Descriptor} (hd : d ∈ descriptors) {f : FieldDef}
    (hf : f ∈ (Definition.type (Fragment.mutationType d)).fields)
    (hkept : s.KeepsMutation d.typeName f.name) :
    ∃ t interfaces fields, merged.typeNamed? (d.typeName ++ "Mutation") = some t ∧
      t.body = .object interfaces fields ∧ f ∈ fields := by
  have hown : Merge.Offers (.type (Fragment.mutationType d)) f := ⟨_, _, _, rfl, rfl, hf⟩
  have hschema : d.typeName ++ "Mutation" ≠ Merge.schemaKey :=
    append_ne (by decide) d.typeName
  have hnames : (Definition.type (Fragment.mutationType d)).fields.map (·.name) =
      ["create", "update", "upsert", "delete"] := rfl
  have hsame : ∀ g ∈ (Definition.type (Fragment.mutationType d)).fields,
      g.name = f.name → g = f := by
    intro g hg hname
    have hnodup : ((Definition.type (Fragment.mutationType d)).fields.map (·.name)).Nodup := by
      rw [hnames]
      decide
    exact List.inj_on_of_nodup_map hnodup hg hf hname
  have hfield : f.name ∉ timestampFields := by
    have hmem : f.name ∈ ["create", "update", "upsert", "delete"] :=
      hnames ▸ List.mem_map_of_mem hf
    have hdisjoint : ∀ name ∈ ["create", "update", "upsert", "delete"],
        name ∉ timestampFields := by
      decide
    exact hdisjoint _ hmem
  obtain ⟨before, behind, hflatten, hbehind⟩ :=
    mutation_of_key hdistinct hroots hwritten hns hgenerated hd hfield hkept
  have hfind := find?_merged hmerged (d.typeName ++ "Mutation")
  rw [hflatten, ← List.append_assoc, List.foldl_append, List.foldl_cons] at hfind
  have hlater : ∀ e ∈ behind, Merge.key? e = some (d.typeName ++ "Mutation") →
      Merge.policyOf (mergedPolicies s) (d.typeName ++ "Mutation") = .fieldUnion ∧
        ∀ g ∈ e.fields, g.name ≠ f.name := by
    intro e he hkey
    obtain ⟨hincludes, hother⟩ := hbehind e he hkey
    exact ⟨policyOf_root hschema hincludes, hother⟩
  obtain ⟨_, hstands, t, interfaces, fields, rfl, hbody, hmem⟩ :=
    Merge.offers_foldl_united hlater (Merge.offers_united rfl hown hsame _)
  exact ⟨t, interfaces, fields, typeNamed?_of_find? (hfind.trans hstands), hbody, hmem⟩

end Merged

end RecordApi
