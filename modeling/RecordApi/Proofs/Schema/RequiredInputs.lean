import Mathlib.Data.Fintype.Card
import Mathlib.Data.Set.Finite.Basic
import RecordApi.Proofs.Derivation.Namespaces
import RecordApi.Proofs.Schema.DataSlots
import RecordApi.Proofs.Validation.KnownTypes

/-!
# Input types that are required

An input type requires another one if a field of it is marked against null and holds just the other,
in no list. On creation the marks of the output types are kept, so the input types of a schema
require each other as the output types do, and in update mode they require nothing. An input type
whose requirements come back to it has no value that ends.
-/

namespace RecordApi

open RecordApi.Language Relation

/-! ## Cycles -/

section Cycles

variable {α : Type} {r : α → α → Prop} {a : α}

/-- Whether a relation leads from one thing to one that it leads back to. -/
def LeadsToCycle (r : α → α → Prop) (a : α) : Prop :=
  ∃ b, ReflTransGen r a b ∧ TransGen r b b

theorem LeadsToCycle.exists_next (h : LeadsToCycle r a) : ∃ b, r a b ∧ LeadsToCycle r b := by
  obtain ⟨b, hpath, hcycle⟩ := h
  rcases hpath.cases_head with rfl | ⟨c, hac, hcb⟩
  · obtain ⟨c, hac, hca⟩ := TransGen.head'_iff.mp hcycle
    exact ⟨c, hac, _, hca, hcycle⟩
  · exact ⟨c, hac, b, hcb, hcycle⟩

/-- A relation that leads to finitely many things goes on from one without end just if it leads to a
cycle. -/
theorem acc_iff_not_leadsToCycle {targets : Set α} (hfinite : targets.Finite)
    (htargets : ∀ a b, r a b → b ∈ targets) :
    Acc (fun b a => r a b) a ↔ ¬ LeadsToCycle r a := by
  constructor
  · intro h
    induction h with
    | intro a _ ih =>
        intro hcycle
        obtain ⟨b, hab, hb⟩ := hcycle.exists_next
        exact ih b hab hb
  · intro hacyclic
    have : Finite {b // b ∈ targets ∧ ReflTransGen r a b} :=
      (hfinite.subset fun _ hb => hb.1).to_subtype
    let later (c b : {b // b ∈ targets ∧ ReflTransGen r a b}) : Prop := TransGen r b.1 c.1
    have : IsTrans _ later := ⟨fun _ _ _ hcb hdc => hdc.trans hcb⟩
    have : Std.Irrefl later := ⟨fun b hb => hacyclic ⟨b.1, b.2.2, hb⟩⟩
    have hwell := Finite.wellFounded_of_trans_of_irrefl later
    have hacc (b : {b // b ∈ targets ∧ ReflTransGen r a b}) : Acc (fun b a => r a b) b.1 :=
      hwell.induction (C := fun b => Acc (fun b a => r a b) b.1) b fun b ih =>
        .intro _ fun c hbc => ih ⟨c, htargets _ _ hbc, b.2.2.tail hbc⟩ (.single hbc)
    exact .intro _ fun b hab => hacc ⟨b, htargets _ _ hab, .single hab⟩

end Cycles

/-! ## Requirements in a document -/

namespace Language.Document

/-- Whether a name is that of an input type. -/
def IsInput (document : Document) (name : String) : Prop :=
  ∃ t fields, document.typeNamed? name = some t ∧ t.body = .input fields

/-- Whether an input type has a field that must hold a value of a type, in no list. -/
def Demands (document : Document) (name other : String) : Prop :=
  ∃ t fields f, document.typeNamed? name = some t ∧ t.body = .input fields ∧ f ∈ fields ∧
    f.type = .nonNull (.named other)

/-- Whether an input type has a value that ends: one can be given for each input type that a field
must hold. -/
inductive Fillable (document : Document) : String → Prop
  | intro {name : String} : document.IsInput name →
      (∀ other, document.Demands name other → document.IsInput other → Fillable document other) →
      Fillable document name

end Language.Document

namespace Language.TypeExpr

theorem withBase_eq_nonNull_named {f : String → String} {type : TypeExpr} {name : String} :
    type.withBase f = .nonNull (.named name) ↔
      ∃ base, type = .nonNull (.named base) ∧ f base = name := by
  cases type with
  | nonNull inner => cases inner <;> simp [TypeExpr.withBase]
  | _ => simp [TypeExpr.withBase]

end Language.TypeExpr

namespace Sources

variable (s : Sources)

/-- Whether a type whose input type for creation is emitted has a data field which is the non-null
of another such type. -/
def Demands (p q : InputPair) : Prop :=
  s.Emitted p ∧ s.Emitted q ∧ p.mode = .create ∧ q.mode = .create ∧
    ∃ fields f, s.fields? p.typeName = some fields ∧ f ∈ fields ∧
      f.type = .nonNull (.named q.typeName)

/-- Whether one emitted input type requires another one in a document. -/
def Needs (document : Document) (p q : InputPair) : Prop :=
  s.Emitted p ∧ s.Emitted q ∧ document.Demands p.inputName q.inputName

/-! ## Emitted pairs -/

variable {s} {known : InputPair → Prop} {starts : List InputPair}

theorem undeclared_of_metInTurn
    (hknown : ∀ p, known p → p.inputName ∉ declaredNames s.working) {p : InputPair}
    (h : s.MetInTurn known starts p) : p.inputName ∉ declaredNames s.working := by
  induction starts generalizing known with
  | nil => exact hknown p h
  | cons start rest ih =>
      refine ih ?_ h
      rintro q (hq | hq)
      · exact hknown q hq
      · exact (free_of_met hq).1

/-- The input types that are emitted are not declared. -/
theorem undeclared_of_emitted {p : InputPair} (h : s.Emitted p) :
    p.inputName ∉ declaredNames s.working :=
  undeclared_of_metInTurn (fun _ => False.elim) h

/-- Whether each field of some pairs leads to a declared input name or to that of one of them. -/
def Closed (s : Sources) (known : InputPair → Prop) : Prop :=
  ∀ p, known p → ∀ fields, s.fields? p.typeName = some fields → ∀ f ∈ fields,
    (s.working.composite? f.type.baseName).isSome →
      p.mode.inputName f.type.baseName ∈ declaredNames s.working ∨
        ∃ q, known q ∧ q.inputName = p.mode.inputName f.type.baseName

theorem closed_met {start : InputPair} (h : s.Closed known) :
    s.Closed fun p => known p ∨ s.Met known start p := by
  rintro p (hp | hp) fields hfields f hf hsome
  · exact (h p hp fields hfields f hf hsome).imp_right fun ⟨q, hq, hname⟩ => ⟨q, .inl hq, hname⟩
  · by_cases hfree : s.Free known ⟨f.type.baseName, p.mode⟩
    · exact .inr ⟨_, .inr (.field hp hfields hf hsome hfree), rfl⟩
    · rw [Free, not_and_or, not_not] at hfree
      refine hfree.imp id fun hshared => ?_
      push Not at hshared
      obtain ⟨q, hq, hname⟩ := hshared
      exact ⟨q, .inl hq, hname⟩

theorem closed_metInTurn (h : s.Closed known) : s.Closed (s.MetInTurn known starts) := by
  induction starts generalizing known with
  | nil => exact h
  | cons start rest ih => exact ih (closed_met h)

/-- The fields of emitted pairs lead to declared input names and to those of emitted pairs. -/
theorem closed_emitted : s.Closed s.Emitted :=
  closed_metInTurn fun _ => False.elim

/-- The fields of a pair are those of a type of the working document. -/
theorem exists_type_of_fields? {name : String} {fields : List FieldDef}
    (h : s.fields? name = some fields) :
    ∃ t, .type t ∈ s.working.definitions ∧ t.name = name ∧
      ∀ f ∈ fields, f ∈ (Definition.type t).fields := by
  obtain ⟨declared, hdeclared, rfl⟩ := Option.map_eq_some_iff.mp h
  obtain ⟨t, hnamed, hbody⟩ := Option.bind_eq_some_iff.mp hdeclared
  refine ⟨t, mem_types.mp (List.mem_of_find?_eq_some hnamed),
    by simpa using List.find?_some hnamed, fun f hf => ?_⟩
  have hmem : f ∈ declared := by
    split at hf
    · exact (List.mem_filter.mp hf).1
    · exact hf
  obtain ⟨_, _, _, body⟩ := t
  cases body <;> simp_all [TypeBody.composite?, Definition.fields]

end Sources

/-! ## Serving types -/

open Validation in
/-- The types that serve a document without reports are known, or have the usual names. -/
theorem known_of_includes {document : Document}
    (h : declarationReports document.definitions = []) {name : String}
    (hname : (RootNames.ofDocument document).Includes name) :
    Known document name ∨ name ∈ ["Query", "Mutation"] := by
  have hroot (operation : OperationKind) (roots : List RootDef)
      (hroots : ∀ root ∈ roots, Known document root.type) (usual : String)
      (husual : usual ∈ ["Query", "Mutation"]) :
      Known document ((RootDef.typeFor? operation roots).getD usual) ∨
        (RootDef.typeFor? operation roots).getD usual ∈ ["Query", "Mutation"] := by
    cases hfind : roots.reverse.find? (·.operation == operation) with
    | none => exact .inr (by simpa [RootDef.typeFor?, hfind] using husual)
    | some root =>
        have hmem := List.mem_reverse.mp (List.mem_of_find?_eq_some hfind)
        exact .inl (by simpa [RootDef.typeFor?, hfind] using hroots root hmem)
  have hgiven : ∀ root ∈ document.definitions.flatMap rootsIn, Known document root.type := by
    intro root hmem
    obtain ⟨definition, hdefinition, hmem⟩ := List.mem_flatMap.mp hmem
    cases definition with
    | schema d => exact known_of_root h hdefinition hmem
    | _ => cases hmem
  rw [RootNames.Includes, ofDocument_eq, RootNames.foldl_set] at hname
  rcases hname with rfl | rfl
  · exact hroot .query _ hgiven "Query" (by decide)
  · exact hroot .mutation _ hgiven "Mutation" (by decide)

open Validation in
/-- What a document without reports declares has a key: of no name is there an extension alone. -/
theorem exists_key_of_declared {document : Document}
    (h : declarationReports document.definitions = []) {name : String}
    (hname : name ∈ declaredNames document) :
    ∃ d ∈ document.definitions, Merge.key? d = some name := by
  obtain ⟨d, hd, hname⟩ := List.mem_filterMap.mp hname
  cases d with
  | typeExtension t =>
      obtain rfl := Option.some.inj hname
      obtain ⟨u, hu, hsame⟩ := List.mem_map.mp (defined_of_extension h hd)
      exact ⟨.type u, mem_types.mp hu, congrArg some hsame⟩
  | schema _ => cases hname
  | schemaExtension _ => cases hname
  | _ => exact ⟨_, hd, hname⟩

/-! ## Input types of an assembled document -/

section Assembled

open Validation

variable {s : Sources} {descriptors : List Descriptor} {generated : List (List Definition)}
  {merged : Document}
  (hreports : declarationReports s.working.definitions = [])
  (hnone : ∀ t ∈ s.working.types, ∀ fields, t.body ≠ .input fields)
  (hroots : s.roots.eraseDups.mapM (Assembly.describeRoot s.working s.options.selector) =
    .ok descriptors)
  (hwritten : s.working.Written)
  (hns : s.options.ns.toList.all isNameContinue)
  (hgenerated : Assembly.fragments (Assembly.rootBasis s.working s.options descriptors)
    descriptors = .ok generated)
  (hmerged : Merge.mergeDocuments (mergedPolicies s) (mergedDocuments s generated) = .ok merged)

theorem body_fieldUnion_ne_input {key : String} {earlier later : Definition} {t : TypeDef}
    (h : Merge.fieldUnion key earlier later = .type t) {fields : List InputDef} :
    t.body ≠ .input fields := by
  obtain rfl := Definition.type.inj h
  nofun

theorem not_known_of_emitted {p : InputPair} (hp : s.Emitted p) :
    ¬ Known s.working p.inputName := by
  rintro (hdeclared | hstandard)
  · obtain ⟨t, ht, hname⟩ := List.mem_map.mp hdeclared
    exact Sources.undeclared_of_emitted hp
      (List.mem_filterMap.mpr ⟨.type t, mem_types.mp ht, congrArg some hname⟩)
  · exact inputName_not_standard p.mode p.typeName hstandard

include hreports

/-- No emitted input type serves operations. -/
theorem not_includes_of_emitted {p : InputPair} (hp : s.Emitted p) :
    ¬ (RootNames.ofDocument s.working).Includes p.inputName := by
  intro hrole
  rcases known_of_includes hreports hrole with hknown | husual
  · exact not_known_of_emitted hp hknown
  · have hends : ∀ name ∈ ["Query", "Mutation"], ¬ "Input".toList <:+ name.toList := by decide
    exact inputName_ne (hends _ husual) p.mode p.typeName rfl

include hroots hwritten hns hgenerated

/-- The input types of fragments are emitted. -/
theorem emitted_of_fragment {t : TypeDef} {fields : List InputDef}
    (ht : .type t ∈ generated.flatten) (hbody : t.body = .input fields) :
    ∃ p, s.Emitted p ∧ p.inputName = t.name := by
  obtain ⟨parts, hlength, rfl, hemitted, -⟩ := fragments_of_emitted
    (nodup_types_of_reports hreports) hroots hwritten hns hgenerated
  have hmem : t ∈ fragmentInputs (List.zipWith
      (Fragment.ofPairs (Assembly.rootBasis s.working s.options descriptors)) descriptors
      parts) := by
    obtain ⟨part, hpart, ht⟩ := List.mem_flatten.mp ht
    exact List.mem_flatMap.mpr ⟨part, hpart, List.mem_filterMap.mpr ⟨_, ht, by simp [hbody]⟩⟩
  rw [fragmentInputs_ofPairs _ hlength] at hmem
  obtain ⟨p, hp, rfl⟩ := List.mem_map.mp hmem
  exact ⟨p, (hemitted p).mp hp, rfl⟩

include hmerged

/-- Every emitted input type stands under its name. -/
theorem typeNamed?_emitted {p : InputPair} (hp : s.Emitted p) :
    ∃ fields, s.fields? p.typeName = some fields ∧
      (Assembly.completeSchema merged).typeNamed? p.inputName = some (s.inputType p fields) := by
  rw [typeNamed?_completeSchema]
  exact typeNamed?_input (nodup_types_of_reports hreports) hroots hwritten hns hgenerated hmerged
    (Sources.undeclared_of_emitted hp) (not_includes_of_emitted hreports hp) hp rfl

include hnone

/-- The input types of an assembled document are emitted, but for those called like primitives. -/
theorem emitted_of_input {t : TypeDef} {fields : List InputDef}
    (ht : t ∈ (Assembly.completeSchema merged).types) (hbody : t.body = .input fields) :
    (∃ p, s.Emitted p ∧ p.inputName = t.name) ∨ t.name ∈ Primitives.names s.options.ns := by
  let good (definition : Definition) : Prop := ∀ t fields, definition = .type t →
    t.body = .input fields →
      (∃ p, s.Emitted p ∧ p.inputName = t.name) ∨ t.name ∈ Primitives.names s.options.ns
  have hall : ∀ definition ∈ merged.definitions, good definition := by
    rw [merged_definitions hmerged]
    apply Merge.forall_foldl_add
    · intro policy key earlier later _ _ _ hlater
      cases policy with
      | override => exact hlater
      | fieldUnion =>
        intro t fields hunion hinput
        exact absurd hinput (body_fieldUnion_ne_input hunion)
    · rintro _ hdefinition t fields rfl hinput
      rcases List.mem_append.mp hdefinition with hworking | hfragment
      · exact absurd hinput (hnone t (mem_types.mpr hworking) fields)
      · exact .inl
          (emitted_of_fragment hreports hroots hwritten hns hgenerated hfragment hinput)
    · rintro _ hdefinition t fields rfl -
      exact .inr (Primitives.key_mem_names hdefinition rfl)
  rw [types_completeSchema] at ht
  exact hall _ (mem_types.mp ht) t fields rfl hbody

/-- What the working document defines is no input type. -/
theorem not_isInput_of_key {name : String} {d : Definition} (hd : d ∈ s.working.definitions)
    (hkey : Merge.key? d = some name) : ¬ (Assembly.completeSchema merged).IsInput name := by
  rintro ⟨t, fields, ht, hbody⟩
  rw [typeNamed?_completeSchema] at ht
  have hname : t.name = name := by simpa using List.find?_some ht
  have hworking : ∀ e ∈ s.working.definitions, ∀ t fields, e = .type t →
      t.body ≠ .input fields := by
    rintro _ he t fields rfl
    exact hnone t (mem_types.mpr he) fields
  -- Fragments have no input type of the name, so whatever is merged last under it is none.
  have hfragment : ∀ e ∈ generated.flatten, Merge.key? e = some name → ∀ t fields, e = .type t →
      t.body ≠ .input fields := by
    rintro _ he hekey t fields rfl hinput
    obtain ⟨p, hp, hpname⟩ :=
      emitted_of_fragment hreports hroots hwritten hns hgenerated he hinput
    obtain rfl : t.name = name := Option.some.inj hekey
    refine Sources.undeclared_of_emitted hp (List.mem_filterMap.mpr ⟨d, hd, ?_⟩)
    rw [hpname]
    cases d with
    | schema _ =>
        exact absurd (hpname.trans (Option.some.inj hkey).symm)
          (inputName_ne_schemaKey p.mode p.typeName)
    | schemaExtension _ => cases hkey
    | typeExtension _ => cases hkey
    | _ => exact hkey
  have hcombine : ∀ e ∈ s.working.definitions ++ generated.flatten, Merge.key? e = some name →
      ∀ earlier t fields,
        Merge.combine (Merge.policyOf (mergedPolicies s) name) name earlier e = .type t →
          t.body ≠ .input fields := by
    intro e he hekey earlier
    cases Merge.policyOf (mergedPolicies s) name with
    | override =>
        rcases List.mem_append.mp he with he | he
        · exact hworking e he
        · exact hfragment e he hekey
    | fieldUnion => exact fun t fields hunion => body_fieldUnion_ne_input hunion
  obtain ⟨e, hstands, hgood⟩ := Merge.exists_foldl_united
    (fun e => ∀ t fields, e = .type t → t.body ≠ .input fields) hcombine
    (List.mem_append_left _ hd) hkey (hworking d hd)
    ((Primitives.definitions s.options.ns).find? (Merge.key? · == some name))
  have hfind := (find?_merged hmerged name).trans hstands
  have hekey : Merge.key? e = some name := by simpa using List.find?_some hfind
  exact hgood t fields (Merge.eq_of_key? (uniqueKeys_merged hmerged)
    (List.mem_of_find?_eq_some hfind) (mem_types.mp (List.mem_of_find?_eq_some ht)) hekey
    (congrArg some hname)) hbody

omit hnone in
theorem isInput_emitted {p : InputPair} (hp : s.Emitted p) :
    (Assembly.completeSchema merged).IsInput p.inputName := by
  obtain ⟨fields, -, ht⟩ :=
    typeNamed?_emitted hreports hroots hwritten hns hgenerated hmerged hp
  exact ⟨_, _, ht, rfl⟩

omit hnone in
theorem isSome_composite?_of_emitted {p : InputPair} (hp : s.Emitted p) :
    (s.working.composite? p.typeName).isSome := by
  obtain ⟨fields, hfields, -⟩ :=
    typeNamed?_emitted hreports hroots hwritten hns hgenerated hmerged hp
  have hsome : (s.fields? p.typeName).isSome := by rw [hfields]; rfl
  rwa [Sources.fields?, Option.isSome_map] at hsome

omit hnone in
/-- On creation an emitted input type demands what a field of its source is the non-null of, and in
update mode nothing. -/
theorem demands_emitted {p : InputPair} (hp : s.Emitted p) {other : String} :
    (Assembly.completeSchema merged).Demands p.inputName other ↔
      p.mode = .create ∧ ∃ fields f base, s.fields? p.typeName = some fields ∧ f ∈ fields ∧
        ¬ s.working.isUnion base ∧ f.type = .nonNull (.named base) ∧
          s.inputBase .create base = other := by
  obtain ⟨fields, hfields, ht⟩ :=
    typeNamed?_emitted hreports hroots hwritten hns hgenerated hmerged hp
  constructor
  · rintro ⟨t, inputs, i, hnamed, hbody, hi, htype⟩
    obtain rfl := Option.some.inj (ht.symm.trans hnamed)
    obtain rfl := TypeBody.input.inj hbody
    obtain ⟨f, hf, rfl⟩ := List.mem_map.mp hi
    obtain ⟨hf, hunion⟩ := List.mem_filter.mp hf
    change p.mode.fieldExpr (f.type.withBase (s.inputBase p.mode)) = _ at htype
    cases hmode : p.mode with
    | create =>
        rw [hmode] at htype
        obtain ⟨base, hbase, hother⟩ := TypeExpr.withBase_eq_nonNull_named.mp htype
        rw [hbase] at hunion
        exact ⟨rfl, fields, f, base, hfields, hf, by simpa [TypeExpr.baseName] using hunion,
          hbase, hother⟩
    | update =>
        obtain ⟨source, hsource, -, hmem⟩ := Sources.exists_type_of_fields? hfields
        have hnullable := nullable_of_written ((hwritten _ hsource).fields f (hmem f hf)).2
          (s.inputBase .update)
        rw [hmode] at htype
        rw [show TypeExpr.nullable _ = _ from htype] at hnullable
        cases hnullable
  · rintro ⟨hmode, declared, f, base, hdeclared, hf, hunion, htype, hother⟩
    obtain rfl := Option.some.inj (hfields.symm.trans hdeclared)
    refine ⟨_, _, s.inputField p.mode f, ht, rfl, List.mem_map_of_mem
      (List.mem_filter.mpr ⟨hf, by simpa [htype, TypeExpr.baseName] using hunion⟩), ?_⟩
    change p.mode.fieldExpr (f.type.withBase (s.inputBase p.mode)) = _
    rw [hmode]
    exact TypeExpr.withBase_eq_nonNull_named.mpr ⟨base, htype, hother⟩

/-- Every input type that an emitted one demands is emitted itself. -/
theorem exists_emitted_of_demands {p : InputPair} (hp : s.Emitted p) {other : String}
    (h : (Assembly.completeSchema merged).Demands p.inputName other)
    (hinput : (Assembly.completeSchema merged).IsInput other) :
    ∃ q, s.Emitted q ∧ q.inputName = other := by
  have hundefined (name : String) (hname : name ∈ declaredNames s.working) :
      ¬ (Assembly.completeSchema merged).IsInput name := by
    obtain ⟨d, hd, hkey⟩ := exists_key_of_declared hreports hname
    exact not_isInput_of_key hreports hnone hroots hwritten hns hgenerated hmerged hd hkey
  obtain ⟨hmode, fields, f, base, hfields, hf, -, htype, rfl⟩ :=
    (demands_emitted hreports hroots hwritten hns hgenerated hmerged hp).mp h
  have hbase : f.type.baseName = base := by rw [htype]; rfl
  by_cases hsome : (s.working.composite? base).isSome
  · rw [Sources.inputBase, if_pos hsome] at hinput ⊢
    subst hbase
    have hclosed := Sources.closed_emitted p hp fields hfields f hf hsome
    rw [hmode] at hclosed
    exact hclosed.resolve_left fun hdeclared => hundefined _ hdeclared hinput
  · rw [Sources.inputBase, if_neg hsome] at hinput ⊢
    obtain ⟨source, hsource, -, hmem⟩ := Sources.exists_type_of_fields? hfields
    rcases hbase ▸ known_of_field hreports hsource (hmem f hf) with hdefined | hstandard
    · obtain ⟨t, ht, rfl⟩ := List.mem_map.mp hdefined
      exact absurd hinput
        (hundefined _ (List.mem_filterMap.mpr ⟨.type t, mem_types.mp ht, rfl⟩))
    · obtain ⟨t, inputs, ht, hbody⟩ := hinput
      have hname : t.name = base := by simpa using List.find?_some ht
      have hplain : ∀ name ∈ standardNames, name.toList.head? ≠ some 'D' := by decide
      refine hname ▸ (emitted_of_input hreports hnone hroots hwritten hns hgenerated hmerged
        (List.mem_of_find?_eq_some ht) hbody).resolve_right fun hprimitive => ?_
      rw [hname] at hprimitive
      exact Primitives.not_mem_names (hplain base hstandard) hprimitive

omit hnone in
/-- The input types for creation require each other as their sources do. -/
theorem demands_iff_needs {p q : InputPair} :
    s.Demands p q ↔ s.Needs (Assembly.completeSchema merged) p q ∧ q.mode = .create := by
  constructor
  · rintro ⟨hp, hq, hpmode, hqmode, fields, f, hfields, hf, htype⟩
    have hsome := isSome_composite?_of_emitted hreports hroots hwritten hns hgenerated hmerged hq
    refine ⟨⟨hp, hq, (demands_emitted hreports hroots hwritten hns hgenerated hmerged hp).mpr
      ⟨hpmode, fields, f, q.typeName, hfields, hf, ?_, htype, ?_⟩⟩, hqmode⟩
    · simp [not_isUnion_of_composite? hsome]
    · rw [Sources.inputBase, if_pos hsome, InputPair.inputName, hqmode]
  · rintro ⟨⟨hp, hq, hdemands⟩, hqmode⟩
    obtain ⟨hpmode, fields, f, base, hfields, hf, -, htype, hbase⟩ :=
      (demands_emitted hreports hroots hwritten hns hgenerated hmerged hp).mp hdemands
    refine ⟨hp, hq, hpmode, hqmode, fields, f, hfields, hf, ?_⟩
    unfold Sources.inputBase at hbase
    split at hbase
    · rw [InputPair.inputName, hqmode] at hbase
      rw [htype, InputMode.inputName_injective hbase]
    · obtain ⟨source, hsource, -, hmem⟩ := Sources.exists_type_of_fields? hfields
      have hknown := known_of_field hreports hsource (hmem f hf)
      rw [htype, show (TypeExpr.nonNull (.named base)).baseName = base from rfl, hbase] at hknown
      exact absurd hknown (not_known_of_emitted hq)

omit hnone in
/-- Requirements that end at an input type for creation are those of the sources: whatever comes
before is for creation too, since it requires something. -/
theorem transGen_needs {p q : InputPair} (hq : q.mode = .create) :
    TransGen (s.Needs (Assembly.completeSchema merged)) p q ↔ TransGen s.Demands p q := by
  have hiff (p q : InputPair) :=
    demands_iff_needs hreports hroots hwritten hns hgenerated hmerged (p := p) (q := q)
  constructor
  · intro h
    induction h using TransGen.head_induction_on with
    | single hstep => exact .single ((hiff _ _).mpr ⟨hstep, hq⟩)
    | head hstep _ ih =>
        obtain ⟨_, hnext, -⟩ := TransGen.head'_iff.mp ih
        exact .head ((hiff _ _).mpr ⟨hstep, hnext.2.2.1⟩) ih
  · exact TransGen.mono (fun _ _ hstep => ((hiff _ _).mp hstep).1) _ _

omit hnone in
theorem cycle_needs_iff {p : InputPair} :
    TransGen (s.Needs (Assembly.completeSchema merged)) p p ↔ TransGen s.Demands p p := by
  have hsame (hmode : p.mode = .create) :=
    transGen_needs hreports hroots hwritten hns hgenerated hmerged hmode (p := p)
  constructor
  · intro hcycle
    obtain ⟨_, ⟨hp, -, hdemands⟩, -⟩ := TransGen.head'_iff.mp hcycle
    exact (hsame ((demands_emitted hreports hroots hwritten hns hgenerated hmerged hp).mp
      hdemands).1).mp hcycle
  · intro hcycle
    obtain ⟨_, hstep, -⟩ := TransGen.head'_iff.mp hcycle
    exact (hsame hstep.2.2.1).mpr hcycle

omit hnone in
/-- The requirements of an input type lead to a cycle just if those of its source do. -/
theorem leadsToCycle_needs_iff {p : InputPair} :
    LeadsToCycle (s.Needs (Assembly.completeSchema merged)) p ↔ LeadsToCycle s.Demands p := by
  refine exists_congr fun q => ?_
  rw [cycle_needs_iff hreports hroots hwritten hns hgenerated hmerged]
  refine and_congr_left fun hcycle => ?_
  obtain ⟨_, hstep, -⟩ := TransGen.head'_iff.mp hcycle
  rw [reflTransGen_iff_eq_or_transGen, reflTransGen_iff_eq_or_transGen,
    transGen_needs hreports hroots hwritten hns hgenerated hmerged hstep.2.2.1]

/-! ## Values that end -/

omit hnone hmerged in
/-- An input type does not require others without end just if its requirements lead to no cycle, for
finitely many are emitted. -/
theorem acc_needs_iff {document : Document} {p : InputPair} :
    Acc (fun q p => s.Needs document p q) p ↔ ¬ LeadsToCycle (s.Needs document) p := by
  obtain ⟨parts, -, -, hemitted, -⟩ := fragments_of_emitted
    (nodup_types_of_reports hreports) hroots hwritten hns hgenerated
  exact acc_iff_not_leadsToCycle parts.flatten.finite_toSet
    fun _ q hstep => (hemitted q).mpr hstep.2.1

/-- An emitted input type has a value that ends just if its requirements lead to no cycle. -/
theorem fillable_iff {p : InputPair} (hp : s.Emitted p) :
    (Assembly.completeSchema merged).Fillable p.inputName ↔
      ¬ LeadsToCycle (s.Needs (Assembly.completeSchema merged)) p := by
  have hinput (p : InputPair) (hp : s.Emitted p) :=
    isInput_emitted hreports hroots hwritten hns hgenerated hmerged hp
  rw [← acc_needs_iff hreports hroots hwritten hns hgenerated]
  constructor
  · intro h
    generalize hname : p.inputName = name at h
    induction h generalizing p with
    | intro _ _ ih =>
        refine .intro _ fun q ⟨_, hq, hdemands⟩ => ?_
        exact ih q.inputName (hname ▸ hdemands) (hinput q hq) hq rfl
  · intro h
    induction h with
    | intro p _ ih =>
        refine .intro (hinput p hp) fun other hdemands hother => ?_
        obtain ⟨q, hq, rfl⟩ := exists_emitted_of_demands hreports hnone hroots hwritten hns
          hgenerated hmerged hp hdemands hother
        exact ih q ⟨hp, hq, hdemands⟩ hq

end Assembled

end RecordApi
