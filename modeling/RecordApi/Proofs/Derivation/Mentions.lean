import RecordApi.Proofs.Derivation.AssembledTypes
import RecordApi.Proofs.MergePlaces

/-!
# Names that generated types mention

The types of a fragment mention each other, the primitives and the consumer's types. The input type
of a nested type is called by its name before it is defined, or because an earlier root type has
left it behind. Each of these names is in the end one that the consumer declares or that a fragment
defines, so every name that a generated type mentions stands for something. The arguments that a
root type keeps when it is defined again are the consumer's own, and may mention anything.
-/

namespace RecordApi

open RecordApi.Language

namespace Language

/-- The type names in a field and its arguments. -/
def FieldDef.mentioned (f : FieldDef) : List String :=
  f.type.baseName :: f.arguments.map (·.type.baseName)

/-- The type names in the fields of a definition and in their arguments. -/
def Definition.mentioned (d : Definition) : List String :=
  d.fields.flatMap FieldDef.mentioned

/-- The type names in the fields of a document's types. -/
def Document.fieldNames (document : Document) : List String :=
  document.types.flatMap fun t => (Definition.type t).fields.map (·.type.baseName)

theorem mem_fieldNames {document : Document} {t : TypeDef} {f : FieldDef} (ht : t ∈ document.types)
    (hf : f ∈ (Definition.type t).fields) : f.type.baseName ∈ document.fieldNames :=
  List.mem_flatMap.mpr ⟨t, ht, List.mem_map_of_mem hf⟩

end Language

namespace KindTable

/-- Whether a name is that of an object type, an interface or a union. -/
def isComposite (kinds : KindTable) (name : String) : Bool :=
  match kinds.kindOf name with
  | .object | .interface | .union => true
  | _ => false

theorem resolve_eq_object {kinds : KindTable} {name target : String} :
    kinds.resolve name = .object target ↔ name = target ∧ kinds.isComposite name := by
  unfold resolve isComposite
  cases kinds.kindOf name <;> simp

end KindTable

namespace Sources

variable (s : Sources)

/-- What a type name of a schema's document may stand for: a built-in scalar, what the consumer
declares or mentions as the type of a field, or a definition of the document. -/
inductive Known (document : Document) (name : String) : Prop
  | builtin : name ∈ builtinScalars → Known document name
  | declared : name ∈ declaredNames s.working → Known document name
  | mentioned : name ∈ s.working.fieldNames → Known document name
  | present : name ∈ declaredNames document → Known document name

/-- Whether a definition is a root type with the times that it lacks, and the name is one that an
argument of its own fields mentions. -/
def KeepsArgument (definition : Definition) (name : String) : Prop :=
  s.options.timestamps ∧ ∃ t ∈ s.working.types, t.name ∈ s.roots ∧
    definition.name? = some t.name ∧ ∃ f ∈ (Definition.type t).fields, f ∈ definition.fields ∧
      ∃ a ∈ f.arguments, a.type.baseName = name

/-- Whether an input type is the consumer's own or one that a fragment holds. -/
def Supplies (generated : List (List Definition)) (name : String) : Prop :=
  name ∈ declaredNames s.working ∨ name ∈ (fragmentInputs generated).map (·.name)

end Sources

/-! ## Definitions of the document -/

/-- Whatever has been merged is still there by its name. -/
theorem mem_declaredNames_merged {s : Sources} {generated : List (List Definition)}
    {merged : Document}
    (h : Merge.mergeDocuments (mergedPolicies s) (mergedDocuments s generated) = .ok merged)
    {t : TypeDef}
    (ht : .type t ∈ Primitives.definitions s.options.ns ++ generated.flatten)
    (hname : t.name ≠ Merge.schemaKey) : t.name ∈ declaredNames merged := by
  have hkey : Merge.HasKey t.name merged.definitions := by
    rw [merged_definitions h, Merge.hasKey_foldl_add, Merge.hasKey_append]
    rcases List.mem_append.mp ht with ht | ht
    · exact .inr ⟨_, ht, rfl⟩
    · exact .inl (.inr ⟨_, ht, rfl⟩)
  obtain ⟨d, hd, hdkey⟩ := hkey
  exact List.mem_filterMap.mpr ⟨d, hd, Merge.name?_of_key? hdkey hname⟩

/-! ## Input types -/

section Inputs

variable {basis : Basis}

/-- An input field is that of a data field, whose name it keeps or turns into an input name. -/
theorem field_inputOf {p : InputPair} {g : FieldDef}
    (hg : g ∈ (Definition.type (basis.inputOf p)).fields) :
    g.arguments = [] ∧ ∃ fields, basis.nestedFields? p.typeName = some fields ∧
      ∃ f ∈ fields, g.name = f.name ∧
        ((∃ target, f.type.base = .object target ∧ (basis.nestedFields? target).isSome ∧
            g.type.baseName = p.mode.inputName target) ∨
          (∀ target, f.type.base ≠ .object target) ∧ g.type.baseName = f.type.base.name) := by
  obtain ⟨_, hd, rfl⟩ := List.mem_map.mp hg
  obtain ⟨⟨name, ref⟩, hentry, rfl⟩ := List.mem_map.mp hd
  refine ⟨rfl, ?_⟩
  cases hfields : basis.nestedFields? p.typeName with
  | none => simp [Basis.inputEntries, hfields] at hentry
  | some fields =>
      simp only [Basis.inputEntries, hfields, Option.getD_some, List.mem_filterMap] at hentry
      obtain ⟨f, hf, hentry⟩ := hentry
      obtain ⟨hname, hkind⟩ := Basis.baseName_inputEntry hentry
      exact ⟨fields, rfl, f, hf, hname, hkind⟩

end Inputs

section Mentions

variable {s : Sources} {descriptors : List Descriptor} {generated : List (List Definition)}
  (hroots : s.roots.eraseDups.mapM (Assembly.describeRoot s.working s.options.selector) =
    .ok descriptors)
  (hwritten : s.working.Written)
  (hns : s.options.ns.toList.all isNameContinue)
  (hgenerated : Assembly.fragments (Assembly.rootBasis s.working s.options descriptors)
    descriptors = .ok generated)

include hroots hwritten hns hgenerated

/-- The fragments hold the input types of one derivation from all root types. -/
theorem exists_grown :
    ∃ parts : List (List InputPair), parts.length = descriptors.length ∧
      generated = List.zipWith
        (Fragment.ofPairs (Assembly.rootBasis s.working s.options descriptors)) descriptors parts ∧
      ∃ after, Grown (Assembly.rootBasis s.working s.options descriptors) []
        (Fragment.OfRoots descriptors) ⟨[], []⟩ parts.flatten after := by
  have hspec := fragments_spec hroots hwritten hns
  rw [hgenerated] at hspec
  obtain ⟨-, parts, hlength, hparts, hstages⟩ := hspec
  exact ⟨parts, hlength, hparts, _, Fragment.grown_of_stages hstages⟩

/-- The input types of root types are supplied, and so are those that the fields of supplied ones
lead to: a derivation ends with everything met that it has promised. -/
theorem supplies_of_inputName :
    (∀ name ∈ s.roots, ∀ mode : InputMode, s.Supplies generated (mode.inputName name)) ∧
    ∀ d ∈ fragmentInputs generated, ∃ mode : InputMode, ∀ g ∈ (Definition.type d).fields,
      g.arguments = [] ∧ ∃ t ∈ s.working.types, ∃ f ∈ (Definition.type t).fields, g.name = f.name ∧
        if (KindTable.ofDocument s.working).isComposite f.type.baseName then
          g.type.baseName = mode.inputName f.type.baseName ∧ s.Supplies generated g.type.baseName
        else g.type.baseName = f.type.baseName := by
  obtain ⟨parts, hlength, rfl, after, hgrown⟩ := exists_grown hroots hwritten hns hgenerated
  have hinputs := fragmentInputs_ofPairs (Assembly.rootBasis s.working s.options descriptors)
    hlength
  have hsupplies (p : InputPair) (hp : Fragment.OfRoots descriptors p ∨ ∃ q ∈ parts.flatten,
      (Assembly.rootBasis s.working s.options descriptors).Follows q p) :
      s.Supplies (List.zipWith
        (Fragment.ofPairs (Assembly.rootBasis s.working s.options descriptors)) descriptors parts)
        p.inputName := by
    rw [Sources.Supplies, hinputs, List.map_map]
    rcases hgrown.met p hp with hdeclared | hadded | hactive
    · exact .inl hdeclared
    · rw [hgrown.names, List.nil_append] at hadded
      exact .inr hadded
    · simp at hactive
  constructor
  · intro name hname mode
    obtain ⟨d, hd, rfl⟩ := (mem_roots hroots).mp hname
    exact hsupplies ⟨d.typeName, mode⟩ (.inl ⟨d, hd, rfl⟩)
  · intro d hd
    rw [hinputs] at hd
    obtain ⟨p, hp, rfl⟩ := List.mem_map.mp hd
    refine ⟨p.mode, fun g hg => ?_⟩
    obtain ⟨harguments, fields, hfields, entry, hentry, hname, hkind⟩ := field_inputOf hg
    obtain ⟨t, ht, -, hsource⟩ := exists_type_of_nestedFields? hroots hfields
    obtain ⟨f, hf, rfl⟩ := hsource entry hentry
    refine ⟨harguments, t, ht, f, hf, hname, ?_⟩
    have hbase : (Descriptor.dataField (KindTable.ofDocument s.working) f).type.base =
        (KindTable.ofDocument s.working).resolve f.type.baseName := TypeRef.base_ofExpr _ _
    rw [hbase] at hkind
    split
    · next hcomposite =>
        rcases hkind with ⟨target, htarget, hsome, hrenamed⟩ | ⟨hplain, -⟩
        · obtain ⟨rfl, -⟩ := KindTable.resolve_eq_object.mp htarget
          refine ⟨hrenamed, hrenamed ▸ ?_⟩
          exact hsupplies ⟨f.type.baseName, p.mode⟩ (.inr ⟨p, hp, (hgrown.fresh p hp).2.2, fields,
            hfields, rfl, hsome, _, hentry, hbase.trans htarget⟩)
        · exact absurd (KindTable.resolve_eq_object.mpr ⟨rfl, hcomposite⟩) (hplain _)
    · next hplain =>
        rcases hkind with ⟨target, htarget, -⟩ | ⟨-, hkept⟩
        · exact absurd (KindTable.resolve_eq_object.mp htarget).2 hplain
        · rw [hkept, KindTable.name_resolve]

end Mentions

/-! ## Types of pages and entry points -/

namespace Fragment

/-- A type behind the input types of a fragment mentions its root type, the type of the identifier,
built-in scalars, primitives, the input types of the root type and the types of its pages. -/
inductive Mention (options : Options) (d : Descriptor) (name : String) : Prop
  | root : name = d.typeName → Mention options d name
  | identifier : name = d.idType.base.name → Mention options d name
  | builtin : name ∈ builtinScalars → Mention options d name
  | primitive : name ∈ Primitives.names options.ns → Mention options d name
  | input (mode : InputMode) : name = mode.inputName d.typeName → Mention options d name
  | page {t : TypeDef} : t ∈ pageTypes options d → name = t.name → Mention options d name

theorem mem_mentioned_objectType {typeName name : String} {fields : List FieldDef} :
    name ∈ (Definition.type (objectType typeName fields)).mentioned ↔
      ∃ f ∈ fields, name ∈ f.mentioned :=
  List.mem_flatMap

theorem mem_mentioned_plainField {fieldName name : String} {arguments : List InputDef}
    {type : TypeExpr} :
    name ∈ (plainField fieldName arguments type).mentioned ↔
      name = type.baseName ∨ ∃ a ∈ arguments, name = a.type.baseName := by
  simp [plainField, FieldDef.mentioned, eq_comm]

section Pages

variable {options : Options} {d : Descriptor} {name : String}

theorem mention_edgeType (h : name ∈ (Definition.type (edgeType d.typeName)).mentioned) :
    Mention options d name := by
  obtain ⟨f, hf, hname⟩ := mem_mentioned_objectType.mp h
  simp only [List.mem_cons, List.not_mem_nil, or_false] at hf
  rcases hf with rfl | rfl <;>
    simp only [mem_mentioned_plainField, List.not_mem_nil, false_and, exists_false, or_false]
      at hname
  · exact .root hname
  · exact .builtin (hname ▸ by decide)

theorem mention_connectionType
    (h : name ∈ (Definition.type (connectionType options.ns d.typeName)).mentioned) :
    Mention options d name := by
  obtain ⟨f, hf, hname⟩ := mem_mentioned_objectType.mp h
  simp only [List.mem_cons, List.not_mem_nil, or_false] at hf
  rcases hf with rfl | rfl <;>
    simp only [mem_mentioned_plainField, List.not_mem_nil, false_and, exists_false, or_false]
      at hname
  · exact .page (t := edgeType d.typeName) (by simp [pageTypes]) hname
  · exact .primitive (hname ▸ by simp [Primitives.names, TypeExpr.baseName])

theorem mention_listArguments {a : InputDef} (ha : a ∈ listArguments options.ns options.mostPerPage)
    (hname : name = a.type.baseName) : Mention options d name := by
  have hid : "ID" ∈ builtinScalars := by decide
  have hint : "Int" ∈ builtinScalars := by decide
  simp only [listArguments, List.mem_cons, List.not_mem_nil, or_false] at ha
  rcases ha with rfl | rfl | rfl | rfl | rfl | rfl
  · exact .builtin (hname ▸ hid)
  · exact .builtin (hname ▸ hid)
  · exact .builtin (hname ▸ hint)
  · exact .builtin (hname ▸ hint)
  · exact .primitive (hname ▸ by simp [Primitives.names, plainArgument, listOf, TypeExpr.baseName])
  · exact .primitive (hname ▸ by simp [Primitives.names, plainArgument, listOf, TypeExpr.baseName])

/-- A type that differs from that of the identifier in null alone mentions the same. -/
theorem mention_identifier {type : TypeRef} (hbase : type.base = d.idType.base)
    (hname : name = type.toExpr.baseName) : Mention options d name := by
  rw [TypeRef.baseName_toExpr, hbase] at hname
  exact .identifier hname

theorem mention_queryType (h : name ∈ (Definition.type (queryType options d)).mentioned) :
    Mention options d name := by
  obtain ⟨f, hf, hname⟩ := mem_mentioned_objectType.mp h
  simp only [List.mem_cons, List.not_mem_nil, or_false] at hf
  rcases hf with rfl | rfl
  · rcases mem_mentioned_plainField.mp hname with hroot | ⟨a, ha, hid⟩
    · exact .root hroot
    · obtain rfl := List.mem_singleton.mp ha
      exact mention_identifier rfl hid
  · rcases mem_mentioned_plainField.mp hname with hpage | ⟨a, ha, hlist⟩
    · exact .page (t := connectionType options.ns d.typeName) (by simp [pageTypes]) hpage
    · exact mention_listArguments ha hlist

theorem mention_mutationType (h : name ∈ (Definition.type (mutationType d)).mentioned) :
    Mention options d name := by
  obtain ⟨f, hf, hname⟩ := mem_mentioned_objectType.mp h
  have hdata {mode : InputMode} {type : TypeRef} (hbase : type.base = d.idType.base)
      (hgiven : ∃ a ∈ [plainArgument none d.idName type.toExpr,
        plainArgument none "data" (.nonNull (.named (mode.inputName d.typeName)))],
        name = a.type.baseName) : Mention options d name := by
    obtain ⟨a, ha, hname⟩ := hgiven
    simp only [List.mem_cons, List.not_mem_nil, or_false] at ha
    rcases ha with rfl | rfl
    · exact mention_identifier hbase hname
    · exact .input mode hname
  simp only [List.mem_cons, List.not_mem_nil, or_false] at hf
  rcases hf with rfl | rfl | rfl | rfl
  · rcases mem_mentioned_plainField.mp hname with hid | hgiven
    · exact mention_identifier (TypeRef.base_required _) hid
    · exact hdata (TypeRef.base_nullable _) hgiven
  · rcases mem_mentioned_plainField.mp hname with hflag | hgiven
    · exact .builtin (hflag ▸ by decide)
    · exact hdata rfl hgiven
  · rcases mem_mentioned_plainField.mp hname with hflag | hgiven
    · exact .builtin (hflag ▸ by decide)
    · exact hdata rfl hgiven
  · rcases mem_mentioned_plainField.mp hname with hflag | ⟨a, ha, hid⟩
    · exact .builtin (hflag ▸ by decide)
    · obtain rfl := List.mem_singleton.mp ha
      exact mention_identifier rfl hid

theorem mention_pageTypes {t : TypeDef} (ht : t ∈ pageTypes options d)
    (hname : name ∈ (Definition.type t).mentioned) : Mention options d name := by
  simp only [pageTypes, List.mem_cons, List.not_mem_nil, or_false] at ht
  rcases ht with rfl | rfl | rfl | rfl
  · exact mention_edgeType hname
  · exact mention_connectionType hname
  · exact mention_queryType hname
  · exact mention_mutationType hname

end Pages

theorem mention_outputTypes {basis : Basis} {d : Descriptor} {t : TypeDef}
    (ht : t ∈ outputTypes basis d) {name : String} (hname : name ∈ (Definition.type t).mentioned) :
    Mention basis.options d name := by
  rw [outputTypes_eq] at ht
  rcases List.mem_append.mp ht with hpages | hentry
  · exact mention_pageTypes hpages hname
  · simp only [entryPoints, List.mem_cons, List.not_mem_nil, or_false] at hentry
    rcases hentry with rfl | rfl
    · obtain rfl : name = d.typeName ++ "Query" := List.mem_singleton.mp hname
      exact .page (t := queryType basis.options d) (by simp [pageTypes]) rfl
    · obtain rfl : name = d.typeName ++ "Mutation" := List.mem_singleton.mp hname
      exact .page (t := mutationType d) (by simp [pageTypes]) rfl

end Fragment

section Known

variable {s : Sources} {descriptors : List Descriptor} {generated : List (List Definition)}
  {merged : Document}
  (hroots : s.roots.eraseDups.mapM (Assembly.describeRoot s.working s.options.selector) =
    .ok descriptors)
  (hwritten : s.working.Written)
  (hns : s.options.ns.toList.all isNameContinue)
  (hgenerated : Assembly.fragments (Assembly.rootBasis s.working s.options descriptors)
    descriptors = .ok generated)
  (hmerged : Merge.mergeDocuments (mergedPolicies s) (mergedDocuments s generated) = .ok merged)

include hmerged

theorem known_of_primitive {name : String} (h : name ∈ Primitives.names s.options.ns) :
    s.Known (Assembly.completeSchema merged) name := by
  have hprimitive : ∃ t, .type t ∈ Primitives.definitions s.options.ns ∧ t.name = name := by
    simp only [Primitives.names, List.mem_cons, List.not_mem_nil, or_false] at h
    rcases h with rfl | rfl | rfl | rfl <;> simp [Primitives.definitions]
  have hfront : ∃ rest, name = "DataSource" ++ rest := by
    simp only [Primitives.names, List.mem_cons, List.not_mem_nil, or_false] at h
    rcases h with rfl | rfl | rfl | rfl
    · exact ⟨"FilterOperation" ++ s.options.ns, by rw [← String.append_assoc]; rfl⟩
    · exact ⟨"OrderInput" ++ s.options.ns, by rw [← String.append_assoc]; rfl⟩
    · exact ⟨"FilterInput" ++ s.options.ns, by rw [← String.append_assoc]; rfl⟩
    · exact ⟨"PageInfo" ++ s.options.ns, by rw [← String.append_assoc]; rfl⟩
  have hne : name ≠ Merge.schemaKey := by
    obtain ⟨rest, rfl⟩ := hfront
    intro h
    have hchars := congrArg String.toList h
    rw [String.toList_append] at hchars
    simp [Merge.schemaKey] at hchars
  obtain ⟨t, ht, rfl⟩ := hprimitive
  apply Sources.Known.present
  rw [declaredNames_completeSchema]
  exact mem_declaredNames_merged hmerged (List.mem_append_left _ ht) hne

include hroots hwritten hns hgenerated

/-- The types of a root type's pages are there by their names. -/
theorem known_of_page {d : Descriptor} (hd : d ∈ descriptors) {t : TypeDef}
    (ht : t ∈ Fragment.pageTypes s.options d) :
    s.Known (Assembly.completeSchema merged) t.name := by
  obtain ⟨parts, hlength, rfl, -⟩ := exists_grown hroots hwritten hns hgenerated
  have hmem : .type t ∈ (List.zipWith
      (Fragment.ofPairs (Assembly.rootBasis s.working s.options descriptors)) descriptors
      parts).flatten := by
    refine (mem_flatten_ofPairs hlength).mpr (.inr ⟨d, hd, List.mem_append_left _ ?_⟩)
    exact List.mem_map_of_mem (List.mem_append_left _ ht)
  have hne : t.name ≠ Merge.schemaKey := by
    simp only [Fragment.pageTypes, List.mem_cons, List.not_mem_nil, or_false] at ht
    rcases ht with rfl | rfl | rfl | rfl
    · exact append_ne (by decide) d.typeName
    · exact append_ne (by decide) d.typeName
    · exact append_ne (by decide) d.typeName
    · exact append_ne (by decide) d.typeName
  apply Sources.Known.present
  rw [declaredNames_completeSchema]
  exact mem_declaredNames_merged hmerged (List.mem_append_right _ hmem) hne

/-- A supplied input type is there by its name. -/
theorem known_of_supplies {mode : InputMode} {name : String}
    (h : s.Supplies generated (mode.inputName name)) :
    s.Known (Assembly.completeSchema merged) (mode.inputName name) := by
  rcases h with hdeclared | hemitted
  · exact .declared hdeclared
  · obtain ⟨parts, hlength, rfl, -⟩ := exists_grown hroots hwritten hns hgenerated
    rw [fragmentInputs_ofPairs _ hlength, List.map_map] at hemitted
    obtain ⟨p, hp, hname⟩ := List.mem_map.mp hemitted
    have hmem : .type ((Assembly.rootBasis s.working s.options descriptors).inputOf p) ∈
        (List.zipWith (Fragment.ofPairs (Assembly.rootBasis s.working s.options descriptors))
          descriptors parts).flatten :=
      (mem_flatten_ofPairs hlength).mpr (.inl ⟨p, hp, rfl⟩)
    have hne : p.inputName ≠ Merge.schemaKey := inputName_ne_schemaKey p.mode p.typeName
    apply Sources.Known.present
    rw [declaredNames_completeSchema, ← show p.inputName = mode.inputName name from hname]
    exact mem_declaredNames_merged hmerged (List.mem_append_right _ hmem) hne

/-- What the types of a root type's pages and its entry points mention is known. -/
theorem known_of_outputTypes {d : Descriptor} (hd : d ∈ descriptors) {t : TypeDef}
    (ht : t ∈ Fragment.outputTypes (Assembly.rootBasis s.working s.options descriptors) d)
    {name : String} (hname : name ∈ (Definition.type t).mentioned) :
    s.Known (Assembly.completeSchema merged) name := by
  have hroot : d.typeName ∈ s.roots := (mem_roots hroots).mpr ⟨d, hd, rfl⟩
  cases Fragment.mention_outputTypes ht hname with
  | root hsame => exact hsame ▸ .declared (declared_of_root hroots hroot)
  | identifier hsame =>
      obtain ⟨-, fields, idField, hfields, -, hmem, -, htype, -⟩ :=
        describeRoot_eq_ok (describeRoot_of_mem hroots hd)
      obtain ⟨u, hu, -, rfl, -⟩ := exists_type_of_objectFields? hfields
      rw [hsame, htype, TypeRef.base_ofExpr, KindTable.name_resolve]
      exact .mentioned (mem_fieldNames hu hmem)
  | builtin hbuiltin => exact .builtin hbuiltin
  | primitive hprimitive => exact known_of_primitive hmerged hprimitive
  | input mode hsame =>
      obtain ⟨hsupplied, -⟩ := supplies_of_inputName hroots hwritten hns hgenerated
      rw [hsame]
      exact known_of_supplies hroots hwritten hns hgenerated hmerged
        (hsupplied d.typeName hroot mode)
  | page hpage hsame =>
      rw [hsame]
      exact known_of_page hroots hwritten hns hgenerated hmerged hd hpage

/-- What the input types of the fragments mention is known. -/
theorem known_of_fragmentInputs {t : TypeDef} (ht : t ∈ fragmentInputs generated) {name : String}
    (hname : name ∈ (Definition.type t).mentioned) :
    s.Known (Assembly.completeSchema merged) name := by
  obtain ⟨-, hfields⟩ := supplies_of_inputName hroots hwritten hns hgenerated
  obtain ⟨mode, hfields⟩ := hfields t ht
  obtain ⟨g, hg, hname⟩ := List.mem_flatMap.mp hname
  obtain ⟨harguments, u, hu, f, hf, -, hbase⟩ := hfields g hg
  rw [FieldDef.mentioned, harguments, List.map_nil, List.mem_singleton] at hname
  subst hname
  split at hbase
  · obtain ⟨hrenamed, hsupplied⟩ := hbase
    rw [hrenamed] at hsupplied ⊢
    exact known_of_supplies hroots hwritten hns hgenerated hmerged hsupplied
  · rw [hbase]
    exact .mentioned (mem_fieldNames hu hf)

omit hmerged hgenerated hwritten hns hroots in
/-- A root type that is defined again mentions what its own definition does, and the type of
times. -/
theorem known_of_augmented {document : Document} {d : Descriptor} (hd : d.typeName ∈ s.roots)
    {definition : Definition}
    (h : definition ∈
      Fragment.augmented (Assembly.rootBasis s.working s.options descriptors) d.typeName)
    {name : String} (hname : name ∈ definition.mentioned) :
    s.Known document name ∨ s.KeepsArgument definition name := by
  unfold Fragment.augmented at h
  split at h
  · next htimes =>
      obtain ⟨t, ht, rfl⟩ := List.mem_map.mp h
      obtain ⟨e, interfaces, fields, htype, hbody, -, rfl⟩ :=
        withTimestamps_eq_some.mp (Option.mem_toList.mp ht)
      obtain ⟨hmem, hsame⟩ := mem_of_type? htype
      have hown : (Definition.type e).fields = fields := by
        rw [Definition.fields, hbody]
      obtain ⟨f, hf, hname⟩ := List.mem_flatMap.mp hname
      rcases List.mem_append.mp hf with hf | hf
      · rw [← hown] at hf
        rcases List.mem_cons.mp hname with rfl | hargument
        · exact .inl (.mentioned (mem_fieldNames hmem hf))
        · obtain ⟨a, ha, rfl⟩ := List.mem_map.mp hargument
          exact .inr ⟨htimes, e, hmem, hsame ▸ hd, rfl, f, hf,
            List.mem_append_left _ (hown ▸ hf), a, ha, rfl⟩
      · obtain ⟨time, -, -, rfl⟩ := exists_time_of_mem_missingTimes hf
        obtain rfl : name = "Float" := List.mem_singleton.mp hname
        exact .inl (.builtin (by decide))
  · simp at h

omit hroots hwritten hns hgenerated in
/-- What the primitives mention is known. -/
theorem known_of_primitives {definition : Definition}
    (h : definition ∈ Primitives.definitions s.options.ns) {name : String}
    (hname : name ∈ definition.mentioned) : s.Known (Assembly.completeSchema merged) name := by
  have hmention : name ∈ builtinScalars ∨ name ∈ Primitives.names s.options.ns := by
    simp only [Primitives.definitions, List.mem_cons, List.not_mem_nil, or_false] at h
    rcases h with rfl | rfl | rfl | rfl
    · have hmem : name ∈ ["String", Primitives.filterOperation s.options.ns, "String"] := hname
      simp only [List.mem_cons, List.not_mem_nil, or_false] at hmem
      rcases hmem with rfl | rfl | rfl <;> simp [builtinScalars, Primitives.names]
    · simp [Definition.mentioned, Definition.fields] at hname
    · have hmem : name ∈ ["String", "Boolean"] := hname
      simp only [List.mem_cons, List.not_mem_nil, or_false] at hmem
      rcases hmem with rfl | rfl <;> simp [builtinScalars]
    · have hmem : name ∈ ["Boolean", "Boolean"] := hname
      simp only [List.mem_cons, List.not_mem_nil, or_false] at hmem
      rcases hmem with rfl | rfl <;> simp [builtinScalars]
  rcases hmention with hbuiltin | hprimitive
  · exact .builtin hbuiltin
  · exact known_of_primitive hmerged hprimitive

end Known

section Content

variable {sources : List Source} {s : Sources} {assembled : Assembled}
  (hgiven : ∀ d, .document d ∈ sources → d.Written)
  (hload : Assembly.workingDocument s.options.reading sources = .ok s.working)
  (hbuilt : Assembly.assemble sources s.roots s.options = .ok assembled)

include hgiven hload hbuilt

/-- Every type name that a generated definition mentions is known, but for those in the arguments
that a root type keeps when it is defined again. Both input types of every root type are supplied,
and so is each that a field of a derived input type refers to. -/
theorem generated_mentions :
    ∃ generated,
      Assembly.fragments (Assembly.rootBasis s.working s.options assembled.descriptors)
        assembled.descriptors = .ok generated ∧
      (∀ definition ∈ Primitives.definitions s.options.ns ++ generated.flatten,
        ∀ name ∈ definition.mentioned,
          s.Known assembled.document name ∨ s.KeepsArgument definition name) ∧
      (∀ name ∈ s.roots, ∀ mode : InputMode, s.Supplies generated (mode.inputName name)) ∧
      ∀ d ∈ fragmentInputs generated, ∃ mode : InputMode, ∀ g ∈ (Definition.type d).fields,
        g.arguments = [] ∧ ∃ t ∈ s.working.types, ∃ f ∈ (Definition.type t).fields,
          g.name = f.name ∧
          if (KindTable.ofDocument s.working).isComposite f.type.baseName then
            g.type.baseName = mode.inputName f.type.baseName ∧
              s.Supplies generated g.type.baseName
          else g.type.baseName = f.type.baseName := by
  have hwritten := workingDocument_written hgiven hload
  obtain ⟨hroots, hns, generated, merged, hgenerated, hmerged, hdocument⟩ :=
    assembleFrom_eq_ok (assembleFrom_of_assemble hload hbuilt)
  refine ⟨generated, hgenerated, fun definition hdefinition name hname => ?_,
    supplies_of_inputName hroots hwritten hns hgenerated⟩
  rw [hdocument]
  rcases List.mem_append.mp hdefinition with hprimitive | hdefinition
  · exact .inl (known_of_primitives hmerged hprimitive hname)
  · obtain ⟨parts, hlength, hparts, -⟩ := exists_grown hroots hwritten hns hgenerated
    rw [hparts] at hdefinition
    rcases (mem_flatten_ofPairs hlength).mp hdefinition with ⟨p, hp, rfl⟩ | ⟨d, hd, houtput⟩
    · have hinput : (Assembly.rootBasis s.working s.options assembled.descriptors).inputOf p ∈
          fragmentInputs generated := by
        rw [hparts, fragmentInputs_ofPairs _ hlength]
        exact List.mem_map_of_mem hp
      exact .inl (known_of_fragmentInputs hroots hwritten hns hgenerated hmerged hinput hname)
    · rcases List.mem_append.mp houtput with houtput | haugmented
      · obtain ⟨t, ht, rfl⟩ := List.mem_map.mp houtput
        exact .inl (known_of_outputTypes hroots hwritten hns hgenerated hmerged hd ht hname)
      · exact known_of_augmented ((mem_roots hroots).mpr ⟨d, hd, rfl⟩) haugmented hname

end Content

/-- Orders and customers lead to each other, and neither has arguments or keeps times. -/
theorem generated_mentions_orders :
    (∀ d, .document d ∈ orderSources → d.Written) ∧
    Assembly.workingDocument orders.options.reading orderSources = .ok orders.working ∧
    ∃ assembled, Assembly.assemble orderSources orders.roots orders.options = .ok assembled ∧
      ∃ generated,
        Assembly.fragments (Assembly.rootBasis orders.working orders.options assembled.descriptors)
          assembled.descriptors = .ok generated ∧
        (∀ definition ∈ generated.flatten, ∀ name ∈ definition.mentioned,
          orders.Known assembled.document name) ∧
        ∀ mode : InputMode, orders.Supplies generated (mode.inputName "Order") := by
  obtain ⟨assembled, hbuilt⟩ := assemble_orders
  obtain ⟨generated, hgenerated, hknown, hsupplied, -⟩ :=
    generated_mentions orderSources_written load_orders hbuilt
  refine ⟨orderSources_written, load_orders, assembled, hbuilt, generated, hgenerated,
    fun definition hdefinition name hname => ?_, fun mode => hsupplied "Order" (by decide) mode⟩
  rcases hknown definition (List.mem_append_right _ hdefinition) name hname with h | ⟨htimes, -⟩
  · exact h
  · exact absurd htimes (by decide)

/-- Widgets whose size is asked for in a unit that nobody declares. -/
def sizedWidgets : Sources where
  working := Document.ofDefinitions
    [ .type (Fragment.objectType "Widget"
        [ Fragment.plainField "id" [] (.nonNull (.named "ID")),
          Fragment.plainField "size" [Fragment.plainArgument none "unit" (.named "Unit")]
            (.named "Int") ]) ]
  options := { timestamps := true }
  roots := ["Widget"]

def sizedDescriptor : Descriptor :=
  { typeName := "Widget"
    idName := "id"
    idType := .nonNull (.named (.scalar "ID"))
    fields := [⟨"size", .named (.scalar "Int")⟩] }

/-- The widget as its own definition, with the times that it lacks. -/
def timedWidget : TypeDef :=
  Fragment.objectType "Widget"
    [ Fragment.plainField "id" [] (.nonNull (.named "ID")),
      Fragment.plainField "size" [Fragment.plainArgument none "unit" (.named "Unit")]
        (.named "Int"),
      Fragment.plainField "created" [] (.nonNull (.named "Float")),
      Fragment.plainField "modified" [] (.nonNull (.named "Float")) ]

theorem sizedWidgets_written : ∀ d, .document d ∈ [Source.document sizedWidgets.working] →
    d.Written :=
  Source.written_singleton (by decide)

theorem load_sizedWidgets : Assembly.workingDocument sizedWidgets.options.reading
    [.document sizedWidgets.working] = .ok sizedWidgets.working := rfl

theorem assemble_sizedWidgets :
    let pairs : List InputPair := [⟨"Widget", .create⟩, ⟨"Widget", .update⟩]
    let basis := Assembly.rootBasis sizedWidgets.working sizedWidgets.options [sizedDescriptor]
    let fragment := Fragment.ofPairs basis sizedDescriptor pairs
    Assembly.fragments basis [sizedDescriptor] = .ok [fragment] ∧
      Assembly.assemble [.document sizedWidgets.working] sizedWidgets.roots sizedWidgets.options =
        .ok ⟨Assembly.completeSchema (Document.ofDefinitions
          (Merge.mergeDefinitions (mergedPolicies sizedWidgets)
            ((mergedDocuments sizedWidgets [fragment]).map (·.definitions)))),
          [sizedDescriptor]⟩ := by
  have hdescribed : sizedWidgets.roots.eraseDups.mapM
      (Assembly.describeRoot sizedWidgets.working sizedWidgets.options.selector) =
        .ok [sizedDescriptor] := rfl
  exact assemble_singleton _ load_sizedWidgets hdescribed (by decide) (by decide) (by decide) rfl
    (by decide) rfl (by decide)

/-- The widget is defined again with its times, and its argument mentions a type that is neither
built in nor declared nor the type of a field nor defined anywhere. -/
theorem generated_mentions_unknown :
    ∃ assembled generated definition,
      Assembly.assemble [.document sizedWidgets.working] sizedWidgets.roots sizedWidgets.options =
        .ok assembled ∧
      Assembly.fragments (Assembly.rootBasis sizedWidgets.working sizedWidgets.options
        assembled.descriptors) assembled.descriptors = .ok generated ∧
      definition ∈ generated.flatten ∧ "Unit" ∈ definition.mentioned ∧
      ¬ sizedWidgets.Known assembled.document "Unit" := by
  obtain ⟨hfragments, hbuilt⟩ := assemble_sizedWidgets
  refine ⟨_, _, .type timedWidget, hbuilt, hfragments, ?_, by decide, ?_⟩
  · decide
  · rintro (hbuiltin | hdeclared | hmentioned | hpresent)
    · exact absurd hbuiltin (by decide)
    · exact absurd hdeclared (by decide)
    · exact absurd hmentioned (by decide)
    · exact absurd hpresent (by decide)

end RecordApi
