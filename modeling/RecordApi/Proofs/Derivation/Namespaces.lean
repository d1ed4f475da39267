import RecordApi.Proofs.Derivation.DataArguments
import RecordApi.Proofs.Derivation.MergedPlaces
import RecordApi.Proofs.Derivation.Renaming

/-!
# Schemas of two namespaces

A namespace stands behind the names of the primitives and nowhere else. So the schemas that one
working document has in two namespaces are the same but for these names, as long as neither the
document nor the generated types are called like a primitive of either.
-/

namespace RecordApi

open RecordApi.Language

/-! ## Names of primitives -/

namespace Primitives

/-- What stands before the namespace in the names of the primitives. -/
def fronts : List String :=
  ["DataSourceFilterOperation", "DataSourceOrderInput", "DataSourceFilterInput",
    "DataSourcePageInfo"]

theorem names_eq (ns : String) : names ns = fronts.map (· ++ ns) := rfl

theorem mem_names {ns name : String} : name ∈ names ns ↔ ∃ front ∈ fronts, front ++ ns = name := by
  rw [names_eq, List.mem_map]

/-- A name tells which primitive it is, and of which namespace. -/
theorem eq_of_append {x y a b : String} (hx : x ∈ fronts) (hy : y ∈ fronts)
    (h : x ++ a = y ++ b) : x = y ∧ a = b := by
  have happart : ∀ x ∈ fronts, ∀ y ∈ fronts, x.toList <+: y.toList → x = y := by
    decide
  have hlists : x.toList ++ a.toList = y.toList ++ b.toList := by
    rw [← String.toList_append, ← String.toList_append, h]
  have hsame : x = y := by
    rcases List.prefix_or_prefix_of_prefix (List.prefix_append x.toList a.toList)
      (hlists ▸ List.prefix_append y.toList b.toList) with hprefix | hprefix
    · exact happart x hx y hy hprefix
    · exact (happart y hy x hx hprefix).symm
  subst hsame
  exact ⟨rfl, (String.append_right_inj x).mp h⟩

/-- Primitives of different namespaces have different names. -/
theorem not_mem_names_of_ne {a b name : String} (h : a ≠ b) (hname : name ∈ names a) :
    name ∉ names b := by
  intro hother
  obtain ⟨x, hx, rfl⟩ := mem_names.mp hname
  obtain ⟨y, hy, hsame⟩ := mem_names.mp hother
  exact h (eq_of_append hy hx hsame).2.symm

theorem not_mem_names {ns name : String} (h : name.toList.head? ≠ some 'D') :
    name ∉ names ns := by
  intro hname
  obtain ⟨front, hfront, rfl⟩ := mem_names.mp hname
  have hhead : ∀ front ∈ fronts, front.toList.head? = some 'D' := by
    decide
  rw [String.toList_append, List.head?_append, hhead front hfront] at h
  exact h rfl

/-- The primitive of a second namespace for one of the first; other names stay. -/
def renamed (a b name : String) : String :=
  (((names a).zip (names b)).lookup name).getD name

variable {a b : String}

theorem renamed_append {front : String} (h : front ∈ fronts) :
    renamed a b (front ++ a) = front ++ b := by
  have hzip : (names a).zip (names b) = fronts.map fun front => (front ++ a, front ++ b) := by
    rfl
  have hlookup (items : List String) (hmem : front ∈ items) (hitems : items ⊆ fronts) :
      (items.map fun front => (front ++ a, front ++ b)).lookup (front ++ a) =
        some (front ++ b) := by
    induction items with
    | nil => cases hmem
    | cons other rest ih =>
        obtain ⟨hother, hrest⟩ := List.cons_subset.mp hitems
        rw [List.map_cons, Association.lookup_cons]
        split
        · next hsame => rw [(eq_of_append h hother hsame).1]
        · next hne =>
            refine ih ((List.mem_cons.mp hmem).resolve_left ?_) hrest
            rintro rfl
            exact hne rfl
  rw [renamed, hzip, hlookup fronts h (List.Subset.refl _)]
  rfl

theorem renamed_of_not_mem {name : String} (h : name ∉ names a) : renamed a b name = name := by
  have hnone : ((names a).zip (names b)).lookup name = none := by
    refine Association.lookup_eq_none fun hkey => h ?_
    rwa [List.map_fst_zip (by simp [names])] at hkey
  rw [renamed, hnone]
  rfl

theorem renamed_mem {name : String} (h : name ∈ names a) : renamed a b name ∈ names b := by
  obtain ⟨front, hfront, rfl⟩ := mem_names.mp h
  rw [renamed_append hfront]
  exact mem_names.mpr ⟨front, hfront, rfl⟩

/-- Names that are not primitives of the second namespace alone are renamed apart. -/
theorem renamed_injOn : Set.InjOn (renamed a b) {name | name ∈ names b → name ∈ names a} := by
  have hcross {x y : String} (hx : x ∈ names a) (hy : y ∉ names a)
      (hkept : y ∈ names b → y ∈ names a) : renamed a b x ≠ renamed a b y := by
    intro hsame
    rw [renamed_of_not_mem hy] at hsame
    exact hy (hkept (hsame ▸ renamed_mem hx))
  intro x hx y hy hsame
  by_cases hxa : x ∈ names a <;> by_cases hya : y ∈ names a
  · obtain ⟨front, hfront, rfl⟩ := mem_names.mp hxa
    obtain ⟨other, hother, rfl⟩ := mem_names.mp hya
    rw [renamed_append hfront, renamed_append hother] at hsame
    rw [(eq_of_append hfront hother hsame).1]
  · exact absurd hsame (hcross hxa hya hy)
  · exact absurd hsame.symm (hcross hya hxa hx)
  · rwa [renamed_of_not_mem hxa, renamed_of_not_mem hya] at hsame

theorem key_mem_names {ns key : String} {d : Definition} (hd : d ∈ definitions ns)
    (hkey : Merge.key? d = some key) : key ∈ names ns := by
  simp only [definitions, List.mem_cons, List.not_mem_nil, or_false] at hd
  rcases hd with rfl | rfl | rfl | rfl
  all_goals
    obtain rfl := Option.some.inj hkey
    simp [names]

/-- No primitive is called like a type that serves a schema by its name. -/
theorem not_mem_standard {ns name : String} (h : name ∈ names ns) :
    name ∉ ["Query", "Mutation", "Subscription"] := by
  have hheads : ∀ other ∈ ["Query", "Mutation", "Subscription"],
      other.toList.head? ≠ some 'D' := by
    decide
  exact fun hstandard => not_mem_names (hheads name hstandard) h

/-- The primitives of one namespace are those of another, renamed. -/
theorem definitions_renamed (a b : String) :
    (definitions a).map (Definition.rename (renamed a b)) = definitions b := by
  have hstring : renamed a b "String" = "String" := renamed_of_not_mem (not_mem_names (by decide))
  have hboolean : renamed a b "Boolean" = "Boolean" :=
    renamed_of_not_mem (not_mem_names (by decide))
  have hoperation : renamed a b (filterOperation a) = filterOperation b :=
    renamed_append (by decide)
  have horder : renamed a b (orderInput a) = orderInput b := renamed_append (by decide)
  have hfilter : renamed a b (filterInput a) = filterInput b := renamed_append (by decide)
  have hpage : renamed a b (pageInfo a) = pageInfo b := renamed_append (by decide)
  simp [definitions, Definition.rename, TypeDef.rename, TypeBody.rename, inputField, flagField,
    InputDef.rename, FieldDef.rename, TypeExpr.withBase, hstring, hboolean, hoperation, horder,
    hfilter, hpage]

end Primitives

/-! ## Derivations in another namespace -/

/-- The same options with another namespace. -/
def Options.within (options : Options) (ns : String) : Options :=
  { options with ns := ns }

/-- The same basis with another namespace. -/
def Basis.within (basis : Basis) (ns : String) : Basis :=
  { basis with options := basis.options.within ns }

namespace Fragment

variable {basis : Basis} {ns : String}

theorem inputFields_within (mode : InputMode) (nested : String → List DataField → Derive String)
    (fields : List DataField) :
    Derive.inputFields (basis.within ns) mode nested fields =
      Derive.inputFields basis mode nested fields := by
  induction fields with
  | nil => rfl
  | cons field rest ih =>
      rw [Derive.inputFields, Derive.inputFields, ih]
      rfl

theorem input_within (mode : InputMode) (bound : Nat) :
    Derive.input (basis.within ns) mode bound = Derive.input basis mode bound := by
  induction bound with
  | zero => rfl
  | succ bound ih =>
      funext active typeName fields
      rw [Derive.input, Derive.input]
      simp only [inputFields_within, ih]
      rfl

/-- The input types are derived without looking at the namespace. -/
theorem inputs_within (d : Descriptor) : inputs (basis.within ns) d = inputs basis d := by
  unfold inputs
  simp only [input_within]
  rfl

theorem plain_within (h : basis.Plain) (hns : ns.toList.all isNameContinue) :
    (basis.within ns).Plain :=
  ⟨h.names, h.fields, h.query, h.mutation, hns⟩

theorem counted_outputTypes (d : Descriptor) :
    Reader.counted ((outputTypes (basis.within ns) d).flatMap TypeDef.lexemes) =
      Reader.counted ((outputTypes basis d).flatMap TypeDef.lexemes) := by
  have hconnection : Reader.counted (connectionType ns d.typeName).lexemes =
      Reader.counted (connectionType basis.options.ns d.typeName).lexemes := rfl
  have hquery : Reader.counted (queryType (basis.within ns).options d).lexemes =
      Reader.counted (queryType basis.options d).lexemes := by
    simp only [queryType, objectType, TypeDef.lexemes, List.flatMap_cons, enclosed,
      FieldDef.lexemes]
    simp [Reader.counted]
    rfl
  have hwithin : outputTypes (basis.within ns) d =
      [edgeType d.typeName, connectionType ns d.typeName, queryType (basis.within ns).options d,
        mutationType d] ++ entryPoints basis.roots d.typeName := rfl
  rw [hwithin, outputTypes_eq, pageTypes]
  simp only [List.flatMap_append, List.flatMap_cons, Reader.counted_append, hconnection, hquery]

/-- The text of a fragment is read back in one namespace just if it is in another: it has as many
tokens, and a name for the entry points in both or in neither. -/
theorem reread_within {d : Descriptor} (h : basis.Plain) (hd : d.Plain)
    (hns : ns.toList.all isNameContinue) {inputs : List TypeDef} (hinputs : ∀ t ∈ inputs, t.Bare)
    (options : ReadOptions) :
    reread options (inputs ++ outputTypes (basis.within ns) d) =
        .ok ((inputs ++ outputTypes (basis.within ns) d).map .type) ↔
      reread options (inputs ++ outputTypes basis d) =
        .ok ((inputs ++ outputTypes basis d).map .type) := by
  have hsame : Reader.counted ((inputs ++ outputTypes (basis.within ns) d).flatMap
      TypeDef.lexemes) = Reader.counted ((inputs ++ outputTypes basis d).flatMap
        TypeDef.lexemes) := by
    rw [List.flatMap_append, List.flatMap_append, Reader.counted_append, Reader.counted_append,
      counted_outputTypes]
  rw [reread_eq_ok (plain_within h hns) hd hinputs, reread_eq_ok h hd hinputs, hsame]
  simp

/-- The definitions of a fragment, where they differ: the input types and the root type with its
times are the same in every namespace. -/
theorem ofPairs_within (d : Descriptor) (added : List InputPair) :
    ofPairs (basis.within ns) d added =
      (added.map basis.inputOf ++ outputTypes (basis.within ns) d).map .type ++
        augmented basis d.typeName := rfl

/-- The fragment of one root type in another namespace. -/
theorem generate_within {d : Descriptor} (h : basis.Plain) (hd : d.Plain)
    (hns : ns.toList.all isNameContinue)
    (hlookup : basis.descriptors.lookup d.typeName = some d) (known : List String) :
    match generate basis d known with
    | (.ok definitions, names) => ∃ added, definitions = ofPairs basis d added ∧
        generate (basis.within ns) d known = (.ok (ofPairs (basis.within ns) d added), names)
    | (.error _, _) =>
        ∃ failure names, generate (basis.within ns) d known = (.error failure, names) := by
  have hrun := outcome_inputs hlookup known
  unfold generate
  rw [inputs_within, show (inputs basis d).run ⟨known, []⟩ = (inputs basis d).outcome ⟨known, []⟩
    from rfl]
  rcases houtcome : (inputs basis d).outcome ⟨known, []⟩ with ⟨failure | ⟨⟩, after⟩
  · exact ⟨failure, after.names, rfl⟩
  · rw [houtcome] at hrun
    obtain ⟨added, hstages, rfl⟩ := hrun
    have hbare := bare_added h hlookup hstages
    have hiff := reread_within h hd hns hbare basis.options.reading
    have hinputs : added.map (basis.within ns).inputOf = added.map basis.inputOf := rfl
    have hreading : (basis.within ns).options.reading = basis.options.reading := rfl
    dsimp only
    rw [hreading]
    cases hfirst : reread basis.options.reading
        (added.map basis.inputOf ++ outputTypes basis d) with
    | error failure =>
        cases hsecond : reread basis.options.reading
            (added.map basis.inputOf ++ outputTypes (basis.within ns) d) with
        | error other => exact ⟨other, _, rfl⟩
        | ok definitions =>
            obtain ⟨-, -, rfl⟩ := (reread_eq_ok (plain_within h hns) hd hbare).mp hsecond
            rw [hiff.mp hsecond] at hfirst
            cases hfirst
    | ok definitions =>
        obtain ⟨-, -, rfl⟩ := (reread_eq_ok h hd hbare).mp hfirst
        rw [hiff.mpr hfirst]
        exact ⟨added, rfl, rfl⟩

/-- The fragments of all root types in another namespace. -/
theorem generateEach_within {ds : List Descriptor} (h : basis.Plain)
    (hds : ∀ d ∈ ds, d.Plain ∧ basis.descriptors.lookup d.typeName = some d)
    (hns : ns.toList.all isNameContinue) (known : List String) :
    match (generateEach basis ds known).mapM id with
    | .ok generated => ∃ parts : List (Descriptor × List InputPair), (∀ part ∈ parts, part.1 ∈ ds) ∧
        generated = parts.map (fun part => ofPairs basis part.1 part.2) ∧
        (generateEach (basis.within ns) ds known).mapM id =
          .ok (parts.map fun part => ofPairs (basis.within ns) part.1 part.2)
    | .error _ =>
        ∃ failure, (generateEach (basis.within ns) ds known).mapM id = .error failure := by
  induction ds generalizing known with
  | nil => exact ⟨[], by simp, rfl, rfl⟩
  | cons d rest ih =>
      obtain ⟨⟨hd, hlookup⟩, hrest⟩ := List.forall_mem_cons.mp hds
      have hfirst := generate_within h hd hns hlookup known
      rw [generateEach, generateEach]
      rcases hgenerate : generate basis d known with ⟨failure | definitions, names⟩
      · rw [hgenerate] at hfirst
        obtain ⟨other, others, hother⟩ := hfirst
        rw [hother, List.mapM_cons, List.mapM_cons]
        exact ⟨other, rfl⟩
      · rw [hgenerate] at hfirst
        obtain ⟨added, rfl, hother⟩ := hfirst
        have hmore := ih hrest names
        rw [hother, List.mapM_cons, List.mapM_cons]
        dsimp only [id_eq, bind, Except.bind]
        cases hgenerated : (generateEach basis rest names).mapM id with
        | error failure =>
            rw [hgenerated] at hmore
            obtain ⟨failure, hfailure⟩ := hmore
            rw [hfailure]
            exact ⟨failure, rfl⟩
        | ok generated =>
            rw [hgenerated] at hmore
            obtain ⟨parts, hmem, rfl, hparts⟩ := hmore
            rw [hparts]
            refine ⟨(d, added) :: parts, ?_, rfl, rfl⟩
            exact List.forall_mem_cons.mpr
              ⟨List.mem_cons_self, fun part hpart => List.mem_cons_of_mem d (hmem part hpart)⟩

/-- The names that the types behind the input types have and mention, but for built-in scalars and
primitives. -/
inductive Own (basis : Basis) (d : Descriptor) (name : String) : Prop
  | root : name = d.typeName → Own basis d name
  | identifier : name = d.idType.base.name → Own basis d name
  | input (mode : InputMode) : name = mode.inputName d.typeName → Own basis d name
  | page : name ∈ pageNames d.typeName → Own basis d name
  | role : basis.roots.Includes name → Own basis d name

/-- The types behind the input types differ in the primitives that they mention. -/
theorem outputTypes_rename {d : Descriptor}
    (hown : ∀ name, Own basis d name → name ∉ Primitives.names basis.options.ns) :
    (outputTypes basis d).map (TypeDef.rename (Primitives.renamed basis.options.ns ns)) =
      outputTypes (basis.within ns) d := by
  have hfixed (name : String) (hname : Own basis d name) :
      Primitives.renamed basis.options.ns ns name = name :=
    Primitives.renamed_of_not_mem (hown name hname)
  have hbuiltin (name : String) (hname : name ∈ ["ID", "Int", "Boolean"]) :
      Primitives.renamed basis.options.ns ns name = name := by
    have hhead : ∀ name ∈ ["ID", "Int", "Boolean"], name.toList.head? ≠ some 'D' := by decide
    exact Primitives.renamed_of_not_mem (Primitives.not_mem_names (hhead name hname))
  have hpage (suffix : String) (hsuffix : suffix ∈ ["Edge", "Connection", "Query", "Mutation"]) :
      Primitives.renamed basis.options.ns ns (d.typeName ++ suffix) = d.typeName ++ suffix :=
    hfixed _ (.page (List.mem_map_of_mem hsuffix))
  have hid (ref : TypeRef) (href : ref.base = d.idType.base) :
      ref.toExpr.withBase (Primitives.renamed basis.options.ns ns) = ref.toExpr := by
    apply TypeExpr.withBase_self
    rw [TypeRef.baseName_toExpr, href]
    exact hfixed _ (.identifier rfl)
  have horder : Primitives.renamed basis.options.ns ns (Primitives.orderInput basis.options.ns) =
      Primitives.orderInput ns := Primitives.renamed_append (by decide)
  have hfilter : Primitives.renamed basis.options.ns ns
      (Primitives.filterInput basis.options.ns) = Primitives.filterInput ns :=
    Primitives.renamed_append (by decide)
  have hpageInfo : Primitives.renamed basis.options.ns ns
      (Primitives.pageInfo basis.options.ns) = Primitives.pageInfo ns :=
    Primitives.renamed_append (by decide)
  simp [outputTypes, edgeType, connectionType, queryType, mutationType, entryPoints, listArguments,
    objectType, plainField, plainArgument, listOf, TypeDef.rename, TypeBody.rename,
    FieldDef.rename, InputDef.rename, TypeExpr.withBase, hfixed _ (.root rfl),
    hfixed _ (.input .create rfl), hfixed _ (.input .update rfl), hfixed _ (.role (.inl rfl)),
    hfixed _ (.role (.inr rfl)), TypeRef.base_required, hbuiltin, hpage, hid, horder, hfilter,
    hpageInfo, Basis.within, Options.within]

end Fragment

/-! ## Schemas -/

/-- The same schema in another namespace. -/
def Sources.within (s : Sources) (ns : String) : Sources :=
  { s with options := s.options.within ns }

/-- Whether nothing that the working document declares or mentions, and nothing that is generated
for it, is called like a primitive of a namespace. -/
structure Sources.Clear (s : Sources) (ns : String) : Prop where
  working : ∀ d ∈ s.working.definitions, ∀ name ∈ d.typeNames ++ d.rootTypes,
    name ∉ Primitives.names ns
  generated : ∀ descriptors generated,
    s.roots.eraseDups.mapM (Assembly.describeRoot s.working s.options.selector) =
      .ok descriptors →
    Assembly.fragments (Assembly.rootBasis s.working s.options descriptors) descriptors =
      .ok generated →
    ∀ d ∈ generated.flatten, ∀ name ∈ d.name?, name ∉ Primitives.names ns

namespace Sources.Clear

variable {s : Sources} {ns name : String} (h : s.Clear ns)

include h

theorem declared (hname : name ∈ declaredNames s.working) : name ∉ Primitives.names ns := by
  obtain ⟨d, hd, hdname⟩ := List.mem_filterMap.mp hname
  refine h.working d hd name ?_
  simp [Definition.typeNames, hdname]

theorem mentioned {t : TypeDef} (ht : t ∈ s.working.types) {f : FieldDef}
    (hf : f ∈ (Definition.type t).fields) (hname : name ∈ f.mentioned) :
    name ∉ Primitives.names ns := by
  refine h.working _ (mem_types.mp ht) name (List.mem_append_left _ ?_)
  exact List.mem_append_left _ (List.mem_append_right _ (List.mem_flatMap.mpr ⟨f, hf, hname⟩))

theorem role (hname : (RootNames.ofDocument s.working).Includes name) :
    name ∉ Primitives.names ns := by
  have hfold (roots : List RootDef) (names : RootNames)
      (hroots : ∀ root ∈ roots, root.type ∉ Primitives.names ns)
      (hnames : ∀ name, names.Includes name → name ∉ Primitives.names ns) :
      ∀ name, (roots.foldl RootNames.set names).Includes name → name ∉ Primitives.names ns := by
    induction roots generalizing names with
    | nil => exact hnames
    | cons root rest ih =>
        obtain ⟨hroot, hrest⟩ := List.forall_mem_cons.mp hroots
        refine ih _ hrest fun name hincludes => ?_
        unfold RootNames.set at hincludes
        split at hincludes
        · rcases hincludes with rfl | rfl
          · exact hroot
          · exact hnames _ (.inr rfl)
        · rcases hincludes with rfl | rfl
          · exact hnames _ (.inl rfl)
          · exact hroot
        · exact hnames name hincludes
  refine hfold _ _ (fun root hroot => ?_) (fun name hincludes => ?_) name hname
  · obtain ⟨d, hd, hroot⟩ := List.mem_flatMap.mp hroot
    cases d with
    | schema own =>
        exact h.working _ hd _ (List.mem_append_right _ (List.mem_map_of_mem hroot))
    | _ => cases hroot
  · rcases hincludes with rfl | rfl
    · exact Primitives.not_mem_names (by decide)
    · exact Primitives.not_mem_names (by decide)

theorem key {d : Definition} (hd : d ∈ s.working.definitions) (hkey : Merge.key? d = some name) :
    name ∉ Primitives.names ns := by
  by_cases hschema : name = Merge.schemaKey
  · subst hschema
    exact Primitives.not_mem_names (by decide)
  · exact h.declared (List.mem_filterMap.mpr ⟨d, hd, Merge.name?_of_key? hkey hschema⟩)

end Sources.Clear

theorem mem_of_mem_inputTypes {definitions : List Definition} {t : TypeDef}
    (h : t ∈ inputTypes definitions) : .type t ∈ definitions := by
  obtain ⟨d, hd, ht⟩ := List.mem_filterMap.mp h
  cases d with
  | type u =>
      dsimp only at ht
      split at ht
      · obtain rfl := Option.some.inj ht
        exact hd
      · cases ht
  | _ => cases ht

/-- The fragments in another namespace are made of the same pairs, or fail as well. -/
theorem fragments_within {s : Sources} {ns : String} {descriptors : List Descriptor}
    (hroots : s.roots.eraseDups.mapM (Assembly.describeRoot s.working s.options.selector) =
      .ok descriptors)
    (hwritten : s.working.Written) (hns : s.options.ns.toList.all isNameContinue)
    (hother : ns.toList.all isNameContinue) :
    match Assembly.fragments (Assembly.rootBasis s.working s.options descriptors) descriptors with
    | .ok generated => ∃ parts : List (Descriptor × List InputPair),
        (∀ part ∈ parts, part.1 ∈ descriptors) ∧
        generated = parts.map (fun part => Fragment.ofPairs
          (Assembly.rootBasis s.working s.options descriptors) part.1 part.2) ∧
        Assembly.fragments (Assembly.rootBasis s.working (s.options.within ns) descriptors)
          descriptors = .ok (parts.map fun part => Fragment.ofPairs
            ((Assembly.rootBasis s.working s.options descriptors).within ns) part.1 part.2)
    | .error _ => ∃ failure, Assembly.fragments
        (Assembly.rootBasis s.working (s.options.within ns) descriptors) descriptors =
          .error failure :=
  Fragment.generateEach_within (plain_rootBasis hroots hwritten hns) (fun _ hd =>
    ⟨plain_descriptors hroots hwritten hd, (lookup_descriptors hroots).mpr ⟨hd, rfl⟩⟩) hother []

section Within

variable {s : Sources} {ns : String} {descriptors : List Descriptor}
  {generated : List (List Definition)}
  (hroots : s.roots.eraseDups.mapM (Assembly.describeRoot s.working s.options.selector) =
    .ok descriptors)
  (hwritten : s.working.Written)
  (hns : s.options.ns.toList.all isNameContinue)
  (hgenerated : Assembly.fragments (Assembly.rootBasis s.working s.options descriptors)
    descriptors = .ok generated)
  (hclear : s.Clear s.options.ns)

include hroots hwritten hns hgenerated hclear

omit hwritten hns in
/-- What is generated, and what it supplies, is not called like a primitive. -/
theorem supplies_clear {name : String} (h : s.Supplies generated name) :
    name ∉ Primitives.names s.options.ns := by
  rcases h with hdeclared | hinput
  · exact hclear.declared hdeclared
  · obtain ⟨t, ht, rfl⟩ := List.mem_map.mp hinput
    obtain ⟨part, hpart, ht⟩ := List.mem_flatMap.mp ht
    exact hclear.generated descriptors generated hroots hgenerated (.type t)
      (List.mem_flatten.mpr ⟨part, hpart, mem_of_mem_inputTypes ht⟩) t.name rfl

/-- Input types mention no primitives. -/
theorem inputOf_rename {t : TypeDef} (ht : t ∈ fragmentInputs generated) :
    t.rename (Primitives.renamed s.options.ns ns) = t := by
  obtain ⟨-, hfields⟩ := supplies_of_inputName hroots hwritten hns hgenerated
  obtain ⟨mode, hfields⟩ := hfields t ht
  have hname : t.name ∉ Primitives.names s.options.ns :=
    supplies_clear hroots hgenerated hclear (.inr (List.mem_map_of_mem ht))
  refine TypeDef.rename_self (Primitives.renamed_of_not_mem hname) fun name hmentioned => ?_
  obtain ⟨g, hg, hmention⟩ := List.mem_flatMap.mp hmentioned
  obtain ⟨harguments, u, hu, f, hf, -, hbase⟩ := hfields g hg
  obtain rfl : name = g.type.baseName := by simpa [FieldDef.mentioned, harguments] using hmention
  apply Primitives.renamed_of_not_mem
  split at hbase
  · exact supplies_clear hroots hgenerated hclear hbase.2
  · rw [hbase]
    exact hclear.mentioned hu hf List.mem_cons_self

omit hwritten hns hgenerated hroots in
/-- A root type with its times mentions no primitives. -/
theorem augmented_rename {d : Definition} {typeName : String}
    (hd : d ∈ Fragment.augmented (Assembly.rootBasis s.working s.options descriptors) typeName) :
    d.rename (Primitives.renamed s.options.ns ns) = d := by
  unfold Fragment.augmented at hd
  split at hd
  · obtain ⟨t, ht, rfl⟩ := List.mem_map.mp hd
    obtain ⟨e, interfaces, fields, htype, hbody, -, rfl⟩ :=
      withTimestamps_eq_some.mp (Option.mem_toList.mp ht)
    obtain ⟨hmem, -⟩ := mem_of_type? htype
    have hname : e.name ∉ Primitives.names s.options.ns :=
      hclear.declared (List.mem_filterMap.mpr ⟨_, mem_types.mp hmem, rfl⟩)
    refine congrArg Definition.type (TypeDef.rename_self (Primitives.renamed_of_not_mem hname) ?_)
    intro name hmentioned
    apply Primitives.renamed_of_not_mem
    obtain ⟨f, hf, hmention⟩ := List.mem_flatMap.mp hmentioned
    rcases List.mem_append.mp (show f ∈ fields ++ missingTimes fields from hf) with hf | hf
    · refine hclear.mentioned hmem ?_ hmention
      rw [Definition.fields, hbody]
      exact hf
    · obtain ⟨time, -, -, rfl⟩ := exists_time_of_mem_missingTimes hf
      obtain rfl : name = "Float" := List.mem_singleton.mp hmention
      exact Primitives.not_mem_names (by decide)
  · cases hd

/-- The names of a fragment's own are not called like a primitive. -/
theorem own_clear {d : Descriptor} (hd : d ∈ descriptors) {part : List Definition}
    (hpart : part ∈ generated)
    (hpages : ∀ t ∈ Fragment.pageTypes s.options d, .type t ∈ part) {name : String}
    (h : Fragment.Own (Assembly.rootBasis s.working s.options descriptors) d name) :
    name ∉ Primitives.names s.options.ns := by
  have hroot : d.typeName ∈ s.roots := (mem_roots hroots).mpr ⟨d, hd, rfl⟩
  cases h with
  | root hsame =>
      rw [hsame]
      exact hclear.declared (declared_of_root hroots hroot)
  | identifier hsame =>
      obtain ⟨-, fields, idField, hfields, -, hmem, -, htype, -⟩ :=
        describeRoot_eq_ok (describeRoot_of_mem hroots hd)
      obtain ⟨u, hu, -, rfl, -⟩ := exists_type_of_objectFields? hfields
      rw [hsame, htype, TypeRef.base_ofExpr, KindTable.name_resolve]
      exact hclear.mentioned hu hmem List.mem_cons_self
  | input mode hsame =>
      obtain ⟨hsupplied, -⟩ := supplies_of_inputName hroots hwritten hns hgenerated
      rw [hsame]
      exact supplies_clear hroots hgenerated hclear
        (hsupplied d.typeName hroot mode)
  | page hpage =>
      rw [← names_pageTypes s.options d] at hpage
      obtain ⟨t, ht, rfl⟩ := List.mem_map.mp hpage
      exact hclear.generated descriptors generated hroots hgenerated (.type t)
        (List.mem_flatten.mpr ⟨part, hpart, hpages t ht⟩) t.name rfl
  | role hrole => exact hclear.role hrole

/-- A fragment in another namespace is the same fragment, renamed. -/
theorem ofPairs_rename {d : Descriptor} (hd : d ∈ descriptors) {added : List InputPair}
    (hpart : Fragment.ofPairs (Assembly.rootBasis s.working s.options descriptors) d added ∈
      generated) :
    (Fragment.ofPairs (Assembly.rootBasis s.working s.options descriptors) d added).map
        (Definition.rename (Primitives.renamed s.options.ns ns)) =
      Fragment.ofPairs ((Assembly.rootBasis s.working s.options descriptors).within ns) d
        added := by
  have hinputs : (added.map (Assembly.rootBasis s.working s.options descriptors).inputOf).map
      (TypeDef.rename (Primitives.renamed s.options.ns ns)) =
        added.map (Assembly.rootBasis s.working s.options descriptors).inputOf := by
    conv_rhs => rw [← List.map_id (added.map _)]
    refine List.map_congr_left fun t ht => ?_
    refine inputOf_rename hroots hwritten hns hgenerated hclear
      (List.mem_flatMap.mpr ⟨_, hpart, ?_⟩)
    rwa [inputTypes_ofPairs]
  have haugmented : (Fragment.augmented (Assembly.rootBasis s.working s.options descriptors)
      d.typeName).map (Definition.rename (Primitives.renamed s.options.ns ns)) =
        Fragment.augmented (Assembly.rootBasis s.working s.options descriptors) d.typeName := by
    conv_rhs => rw [← List.map_id (Fragment.augmented _ _)]
    exact List.map_congr_left fun e he => augmented_rename hclear he
  have hpages : ∀ t ∈ Fragment.pageTypes s.options d, .type t ∈
      Fragment.ofPairs (Assembly.rootBasis s.working s.options descriptors) d added := by
    intro t ht
    refine List.mem_append_left _ (List.mem_map_of_mem (List.mem_append_right _ ?_))
    rw [Fragment.outputTypes_eq]
    exact List.mem_append_left _ ht
  have houtput : _ = Fragment.outputTypes (Basis.within _ ns) d :=
    Fragment.outputTypes_rename fun name hown =>
      own_clear hroots hwritten hns hgenerated hclear hd hpart hpages hown
  have htypes (types : List TypeDef) : (types.map Definition.type).map
      (Definition.rename (Primitives.renamed s.options.ns ns)) =
        (types.map (TypeDef.rename (Primitives.renamed s.options.ns ns))).map .type := by
    rw [List.map_map, List.map_map]
    rfl
  rw [Fragment.ofPairs_within, ← houtput, Fragment.ofPairs, List.map_append, haugmented, htypes,
    List.map_append, hinputs]
  rfl

/-- The fragments in another namespace are the same fragments, renamed. -/
theorem fragments_rename (hother : ns.toList.all isNameContinue) :
    Assembly.fragments (Assembly.rootBasis s.working (s.options.within ns) descriptors)
      descriptors =
        .ok (generated.map
          (List.map (Definition.rename (Primitives.renamed s.options.ns ns)))) := by
  have hwithin := fragments_within hroots hwritten hns hother
  rw [hgenerated] at hwithin
  obtain ⟨parts, hmem, hparts, hok⟩ := hwithin
  refine hok.trans (congrArg Except.ok ?_)
  rw [hparts, List.map_map]
  refine (List.map_congr_left fun part hpart => ?_).symm
  refine ofPairs_rename hroots hwritten hns hgenerated hclear (hmem part hpart) ?_
  rw [hparts]
  exact List.mem_map_of_mem hpart

omit hclear in
/-- The definitions that a schema is merged from are renamed apart. -/
theorem within_keys (hapart : s.Clear ns) :
    ∀ list ∈ (mergedDocuments s generated).map (·.definitions), ∀ d ∈ list,
      Merge.Within {name | name ∈ Primitives.names ns → name ∈ Primitives.names s.options.ns}
        d := by
  intro list hlist d hd key hkey
  obtain ⟨document, hdocument, rfl⟩ := List.mem_map.mp hlist
  rcases List.mem_cons.mp hdocument with rfl | hdocument
  · exact fun _ => Primitives.key_mem_names hd hkey
  · rcases List.mem_cons.mp hdocument with rfl | hdocument
    · exact fun hname => absurd hname (hapart.key hd hkey)
    · obtain ⟨part, hpart, rfl⟩ := List.mem_map.mp hdocument
      have hflat : d ∈ generated.flatten := List.mem_flatten.mpr ⟨part, hpart, hd⟩
      obtain ⟨t, rfl⟩ := eq_type_of_mem_flatten hroots hwritten hns hgenerated hflat
      exact fun hname => absurd hname
        (hapart.generated descriptors generated hroots hgenerated _ hflat key hkey)

/-- The merged definitions in another namespace are the same definitions, renamed. -/
theorem mergeDefinitions_within (hapart : s.Clear ns) :
    Merge.mergeDefinitions (mergedPolicies s) ((mergedDocuments (s.within ns)
      (generated.map (List.map (Definition.rename (Primitives.renamed s.options.ns ns))))).map
        (·.definitions)) =
      (Merge.mergeDefinitions (mergedPolicies s)
        ((mergedDocuments s generated).map (·.definitions))).map
          (Definition.rename (Primitives.renamed s.options.ns ns)) := by
  have hworking : s.working.definitions.map
      (Definition.rename (Primitives.renamed s.options.ns ns)) = s.working.definitions := by
    conv_rhs => rw [← List.map_id s.working.definitions]
    refine List.map_congr_left fun d hd => Definition.rename_self fun name hname => ?_
    exact Primitives.renamed_of_not_mem
      (hclear.working d hd name (List.mem_append_left _ hname))
  have hlists : (mergedDocuments (s.within ns)
      (generated.map (List.map (Definition.rename (Primitives.renamed s.options.ns ns))))).map
        (·.definitions) = ((mergedDocuments s generated).map (·.definitions)).map
          (List.map (Definition.rename (Primitives.renamed s.options.ns ns))) := by
    simp only [mergedDocuments, List.map_cons, List.map_map]
    rw [hworking, show (Document.ofDefinitions (Primitives.definitions s.options.ns)).definitions =
      Primitives.definitions s.options.ns from rfl, Primitives.definitions_renamed]
    rfl
  have hschema : Primitives.renamed s.options.ns ns Merge.schemaKey = Merge.schemaKey :=
    Primitives.renamed_of_not_mem (Primitives.not_mem_names (by decide))
  have hpolicy : ∀ key ∈ {name | name ∈ Primitives.names ns →
      name ∈ Primitives.names s.options.ns},
        Merge.policyOf (mergedPolicies s) (Primitives.renamed s.options.ns ns key) =
          Merge.policyOf (mergedPolicies s) key := by
    intro key _
    by_cases hkey : key ∈ Primitives.names s.options.ns
    · rw [policyOf_eq_override (fun hrole => hapart.role hrole (Primitives.renamed_mem hkey))
          (Primitives.not_mem_standard (Primitives.renamed_mem hkey)),
        policyOf_eq_override (fun hrole => hclear.role hrole hkey)
          (Primitives.not_mem_standard hkey)]
    · rw [Primitives.renamed_of_not_mem hkey]
  rw [hlists]
  exact Merge.mergeDefinitions_rename hschema Primitives.renamed_injOn hpolicy
    (within_keys hroots hwritten hns hgenerated hapart)

end Within

/-- The assembled schema with its document renamed. -/
def Assembled.rename (f : String → String) (assembled : Assembled) : Assembled :=
  { assembled with document := assembled.document.rename f }

theorem assembleFrom_within {s : Sources} {ns : String} (hwritten : s.working.Written)
    (hworking : Merge.Named s.working) (hns : s.options.ns.toList.all isNameContinue)
    (hother : ns.toList.all isNameContinue) (hclear : s.Clear s.options.ns)
    (hapart : s.Clear ns) :
    (Assembly.assembleFrom s.working s.roots (s.options.within ns)).toOption =
      (Assembly.assembleFrom s.working s.roots s.options).toOption.map
        (Assembled.rename (Primitives.renamed s.options.ns ns)) := by
  cases hbuilt : Assembly.assembleFrom s.working s.roots s.options with
  | ok assembled =>
      obtain ⟨hroots, -, generated, merged, hgenerated, -, -⟩ := assembleFrom_eq_ok hbuilt
      have htypes : ∀ part ∈ generated, ∀ definition ∈ part, ∃ t, definition = .type t :=
        fun part hpart definition hdefinition => eq_type_of_mem_flatten hroots hwritten hns
          hgenerated (List.mem_flatten.mpr ⟨part, hpart, hdefinition⟩)
      have hrenamed : ∀ part ∈ generated.map
          (List.map (Definition.rename (Primitives.renamed s.options.ns ns))),
          ∀ definition ∈ part, ∃ t, definition = .type t := by
        intro part hpart definition hdefinition
        obtain ⟨before, hbefore, rfl⟩ := List.mem_map.mp hpart
        obtain ⟨original, horiginal, rfl⟩ := List.mem_map.mp hdefinition
        obtain ⟨t, rfl⟩ := htypes before hbefore original horiginal
        exact ⟨_, rfl⟩
      have hfirst := assembleFrom_of_fragments hroots hns hgenerated hworking htypes
      have hfragments := fragments_rename hroots hwritten hns hgenerated hclear hother
      have hsecond := assembleFrom_of_fragments (s := s.within ns) hroots hother hfragments
        hworking hrenamed
      rw [← hbuilt, hfirst]
      refine (congrArg Except.toOption hsecond).trans (congrArg some ?_)
      have hmerged := mergeDefinitions_within hroots hwritten hns hgenerated hclear hapart
      rw [show mergedPolicies (s.within ns) = mergedPolicies s from rfl, hmerged, Assembled.rename,
        ← completeSchema_rename]
      rfl
  | error failure =>
      cases hsecond : Assembly.assembleFrom s.working s.roots (s.options.within ns) with
      | error other => rfl
      | ok assembled =>
          obtain ⟨hroots, -, generated, merged, hgenerated, -, -⟩ :=
            assembleFrom_eq_ok (s := s.within ns) hsecond
          have hwithin := fragments_within (s := s) hroots hwritten hns hother
          cases hfragments : Assembly.fragments
              (Assembly.rootBasis s.working s.options assembled.descriptors)
              assembled.descriptors with
          | error other =>
              rw [hfragments] at hwithin
              obtain ⟨other, hother⟩ := hwithin
              exact absurd (hgenerated.symm.trans hother) (by simp)
          | ok generated =>
              have hfirst := assembleFrom_of_fragments (s := s) hroots hns hfragments hworking
                fun part hpart definition hdefinition => eq_type_of_mem_flatten (s := s) hroots
                  hwritten hns hfragments (List.mem_flatten.mpr ⟨part, hpart, hdefinition⟩)
              exact absurd (hbuilt.symm.trans hfirst) (by simp)

/-- In two namespaces the same fragments make the same schema, up to the names of the primitives, or
none at all: if neither the working document nor the generated types are called like a primitive of
either, the document in the second namespace is that in the first, renamed, with the same
descriptors. The primitives of different namespaces have different names. -/
theorem assemble_within {sources : List Source} {roots : List String} {options : Options}
    {ns : String} (hgiven : ∀ d, .document d ∈ sources → d.Written)
    (hns : options.ns.toList.all isNameContinue) (hother : ns.toList.all isNameContinue)
    (hclear : ∀ working, Assembly.workingDocument options.reading sources = .ok working →
      ∀ name ∈ [options.ns, ns], (Sources.mk working options roots).Clear name) :
    (Assembly.assemble sources roots (options.within ns)).toOption =
        (Assembly.assemble sources roots options).toOption.map
          (Assembled.rename (Primitives.renamed options.ns ns)) ∧
      (options.ns ≠ ns → ∀ name ∈ Primitives.names options.ns, name ∉ Primitives.names ns) := by
  refine ⟨?_, fun hne name => Primitives.not_mem_names_of_ne hne⟩
  have hreading : (options.within ns).reading = options.reading := rfl
  rw [Assembly.assemble, Assembly.assemble, hreading]
  cases hload : Assembly.workingDocument options.reading sources with
  | error failure => rfl
  | ok working =>
      obtain ⟨documents, -, hmerge⟩ := bind_eq_ok.mp hload
      exact assembleFrom_within (s := ⟨working, options, roots⟩)
        (workingDocument_written hgiven hload) (Merge.named_of_mergeDocuments hmerge) hns hother
        (hclear working hload _ (by simp)) (hclear working hload _ (by simp))

/-- Widgets have the same schema in two namespaces. -/
theorem assemble_within_widgets :
    (∀ d, .document d ∈ [Source.document widgets.working] → d.Written) ∧
    widgets.options.ns ≠ "B" ∧ "DataSourcePageInfo" ∈ Primitives.names widgets.options.ns ∧
    (∀ working, Assembly.workingDocument widgets.options.reading
        [.document widgets.working] = .ok working →
      ∀ name ∈ [widgets.options.ns, "B"],
        (Sources.mk working widgets.options widgets.roots).Clear name) ∧
    (Assembly.assemble [.document widgets.working] widgets.roots
        (widgets.options.within "B")).toOption =
      some ⟨widgetDocument.rename (Primitives.renamed "" "B"), [widgetDescriptor]⟩ ∧
    "DataSourcePageInfo" ∉ Primitives.names "B" := by
  have hgiven : ∀ d, .document d ∈ [Source.document widgets.working] → d.Written := by
    intro d hd
    obtain rfl : d = widgets.working := by simpa using hd
    decide
  have hload : Assembly.workingDocument widgets.options.reading [.document widgets.working] =
      .ok widgets.working := rfl
  have hclear : ∀ working, Assembly.workingDocument widgets.options.reading
      [.document widgets.working] = .ok working → ∀ name ∈ [widgets.options.ns, "B"],
        (Sources.mk working widgets.options widgets.roots).Clear name := by
    intro working hworking name hname
    obtain rfl := Except.ok.inj (hload.symm.trans hworking)
    have hdeclared : ∀ name ∈ [widgets.options.ns, "B"], ∀ d ∈ widgets.working.definitions,
        ∀ other ∈ d.typeNames ++ d.rootTypes, other ∉ Primitives.names name := by
      decide
    have hgenerated : ∀ name ∈ [widgets.options.ns, "B"],
        ∀ d ∈ (widgetInputs ++ Fragment.outputTypes widgetBasis widgetDescriptor).map
          Definition.type, ∀ other ∈ d.name?, other ∉ Primitives.names name := by
      decide
    refine ⟨hdeclared name hname, fun descriptors generated hroots hfragments => ?_⟩
    obtain rfl := Except.ok.inj (widgets_described.symm.trans hroots)
    obtain rfl := Except.ok.inj (fragments_widgets.symm.trans hfragments)
    simpa using hgenerated name hname
  have hmember : "DataSourcePageInfo" ∈ Primitives.names widgets.options.ns := by decide
  obtain ⟨hsame, hapart⟩ := assemble_within hgiven (by decide) (by decide) hclear
  refine ⟨hgiven, by decide, hmember, hclear, ?_, hapart (by decide) _ hmember⟩
  rw [hsame, assemble_widgets]
  rfl

end RecordApi
