import RecordApi.Assembly
import RecordApi.Proofs.Derivation.Readable
import RecordApi.Proofs.Derivation.Traversal

/-!
# The run over all root types

The fragments of root types are derived one after another, and each adds the input types that the
earlier ones have not met. Together they hold what is reached from all roots.
-/

namespace RecordApi

open RecordApi.Language

variable {basis : Basis}

namespace Fragment

/-- The definitions of a fragment whose input types are those of the added pairs. -/
def ofPairs (basis : Basis) (d : Descriptor) (added : List InputPair) : List Definition :=
  (added.map basis.inputOf ++ outputTypes basis d).map .type ++ augmented basis d.typeName

/-- Both pairs of a root type. -/
def OfRoot (d : Descriptor) (p : InputPair) : Prop :=
  p.typeName = d.typeName

theorem nestedFields?_of_lookup {d : Descriptor}
    (h : basis.descriptors.lookup d.typeName = some d) :
    basis.nestedFields? d.typeName = some (basis.inputFields d) := by
  rw [Basis.nestedFields?, h]

/-- The derivation of both input types of a root type, one after the other. -/
theorem outcome_inputs {d : Descriptor} (h : basis.descriptors.lookup d.typeName = some d)
    (known : List String) :
    match (inputs basis d).outcome ⟨known, []⟩ with
    | (.ok _, after) => ∃ added, Stages basis known (pairsOf [d.typeName]) added ∧
        after = ⟨known ++ added.map InputPair.inputName, added.map basis.inputOf⟩
    | (.error failure, _) => Stuck basis (OfRoot d) failure := by
  have hallows : Derive.Allows basis (Derive.depth basis) [] :=
    ⟨.nil, by simp, by simp [Basis.knownNames, Derive.depth]⟩
  have hmode (mode : InputMode) : Derives basis [] (· = ⟨d.typeName, mode⟩)
      (Derive.input basis mode (Derive.depth basis) [] d.typeName (basis.inputFields d))
      (· = mode.inputName d.typeName) :=
    Derive.derives_input _ [] _ _ (nestedFields?_of_lookup h) hallows
  have hown (mode : InputMode) {failure : Failure}
      (hstuck : Stuck basis (· = ⟨d.typeName, mode⟩) failure) : Stuck basis (OfRoot d) failure :=
    hstuck.mono fun p hp => by rw [hp, OfRoot]
  have hcreate := hmode .create ⟨known, []⟩
  unfold inputs
  simp only [Derive.outcome_bind, Derive.outcome_pure]
  rcases hfirst : (Derive.input basis .create (Derive.depth basis) [] d.typeName
    (basis.inputFields d)).outcome ⟨known, []⟩ with ⟨failure | _, middle⟩
  · rw [hfirst] at hcreate
    exact hown .create hcreate
  · rw [hfirst] at hcreate
    obtain ⟨-, created, hcreated⟩ := hcreate
    have hupdate := hmode .update middle
    dsimp only
    rcases hsecond : (Derive.input basis .update (Derive.depth basis) [] d.typeName
      (basis.inputFields d)).outcome middle with ⟨failure | _, after⟩
    · rw [hsecond] at hupdate
      exact hown .update hupdate
    · rw [hsecond] at hupdate
      obtain ⟨-, updated, hupdated⟩ := hupdate
      have hstage := hupdated.rebase []
      rw [hcreated.names] at hstage
      refine ⟨created ++ (updated ++ []), .cons hcreated (.cons hstage .nil), ?_⟩
      have hnames : after.names = _ := hupdated.names
      have hinputs : after.inputs = _ := hupdated.inputs
      rw [hcreated.names] at hnames
      rw [hcreated.inputs] at hinputs
      obtain ⟨names, inputs⟩ := after
      obtain rfl : names = _ := hnames
      obtain rfl : inputs = _ := hinputs
      simp

theorem isSome_of_reaches {d : Descriptor} {p : InputPair}
    (h : basis.descriptors.lookup d.typeName = some d) (hp : basis.Reaches (OfRoot d) p) :
    (basis.nestedFields? p.typeName).isSome := by
  refine Basis.nestedFields?_isSome_of_reaches (fun s hs => ?_) hp
  rw [show s.typeName = d.typeName from hs, nestedFields?_of_lookup h]
  rfl

theorem bare_added {d : Descriptor} (hplain : basis.Plain)
    (hlookup : basis.descriptors.lookup d.typeName = some d) {known : List String}
    {added : List InputPair} (hstages : Stages basis known (pairsOf [d.typeName]) added) :
    ∀ t ∈ added.map basis.inputOf, t.Bare := by
  intro t ht
  obtain ⟨p, hp, rfl⟩ := List.mem_map.mp ht
  have hreached := (hstages.grown.reached p hp).reaches
  apply bare_inputOf hplain
  apply isSome_of_reaches hlookup
  exact hreached.mono fun q hq => by simpa [OfRoot] using mem_pairsOf.mp hq

/-- The fragment of one root type. -/
theorem generate_spec {d : Descriptor} (hplain : basis.Plain) (hd : d.Plain)
    (hlookup : basis.descriptors.lookup d.typeName = some d) (known : List String) :
    match generate basis d known with
    | (.ok definitions, names) => isName (Naming.lowerCamel d.typeName).toList ∧
        ∃ added, Stages basis known (pairsOf [d.typeName]) added ∧
          names = known ++ added.map InputPair.inputName ∧ definitions = ofPairs basis d added
    | (.error failure, _) => Stuck basis (OfRoot d) failure ∨
        (∃ fault, failure = .misread fault) ∧
          (isName (Naming.lowerCamel d.typeName).toList →
            basis.options.reading.mostTokens ≠ none) := by
  have hrun := outcome_inputs hlookup known
  unfold generate
  rw [show (inputs basis d).run ⟨known, []⟩ = (inputs basis d).outcome ⟨known, []⟩ from rfl]
  rcases houtcome : (inputs basis d).outcome ⟨known, []⟩ with ⟨failure | ⟨⟩, after⟩
  · rw [houtcome] at hrun
    exact .inl hrun
  · rw [houtcome] at hrun
    obtain ⟨added, hstages, rfl⟩ := hrun
    have hbare := bare_added hplain hlookup hstages
    have hread := reread_eq hplain hd hbare basis.options.reading
    dsimp only
    cases hdefinitions : reread basis.options.reading
        (added.map basis.inputOf ++ outputTypes basis d) with
    | error failure =>
        rw [hdefinitions] at hread
        exact .inr hread
    | ok definitions =>
        rw [hdefinitions] at hread
        obtain ⟨hfield, rfl⟩ := hread
        exact ⟨hfield, added, hstages, rfl, rfl⟩

/-- The pairs of all root types. -/
def OfRoots (ds : List Descriptor) (p : InputPair) : Prop :=
  ∃ d ∈ ds, OfRoot d p

theorem mem_pairsOf_typeNames {ds : List Descriptor} {p : InputPair} :
    p ∈ pairsOf (ds.map (·.typeName)) ↔ OfRoots ds p := by
  rw [mem_pairsOf, List.mem_map]
  constructor
  · rintro ⟨d, hd, hname⟩
    exact ⟨d, hd, hname.symm⟩
  · rintro ⟨d, hd, hname⟩
    exact ⟨d, hd, hname.symm⟩

/-- The derivations of all root types in turn are one derivation from the pairs of all. -/
theorem grown_of_stages {ds : List Descriptor} {known : List String} {added : List InputPair}
    (h : Stages basis known (pairsOf (ds.map (·.typeName))) added) :
    Grown basis [] (OfRoots ds) ⟨known, []⟩ added
      ⟨known ++ added.map InputPair.inputName, added.map basis.inputOf⟩ :=
  h.grown.congr fun _ => mem_pairsOf_typeNames

/-- The fragments of all root types. -/
theorem generateEach_spec {ds : List Descriptor} (hplain : basis.Plain)
    (hds : ∀ d ∈ ds, d.Plain ∧ basis.descriptors.lookup d.typeName = some d)
    (known : List String) :
    match (generateEach basis ds known).mapM id with
    | .ok generated => (∀ d ∈ ds, isName (Naming.lowerCamel d.typeName).toList) ∧
        ∃ parts, parts.length = ds.length ∧
          generated = List.zipWith (ofPairs basis) ds parts ∧
          Stages basis known (pairsOf (ds.map (·.typeName))) parts.flatten
    | .error failure => Stuck basis (OfRoots ds) failure ∨
        (∃ fault, failure = .misread fault) ∧
          ((∀ d ∈ ds, isName (Naming.lowerCamel d.typeName).toList) →
            basis.options.reading.mostTokens ≠ none) := by
  induction ds generalizing known with
  | nil => exact ⟨by simp, [], rfl, rfl, .nil⟩
  | cons d rest ih =>
      obtain ⟨hd, hlookup⟩ := hds d List.mem_cons_self
      have hfirst := generate_spec hplain hd hlookup known
      rw [generateEach]
      rcases hgenerate : generate basis d known with ⟨failure | definitions, names⟩
      · rw [hgenerate] at hfirst
        rw [List.mapM_cons]
        rcases hfirst with hstuck | ⟨hmisread, hlimit⟩
        · exact .inl (hstuck.mono fun p hp => ⟨d, List.mem_cons_self, hp⟩)
        · exact .inr ⟨hmisread, fun h => hlimit (h d List.mem_cons_self)⟩
      · rw [hgenerate] at hfirst
        obtain ⟨hfield, added, hstages, rfl, rfl⟩ := hfirst
        have hmore := ih (fun e he => hds e (List.mem_cons_of_mem d he))
          (known ++ added.map InputPair.inputName)
        rw [List.mapM_cons]
        simp only [id_eq, bind, Except.bind]
        cases hrest : (generateEach basis rest
            (known ++ added.map InputPair.inputName)).mapM id with
        | error failure =>
            rw [hrest] at hmore
            rcases hmore with hstuck | ⟨hmisread, hlimit⟩
            · exact .inl (hstuck.mono fun p ⟨e, he, hp⟩ => ⟨e, List.mem_cons_of_mem d he, hp⟩)
            · exact .inr ⟨hmisread, fun h => hlimit fun e he => h e (List.mem_cons_of_mem d he)⟩
        | ok generated =>
            rw [hrest] at hmore
            obtain ⟨hfields, parts, hlength, rfl, hstages'⟩ := hmore
            refine ⟨by simpa using ⟨hfield, hfields⟩, added :: parts, by simp [hlength], rfl, ?_⟩
            have hboth := hstages.append hstages'
            rwa [← List.flatten_cons] at hboth

/-! ## Fragments without input types -/

/-- The types behind the input types of a fragment are read back on their own as well. -/
theorem reread_of_generate {d : Descriptor} (hplain : basis.Plain) (hd : d.Plain)
    (hlookup : basis.descriptors.lookup d.typeName = some d) {known names : List String}
    {definitions : List Definition} (h : generate basis d known = (.ok definitions, names)) :
    reread basis.options.reading (outputTypes basis d) = .ok ((outputTypes basis d).map .type) := by
  have hrun := outcome_inputs hlookup known
  unfold generate at h
  rw [show (inputs basis d).run ⟨known, []⟩ = (inputs basis d).outcome ⟨known, []⟩ from rfl] at h
  rcases houtcome : (inputs basis d).outcome ⟨known, []⟩ with ⟨failure | ⟨⟩, after⟩
  · rw [houtcome] at h
    cases (Prod.mk.inj h).1
  · rw [houtcome] at hrun h
    obtain ⟨added, hstages, rfl⟩ := hrun
    obtain ⟨generated, hread, -⟩ := bind_eq_ok.mp (Prod.mk.inj h).1
    exact reread_of_append hplain hd (bare_added hplain hlookup hstages) hread

theorem reread_of_generateEach {ds : List Descriptor} (hplain : basis.Plain)
    (hds : ∀ d ∈ ds, d.Plain ∧ basis.descriptors.lookup d.typeName = some d) {known : List String}
    {generated : List (List Definition)}
    (h : (generateEach basis ds known).mapM id = .ok generated) :
    ∀ d ∈ ds,
      reread basis.options.reading (outputTypes basis d) =
        .ok ((outputTypes basis d).map .type) := by
  induction ds generalizing known generated with
  | nil => simp
  | cons d rest ih =>
      obtain ⟨⟨hd, hlookup⟩, hrest⟩ := List.forall_mem_cons.mp hds
      rw [generateEach] at h
      rcases hgenerate : generate basis d known with ⟨outcome, names⟩
      rw [hgenerate, List.mapM_cons] at h
      obtain ⟨definitions, houtcome, h⟩ := bind_eq_ok.mp h
      obtain ⟨more, hmore, -⟩ := bind_eq_ok.mp h
      obtain rfl : outcome = .ok definitions := houtcome
      exact List.forall_mem_cons.mpr
        ⟨reread_of_generate hplain hd hlookup hgenerate, ih hrest hmore⟩

/-- A fragment whose input types are declared holds no others. -/
theorem generate_of_declared {d : Descriptor}
    (hdeclared : ∀ mode : InputMode, mode.inputName d.typeName ∈ basis.declared)
    (hread : reread basis.options.reading (outputTypes basis d) =
      .ok ((outputTypes basis d).map .type)) (known : List String) :
    generate basis d known =
      (.ok ((outputTypes basis d).map .type ++ augmented basis d.typeName), known) := by
  have hinput (mode : InputMode) (bound : Nat) : Derive.input basis mode bound [] d.typeName
      (basis.inputFields d) = return mode.inputName d.typeName := by
    unfold Derive.input
    rw [if_pos (List.contains_iff_mem.mpr (hdeclared mode))]
  have hinputs : (inputs basis d).run ⟨known, []⟩ = (.ok (), ⟨known, []⟩) := by
    unfold inputs
    simp only [hinput]
    rfl
  simp only [generate, hinputs, List.nil_append, hread]
  rfl

theorem generateEach_of_declared {ds : List Descriptor}
    (hdeclared : ∀ d ∈ ds, ∀ mode : InputMode, mode.inputName d.typeName ∈ basis.declared)
    (hread : ∀ d ∈ ds, reread basis.options.reading (outputTypes basis d) =
      .ok ((outputTypes basis d).map .type)) (known : List String) :
    (generateEach basis ds known).mapM id =
      .ok (ds.map fun d => (outputTypes basis d).map .type ++ augmented basis d.typeName) := by
  induction ds with
  | nil => rfl
  | cons d rest ih =>
      obtain ⟨hd, hrest⟩ := List.forall_mem_cons.mp hdeclared
      obtain ⟨hfirst, hmore⟩ := List.forall_mem_cons.mp hread
      rw [generateEach, generate_of_declared hd hfirst, List.mapM_cons, ih hrest hmore]
      rfl

/-- The first fragment, from what its input types come to. -/
theorem generateEach_cons_of_inputs {d : Descriptor} (hplain : basis.Plain) (hd : d.Plain)
    (hlimit : basis.options.reading.mostTokens = none)
    (hfield : isName (Naming.lowerCamel d.typeName).toList) {known names : List String}
    {types : List TypeDef} (hinputs : (inputs basis d).run ⟨known, []⟩ = (.ok (), ⟨names, types⟩))
    (hbare : ∀ t ∈ types, t.Bare) (rest : List Descriptor) :
    (generateEach basis (d :: rest) known).mapM id =
      ((generateEach basis rest names).mapM id).map
        (((types ++ outputTypes basis d).map .type ++ augmented basis d.typeName) :: ·) := by
  have hgenerate : generate basis d known =
      (.ok ((types ++ outputTypes basis d).map .type ++ augmented basis d.typeName), names) := by
    have hread := reread_eq hplain hd hbare basis.options.reading
    cases hreread : reread basis.options.reading (types ++ outputTypes basis d) with
    | error failure =>
        rw [hreread] at hread
        exact absurd hlimit (hread.2 hfield)
    | ok definitions =>
        rw [hreread] at hread
        obtain ⟨-, rfl⟩ := hread
        simp only [generate, hinputs, hreread]
        rfl
  rw [generateEach, hgenerate, List.mapM_cons]
  cases (generateEach basis rest names).mapM id <;> rfl

/-- The derivations of root types in turn: each begins with the input types that are known after the
one before it, and adds those of some pairs. -/
inductive Derivations (basis : Basis) :
    List Descriptor → List String → List (List InputPair) → Prop where
  | nil (known : List String) : Derivations basis [] known []
  | cons {d : Descriptor} {rest : List Descriptor} {known names : List String}
      {added : List InputPair} {parts : List (List InputPair)}
      (hfield : isName (Naming.lowerCamel d.typeName).toList)
      (hinputs : (inputs basis d).run ⟨known, []⟩ = (.ok (), ⟨names, added.map basis.inputOf⟩))
      (hnested : ∀ p ∈ added, (basis.nestedFields? p.typeName).isSome)
      (hrest : Derivations basis rest names parts) :
      Derivations basis (d :: rest) known (added :: parts)

/-- The fragments of root types, from what their derivations add. -/
theorem generateEach_of_derivations {ds : List Descriptor} (hplain : basis.Plain)
    (hds : ∀ d ∈ ds, d.Plain) (hlimit : basis.options.reading.mostTokens = none)
    {known : List String} {parts : List (List InputPair)} (h : Derivations basis ds known parts) :
    (generateEach basis ds known).mapM id = .ok (List.zipWith (ofPairs basis) ds parts) := by
  induction h with
  | nil => rfl
  | @cons d rest _ _ added _ hfield hinputs hnested _ ih =>
      obtain ⟨hd, hrest⟩ := List.forall_mem_cons.mp hds
      have hbare : ∀ t ∈ added.map basis.inputOf, t.Bare := by
        intro t ht
        obtain ⟨p, hp, rfl⟩ := List.mem_map.mp ht
        exact bare_inputOf hplain (hnested p hp)
      rw [generateEach_cons_of_inputs hplain hd hlimit hfield hinputs hbare, ih hrest]
      rfl

end Fragment

end RecordApi
