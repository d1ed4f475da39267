import RecordApi.Proofs.Derivation.Assembled

/-!
# Failures of an assembly

What is wrong with fragments and root types is told as a failure of its own kind. The text of a
generated fragment is written and read back, and the names of the primitives are put together, so an
assembly can also fail where nothing is wrong with what it has been given. With a namespace of name
characters this happens just if the text of a fragment has a bad name for its entry points, or more
tokens than may be read.
-/

namespace RecordApi

open RecordApi.Language

/-- Whether a failure tells what is wrong with a fragment, a schema, a root type or a record. The
other failures are of something that lies below. -/
def Failure.isOwn : Failure → Bool
  | notADocument _ | unreadable _ | unreadableFile _ _ | notAnObject _ | emptyInput _ _
  | invalidSchema _ | identifier _ | noRecord _ _ | unnamed _ => true
  | _ => false

/-! ## Names of entry points -/

namespace Naming

/-- Whether the first letter or digit of a name is a letter. -/
def opensWithLetter (name : String) : Bool :=
  (name.toList.find? isWordChar).any isNameStart

theorem head?_pieces (sep : Char → Bool) (cs : List Char) :
    (pieces sep cs).head?.bind List.head? = cs.find? fun c => !sep c := by
  induction cs with
  | nil => rfl
  | cons c rest ih =>
      by_cases hsep : sep c
      · have hskip : pieces sep (c :: rest) = pieces sep rest := by
          simp [pieces, cut, hsep]
        rw [hskip, ih, List.find?_cons_of_neg (by simpa using hsep)]
      · rw [List.find?_cons_of_pos (by simpa using hsep)]
        simp [pieces, cut, hsep]

theorem head?_lowerLead (c : Char) (cs : List Char) :
    (lowerLead (c :: cs)).head? = some c ∨ (lowerLead (c :: cs)).head? = some c.toLower := by
  obtain ⟨kept, hkept⟩ : ∃ kept, lowerLead (c :: cs) =
      ((c :: cs).take kept).map Char.toLower ++ (c :: cs).drop kept := ⟨_, rfl⟩
  rw [hkept]
  cases kept <;> simp

theorem isNameStart_toLower {c : Char} (h : isWordChar c) :
    isNameStart c.toLower = isNameStart c := by
  have hall : ∀ n : Fin 128, isWordChar (Char.ofNat n) →
      isNameStart (Char.ofNat n).toLower = isNameStart (Char.ofNat n) := by
    decide +kernel
  simpa using hall ⟨c.toNat, bounds_of_isWordChar h⟩ (by simpa using h)

theorem isName_iff_head? {cs : List Char} (h : cs.all isNameContinue) :
    isName cs ↔ cs.head?.any isNameStart := by
  cases cs with
  | nil => simp [isName]
  | cons c rest =>
      have hrest : rest.all isNameContinue := (Bool.and_eq_true_iff.mp h).2
      simp [isName, hrest]

/-- Entry points have a name just if the first letter or digit of the root type is a letter. -/
theorem isName_lowerCamel (name : String) :
    isName (lowerCamel name).toList ↔ opensWithLetter name := by
  have hhead := head?_pieces (fun c => !isWordChar c) name.toList
  simp only [Bool.not_not] at hhead
  rw [isName_iff_head? (all_lowerCamel name), opensWithLetter, ← hhead, lowerCamel,
    String.toList_ofList, lowerCamelChars]
  cases hpieces : pieces (fun c => !isWordChar c) name.toList with
  | nil => simp
  | cons first rest =>
      obtain ⟨hne, hword⟩ := pieces_plain (fun c => !isWordChar c) name.toList first
        (hpieces ▸ List.mem_cons_self)
      obtain ⟨c, cs, rfl⟩ := List.exists_cons_of_ne_nil hne
      have hc : isWordChar c := by simpa using hword c List.mem_cons_self
      rcases head?_lowerLead c cs with hfirst | hfirst
      · simp [hfirst]
      · simp [hfirst, isNameStart_toLower hc]

end Naming

/-! ## Failures of single steps -/

theorem map_eq_error {ε α β : Type} {x : Except ε α} {f : α → β} {e : ε} :
    x.map f = .error e ↔ x = .error e := by
  cases x <;> simp [Except.map]

/-- Of outcomes in a row the first failure counts. -/
theorem mapM_id_cons_eq_error {ε α : Type} {x : Except ε α} {xs : List (Except ε α)} {e : ε} :
    (x :: xs).mapM id = .error e ↔ x = .error e ∨ (∃ a, x = .ok a) ∧ xs.mapM id = .error e := by
  rw [List.mapM_cons, bind_eq_error]
  refine or_congr_right ⟨?_, ?_⟩
  · rintro ⟨a, rfl, h⟩
    rcases bind_eq_error.mp h with h | ⟨_, -, hpure⟩
    · exact ⟨⟨a, rfl⟩, h⟩
    · cases hpure
  · rintro ⟨⟨a, rfl⟩, h⟩
    exact ⟨a, rfl, bind_eq_error.mpr (.inl h)⟩

theorem Source.isOwn_of_load {reading : ReadOptions} {source : Source} {failure : Failure}
    (h : source.load reading = .error failure) : failure.isOwn := by
  unfold Source.load at h
  split at h
  · cases h
  · cases h
    rfl
  · split at h
    · cases h
    · cases h
      rfl

theorem Merge.isOwn_of_mergeDocuments {table : PolicyTable} {documents : List Document}
    {failure : Failure} (h : mergeDocuments table documents = .error failure) :
    failure.isOwn := by
  unfold mergeDocuments at h
  dsimp only at h
  split at h
  · cases h
    rfl
  · cases h

theorem Assembly.isOwn_of_workingDocument {reading : ReadOptions} {sources : List Source}
    {failure : Failure} (h : workingDocument reading sources = .error failure) :
    failure.isOwn := by
  rcases bind_eq_error.mp h with hload | ⟨documents, -, hmerge⟩
  · obtain ⟨source, -, hsource⟩ := exists_of_mapM_eq_error hload
    exact Source.isOwn_of_load hsource
  · exact Merge.isOwn_of_mergeDocuments hmerge

theorem Assembly.isOwn_of_describeRoot {working : Document} {selector : Option IdSelector}
    {name : String} {failure : Failure} (h : describeRoot working selector name = .error failure) :
    failure.isOwn := by
  unfold describeRoot at h
  split at h
  · cases h
    rfl
  · split at h
    · cases h
    · cases h
      rfl

theorem Stuck.isOwn {basis : Basis} {starts : InputPair → Prop} {failure : Failure}
    (h : Stuck basis starts failure) : failure.isOwn := by
  obtain ⟨p, -, -, -, rfl⟩ := h
  rfl

/-! ## Fragments -/

namespace Fragment

variable {basis : Basis} {d : Descriptor} {ds : List Descriptor}

/-- Whether the text of a fragment with the given input types can be read: its entry points have a
name, and it has no more tokens than may be read. -/
def Legible (basis : Basis) (d : Descriptor) (inputs : List TypeDef) : Prop :=
  isName (Naming.lowerCamel d.typeName).toList ∧
    ∀ n, basis.options.reading.mostTokens = some n →
      Reader.counted ((inputs ++ outputTypes basis d).flatMap TypeDef.lexemes) ≤ n.toNat

/-- Whether the text of one fragment cannot be read though its input types can be derived, while all
fragments before it are there. -/
inductive Illegible (basis : Basis) : List Descriptor → List String → Prop
  | here {d : Descriptor} {rest : List Descriptor} {known : List String} {derived : Derived} :
      (inputs basis d).outcome ⟨known, []⟩ = (.ok (), derived) →
      ¬ Legible basis d derived.inputs → Illegible basis (d :: rest) known
  | later {d : Descriptor} {rest : List Descriptor} {known : List String} {derived : Derived} :
      (inputs basis d).outcome ⟨known, []⟩ = (.ok (), derived) →
      Legible basis d derived.inputs → Illegible basis rest derived.names →
      Illegible basis (d :: rest) known

theorem illegible_cons {known : List String} :
    Illegible basis (d :: ds) known ↔
      ∃ derived, (inputs basis d).outcome ⟨known, []⟩ = (.ok (), derived) ∧
        (¬ Legible basis d derived.inputs ∨
          Legible basis d derived.inputs ∧ Illegible basis ds derived.names) := by
  constructor
  · intro h
    cases h with
    | here hok hbad => exact ⟨_, hok, .inl hbad⟩
    | later hok hgood hmore => exact ⟨_, hok, .inr ⟨hgood, hmore⟩⟩
  · rintro ⟨derived, hok, hbad | ⟨hgood, hmore⟩⟩
    · exact .here hok hbad
    · exact .later hok hgood hmore

/-- Texts can be read if all entry points have names and any number of tokens may be read. -/
theorem not_illegible (hnames : ∀ d ∈ ds, isName (Naming.lowerCamel d.typeName).toList)
    (hlimit : basis.options.reading.mostTokens = none) (known : List String) :
    ¬ Illegible basis ds known := by
  intro h
  induction h with
  | here _ hbad =>
      refine hbad ⟨hnames _ List.mem_cons_self, fun n hn => ?_⟩
      rw [hlimit] at hn
      cases hn
  | later _ _ _ ih => exact ih fun d hd => hnames d (List.mem_cons_of_mem _ hd)

theorem exists_misread_of_reread {reading : ReadOptions} {types : List TypeDef}
    {failure : Failure} (h : reread reading types = .error failure) :
    ∃ fault, failure = .misread fault := by
  unfold reread at h
  split at h
  · cases h
  · cases h
    exact ⟨_, rfl⟩

/-- What the fragment of one root type comes to, from what its input types come to. -/
theorem generate_of_outcome {known : List String} {derived : Derived}
    (h : (inputs basis d).outcome ⟨known, []⟩ = (.ok (), derived)) :
    generate basis d known =
      ((reread basis.options.reading (derived.inputs ++ outputTypes basis d)).map
        (· ++ augmented basis d.typeName), derived.names) := by
  unfold generate
  rw [show (inputs basis d).run ⟨known, []⟩ = (inputs basis d).outcome ⟨known, []⟩ from rfl, h]
  dsimp only
  cases reread basis.options.reading (derived.inputs ++ outputTypes basis d) <;> rfl

theorem generate_of_stuck {known : List String} {failure : Failure} {derived : Derived}
    (h : (inputs basis d).outcome ⟨known, []⟩ = (.error failure, derived)) :
    generate basis d known = (.error failure, derived.names) := by
  unfold generate
  rw [show (inputs basis d).run ⟨known, []⟩ = (inputs basis d).outcome ⟨known, []⟩ from rfl, h]

/-- Fragments fail at a starved pair or at a text that cannot be read, whatever the names. -/
theorem generateEach_eq_error (hlookup : ∀ d ∈ ds, basis.descriptors.lookup d.typeName = some d)
    {known : List String} {failure : Failure}
    (h : (generateEach basis ds known).mapM id = .error failure) :
    Stuck basis (OfRoots ds) failure ∨ ∃ fault, failure = .misread fault := by
  induction ds generalizing known with
  | nil => cases h
  | cons d rest ih =>
      obtain ⟨hd, hrest⟩ := List.forall_mem_cons.mp hlookup
      rw [generateEach, mapM_id_cons_eq_error] at h
      rcases h with hfirst | ⟨-, hlater⟩
      · have hrun := outcome_inputs hd known
        rcases houtcome : (inputs basis d).outcome ⟨known, []⟩ with ⟨stuck | ⟨⟩, derived⟩
        · rw [houtcome] at hrun
          rw [generate_of_stuck houtcome] at hfirst
          obtain rfl := Except.error.inj hfirst
          exact .inl (hrun.mono fun q hq => ⟨d, List.mem_cons_self, hq⟩)
        · rw [generate_of_outcome houtcome] at hfirst
          exact .inr (exists_misread_of_reread (map_eq_error.mp hfirst))
      · refine (ih hrest hlater).imp_left fun hstuck => hstuck.mono ?_
        rintro q ⟨e, he, hq⟩
        exact ⟨e, List.mem_cons_of_mem d he, hq⟩

/-- The text of a fragment is read back just if it is legible. -/
theorem exists_reread_iff {inputs : List TypeDef} (hplain : basis.Plain) (hd : d.Plain)
    (hinputs : ∀ t ∈ inputs, t.Bare) :
    (∃ definitions, reread basis.options.reading (inputs ++ outputTypes basis d) =
      .ok definitions) ↔ Legible basis d inputs := by
  constructor
  · rintro ⟨definitions, hread⟩
    obtain ⟨hname, hlimit, -⟩ := (reread_eq_ok hplain hd hinputs).mp hread
    exact ⟨hname, hlimit⟩
  · rintro ⟨hname, hlimit⟩
    exact ⟨_, (reread_eq_ok hplain hd hinputs).mpr ⟨hname, hlimit, rfl⟩⟩

/-- What one fragment comes to: it is stuck, or there if it is legible, or else misread. -/
theorem generate_cases (hplain : basis.Plain) (hd : d.Plain)
    (hlookup : basis.descriptors.lookup d.typeName = some d) (known : List String) :
    match (inputs basis d).outcome ⟨known, []⟩ with
    | (.error failure, derived) =>
        failure.isOwn ∧ generate basis d known = (.error failure, derived.names)
    | (.ok (), derived) =>
        (Legible basis d derived.inputs ∧
          ∃ definitions, generate basis d known = (.ok definitions, derived.names)) ∨
        (¬ Legible basis d derived.inputs ∧
          ∃ fault, generate basis d known = (.error (.misread fault), derived.names)) := by
  have hrun := outcome_inputs hlookup known
  rcases houtcome : (inputs basis d).outcome ⟨known, []⟩ with ⟨failure | ⟨⟩, derived⟩
  · rw [houtcome] at hrun
    exact ⟨hrun.isOwn, generate_of_stuck houtcome⟩
  · rw [houtcome] at hrun
    obtain ⟨added, hstages, rfl⟩ := hrun
    have hlegible := exists_reread_iff hplain hd (bare_added hplain hlookup hstages)
    rw [generate_of_outcome houtcome]
    dsimp only
    cases hread : reread basis.options.reading
        (added.map basis.inputOf ++ outputTypes basis d) with
    | error failure =>
        obtain ⟨fault, rfl⟩ := exists_misread_of_reread hread
        refine .inr ⟨?_, fault, rfl⟩
        rw [← hlegible, hread]
        rintro ⟨_, ⟨⟩⟩
    | ok definitions => exact .inl ⟨hlegible.mp ⟨definitions, hread⟩, _, rfl⟩

/-- Fragments fail at a text just if one is not legible. -/
theorem generateEach_misread_iff (hplain : basis.Plain)
    (hds : ∀ d ∈ ds, d.Plain ∧ basis.descriptors.lookup d.typeName = some d)
    {known : List String} :
    (∃ fault, (generateEach basis ds known).mapM id = .error (.misread fault)) ↔
      Illegible basis ds known := by
  induction ds generalizing known with
  | nil =>
      constructor
      · rintro ⟨fault, h⟩
        cases h
      · intro h
        cases h
  | cons d rest ih =>
      obtain ⟨⟨hd, hlookup⟩, hrest⟩ := List.forall_mem_cons.mp hds
      have hfirst := generate_cases hplain hd hlookup known
      simp only [generateEach, mapM_id_cons_eq_error]
      rw [illegible_cons]
      rcases houtcome : (inputs basis d).outcome ⟨known, []⟩ with ⟨failure | ⟨⟩, derived⟩
      · rw [houtcome] at hfirst
        obtain ⟨hown, hgenerate⟩ := hfirst
        have hne (fault : ReadFault) : failure ≠ .misread fault := by
          rintro rfl
          cases hown
        simp [hgenerate, hne]
      · rw [houtcome] at hfirst
        rcases hfirst with ⟨hgood, definitions, hgenerate⟩ | ⟨hbad, fault, hgenerate⟩
        · simp [hgenerate, hgood, ih hrest]
        · simp [hgenerate, hbad]

end Fragment

/-! ## Failures of an assembly -/

namespace Assembly

variable {sources : List Source} {roots : List String} {options : Options}

/-- Whether fragments make up a working document in which all root types are described. -/
structure Begins (sources : List Source) (roots : List String) (options : Options)
    (working : Document) (descriptors : List Descriptor) : Prop where
  load : workingDocument options.reading sources = .ok working
  roots : roots.eraseDups.mapM (describeRoot working options.selector) = .ok descriptors

theorem begins_of_not_isOwn {failure : Failure}
    (h : assemble sources roots options = .error failure) (hother : ¬ failure.isOwn) :
    ∃ working descriptors, Begins sources roots options working descriptors := by
  rcases bind_eq_error.mp h with hload | ⟨working, hload, h⟩
  · exact absurd (isOwn_of_workingDocument hload) hother
  · rcases bind_eq_error.mp h with hroots | ⟨descriptors, hroots, -⟩
    · obtain ⟨name, -, hname⟩ := exists_of_mapM_eq_error hroots
      exact absurd (isOwn_of_describeRoot hname) hother
    · exact ⟨working, descriptors, hload, hroots⟩

variable {working : Document} {descriptors : List Descriptor}
  (hbegins : Begins sources roots options working descriptors)

include hbegins

/-- An assembly that begins fails at a fragment or at the primitives or else as its own. -/
theorem eq_error_of_begins {failure : Failure}
    (h : assemble sources roots options = .error failure) :
    fragments (rootBasis working options descriptors) descriptors = .error failure ∨
      failure = .invalidName (Primitives.filterOperation options.ns) ∧
        options.ns.toList.all isNameContinue = false ∨
      failure.isOwn := by
  rcases bind_eq_error.mp h with hload | ⟨other, hload, h⟩
  · rw [hbegins.load] at hload
    cases hload
  · obtain rfl : working = other := Except.ok.inj (hbegins.load.symm.trans hload)
    rcases bind_eq_error.mp h with hroots | ⟨others, hroots, h⟩
    · rw [hbegins.roots] at hroots
      cases hroots
    · obtain rfl : descriptors = others := Except.ok.inj (hbegins.roots.symm.trans hroots)
      rcases bind_eq_error.mp h with hfragments | ⟨generated, -, h⟩
      · exact .inl hfragments
      · rcases bind_eq_error.mp h with hprimitives | ⟨primitives, -, h⟩
        · unfold Primitives.document at hprimitives
          split at hprimitives
          · cases hprimitives
          · next hns => exact .inr (.inl ⟨(Except.error.inj hprimitives).symm, by simpa using hns⟩)
        · rcases bind_eq_error.mp h with hmerge | ⟨merged, -, hpure⟩
          · exact .inr (.inr (Merge.isOwn_of_mergeDocuments hmerge))
          · cases hpure

theorem eq_error_of_fragments {failure : Failure}
    (h : fragments (rootBasis working options descriptors) descriptors = .error failure) :
    assemble sources roots options = .error failure :=
  bind_eq_error.mpr (.inr ⟨working, hbegins.load, bind_eq_error.mpr
    (.inr ⟨descriptors, hbegins.roots, bind_eq_error.mpr (.inl h)⟩)⟩)

theorem eq_error_of_ns {generated : List (List Definition)}
    (h : fragments (rootBasis working options descriptors) descriptors = .ok generated)
    (hns : options.ns.toList.all isNameContinue = false) :
    assemble sources roots options =
      .error (.invalidName (Primitives.filterOperation options.ns)) := by
  have hprimitives : Primitives.document options.ns =
      .error (.invalidName (Primitives.filterOperation options.ns)) := by
    rw [Primitives.document, if_neg (by simp [hns])]
  exact bind_eq_error.mpr (.inr ⟨working, hbegins.load, bind_eq_error.mpr
    (.inr ⟨descriptors, hbegins.roots, bind_eq_error.mpr
      (.inr ⟨generated, h, bind_eq_error.mpr (.inl hprimitives)⟩)⟩)⟩)

theorem lookup_rootBasis {d : Descriptor} (hd : d ∈ descriptors) :
    (rootBasis working options descriptors).descriptors.lookup d.typeName = some d :=
  (lookup_descriptors (s := ⟨working, options, roots⟩) hbegins.roots).mpr ⟨hd, rfl⟩

/-- Of an assembly that begins a failure is its own, or the text of a fragment is misread, or the
namespace is none. -/
theorem failure_cases {failure : Failure}
    (h : assemble sources roots options = .error failure) :
    failure.isOwn ∨ (∃ fault, failure = .misread fault ∧
        fragments (rootBasis working options descriptors) descriptors = .error failure) ∨
      failure = .invalidName (Primitives.filterOperation options.ns) ∧
        options.ns.toList.all isNameContinue = false := by
  rcases eq_error_of_begins hbegins h with hfragments | hprimitives | hown
  · rcases Fragment.generateEach_eq_error (fun d hd => lookup_rootBasis hbegins hd) hfragments with
      hstuck | ⟨fault, rfl⟩
    · exact .inl hstuck.isOwn
    · exact .inr (.inl ⟨fault, rfl, hfragments⟩)
  · exact .inr (.inr hprimitives)
  · exact .inl hown

/-- The fragments of an assembly are misread just if the text of one is not legible. -/
theorem misread_iff (hgiven : ∀ d, .document d ∈ sources → d.Written)
    (hns : options.ns.toList.all isNameContinue) :
    (∃ fault, fragments (rootBasis working options descriptors) descriptors =
        .error (.misread fault)) ↔
      Fragment.Illegible (rootBasis working options descriptors) descriptors [] := by
  have hwritten := workingDocument_written hgiven hbegins.load
  have hplain := plain_rootBasis (s := ⟨working, options, roots⟩) hbegins.roots hwritten hns
  refine Fragment.generateEach_misread_iff hplain fun d hd => ⟨?_, lookup_rootBasis hbegins hd⟩
  exact plain_descriptors (s := ⟨working, options, roots⟩) hbegins.roots hwritten hd

/-- With a namespace that is none, an assembly that begins and can derive all input types fails as
something else. -/
theorem not_isOwn_of_ns (hns : options.ns.toList.all isNameContinue = false)
    (hfree : ∀ stuck, ¬ Stuck (rootBasis working options descriptors)
      (Fragment.OfRoots descriptors) stuck)
    {failure : Failure} (h : assemble sources roots options = .error failure) :
    ¬ failure.isOwn := by
  cases hfragments : fragments (rootBasis working options descriptors) descriptors with
  | ok generated =>
      rw [eq_error_of_ns hbegins hfragments hns] at h
      obtain rfl := Except.error.inj h
      simp [Failure.isOwn]
  | error other =>
      rw [eq_error_of_fragments hbegins hfragments] at h
      obtain rfl := Except.error.inj h
      rcases Fragment.generateEach_eq_error (fun d hd => lookup_rootBasis hbegins hd)
        hfragments with hstuck | ⟨fault, rfl⟩
      · exact absurd hstuck (hfree other)
      · simp [Failure.isOwn]

omit hbegins in
theorem ne_ok_of_ns (hns : options.ns.toList.all isNameContinue = false) (assembled : Assembled) :
    assemble sources roots options ≠ .ok assembled := by
  intro h
  obtain ⟨working, -, hfrom⟩ := bind_eq_ok.mp h
  have hgood := (assembleFrom_eq_ok (s := ⟨working, options, roots⟩) hfrom).2.1
  rw [hns] at hgood
  cases hgood

end Assembly

/-- What is wrong with fragments and root types is told as such, and an assembly fails otherwise
just if the namespace is none or the text of a fragment cannot be read: with a namespace of name
characters if entry points have no name, since the first letter or digit of a root type is no
letter, or if there are more tokens than may be read. -/
theorem assemble_failures {sources : List Source} {roots : List String} {options : Options}
    (hgiven : ∀ d, .document d ∈ sources → d.Written) :
    (∀ failure, Assembly.assemble sources roots options = .error failure →
      failure.isOwn ∨ (∃ fault, failure = .misread fault) ∨
        failure = .invalidName (Primitives.filterOperation options.ns)) ∧
    (options.ns.toList.all isNameContinue → options.reading.mostTokens = none →
      (∀ name ∈ roots, Naming.opensWithLetter name) →
      ∀ failure, Assembly.assemble sources roots options = .error failure → failure.isOwn) ∧
    (options.ns.toList.all isNameContinue →
      ((∃ failure, Assembly.assemble sources roots options = .error failure ∧ ¬ failure.isOwn) ↔
        ∃ working descriptors,
          Assembly.Begins sources roots options working descriptors ∧
          Fragment.Illegible (Assembly.rootBasis working options descriptors) descriptors [])) ∧
    (options.ns.toList.all isNameContinue = false →
      ∃ failure, Assembly.assemble sources roots options = .error failure ∧
        ∀ working descriptors, Assembly.Begins sources roots options working descriptors →
          (∀ stuck, ¬ Stuck (Assembly.rootBasis working options descriptors)
            (Fragment.OfRoots descriptors) stuck) → ¬ failure.isOwn) := by
  refine ⟨?_, ?_, ?_, ?_⟩
  · intro failure h
    by_cases hown : failure.isOwn
    · exact .inl hown
    · obtain ⟨working, descriptors, hbegins⟩ := Assembly.begins_of_not_isOwn h hown
      rcases Assembly.failure_cases hbegins h with hown | ⟨fault, rfl, -⟩ | ⟨hprimitives, -⟩
      · exact .inl hown
      · exact .inr (.inl ⟨fault, rfl⟩)
      · exact .inr (.inr hprimitives)
  · intro hns hlimit hnames failure h
    by_contra hown
    obtain ⟨working, descriptors, hbegins⟩ := Assembly.begins_of_not_isOwn h hown
    rcases Assembly.failure_cases hbegins h with hself | ⟨fault, rfl, hfragments⟩ | ⟨-, hbad⟩
    · exact hown hself
    · refine Fragment.not_illegible (fun d hd => ?_) hlimit []
        ((Assembly.misread_iff hbegins hgiven hns).mp ⟨fault, hfragments⟩)
      exact (Naming.isName_lowerCamel d.typeName).mpr (hnames d.typeName
        ((mem_roots (s := ⟨working, options, roots⟩) hbegins.roots).mpr ⟨d, hd, rfl⟩))
    · simp [hns] at hbad
  · intro hns
    constructor
    · rintro ⟨failure, h, hown⟩
      obtain ⟨working, descriptors, hbegins⟩ := Assembly.begins_of_not_isOwn h hown
      rcases Assembly.failure_cases hbegins h with hself | ⟨fault, rfl, hfragments⟩ | ⟨-, hbad⟩
      · exact absurd hself hown
      · exact ⟨working, descriptors, hbegins,
          (Assembly.misread_iff hbegins hgiven hns).mp ⟨fault, hfragments⟩⟩
      · simp [hns] at hbad
    · rintro ⟨working, descriptors, hbegins, hillegible⟩
      obtain ⟨fault, hfragments⟩ := (Assembly.misread_iff hbegins hgiven hns).mpr hillegible
      exact ⟨_, Assembly.eq_error_of_fragments hbegins hfragments, by simp [Failure.isOwn]⟩
  · intro hns
    cases h : Assembly.assemble sources roots options with
    | ok assembled => exact absurd h (Assembly.ne_ok_of_ns hns assembled)
    | error failure =>
        refine ⟨failure, rfl, fun working descriptors hbegins hfree => ?_⟩
        exact Assembly.not_isOwn_of_ns hbegins hns hfree h

/-- A root type of which no entry point can be named. -/
def underscored : Sources where
  working := Document.ofDefinitions
    [.type (Fragment.objectType "_"
      [ Fragment.plainField "id" [] (.nonNull (.named "ID")),
        Fragment.plainField "name" [] (.named "String") ])]
  options := {}
  roots := ["_"]

def underscoredDescriptor : Descriptor :=
  { typeName := "_"
    idName := "id"
    idType := .nonNull (.named (.scalar "ID"))
    fields := [⟨"name", .named (.scalar "String")⟩] }

theorem underscored_written : ∀ d, .document d ∈ [Source.document underscored.working] →
    d.Written :=
  Source.written_singleton (by decide)

theorem underscored_begins :
    Assembly.Begins [.document underscored.working] underscored.roots underscored.options
      underscored.working [underscoredDescriptor] :=
  ⟨rfl, rfl⟩

theorem underscored_illegible :
    Fragment.Illegible
      (Assembly.rootBasis underscored.working underscored.options [underscoredDescriptor])
      [underscoredDescriptor] [] :=
  .here rfl fun hlegible => absurd hlegible.1 (by decide)

theorem assemble_failures_underscored :
    (∀ d, .document d ∈ [Source.document underscored.working] → d.Written) ∧
      ∃ failure, Assembly.assemble [.document underscored.working] underscored.roots
        underscored.options = .error failure ∧ ¬ failure.isOwn :=
  ⟨underscored_written, ((assemble_failures underscored_written).2.2.1 (by decide)).mpr
    ⟨underscored.working, [underscoredDescriptor], underscored_begins, underscored_illegible⟩⟩

/-- Not every failure of an assembly tells what is wrong with what it has been given. -/
theorem assemble_misreads :
    ¬ ∀ (sources : List Source) (roots : List String) (options : Options) (failure : Failure),
      Assembly.assemble sources roots options = .error failure → failure.isOwn := by
  intro h
  obtain ⟨fault, hfragments⟩ :=
    (Assembly.misread_iff underscored_begins underscored_written (by decide)).mpr
      underscored_illegible
  have hown := h _ _ _ _ (Assembly.eq_error_of_fragments underscored_begins hfragments)
  cases hown

end RecordApi
