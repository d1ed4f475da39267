import RecordApi.Proofs.Derivation.DerivedInputs

/-!
# Precedence among input types

Two pairs may have one input name. The input type of the pair that is met first is emitted, and the
other pair is not gone past. The root types are started from in turn, each for creation before it is
for update, and what has been emitted from the earlier starts decides what is met from later ones.
-/

namespace RecordApi

open RecordApi.Language Relation

namespace Sources

variable (s : Sources)

/-- Whether the input type of a pair is neither declared nor called like that of a known pair. -/
def Free (known : InputPair → Prop) (p : InputPair) : Prop :=
  p.inputName ∉ declaredNames s.working ∧ ∀ q, known q → q.inputName ≠ p.inputName

/-- The free pairs that are met from a starting one past free pairs only. -/
inductive Met (known : InputPair → Prop) (start : InputPair) : InputPair → Prop
  | start : s.Free known start → Met known start start
  | field {p : InputPair} {fields : List FieldDef} {f : FieldDef} : Met known start p →
      s.fields? p.typeName = some fields → f ∈ fields →
      (s.working.composite? f.type.baseName).isSome →
      s.Free known ⟨f.type.baseName, p.mode⟩ → Met known start ⟨f.type.baseName, p.mode⟩

/-- The known pairs and those that are met from starting pairs in turn, each time with all earlier
ones known. -/
def MetInTurn : (InputPair → Prop) → List InputPair → InputPair → Prop
  | known, [] => known
  | known, start :: rest => MetInTurn (fun p => known p ∨ s.Met known start p) rest

/-- The pairs whose input types are emitted. -/
def Emitted : InputPair → Prop :=
  s.MetInTurn (fun _ => False) (pairsOf s.roots.eraseDups)

variable {s} {known : InputPair → Prop} {starts : List InputPair}

theorem metInTurn_of_known {p : InputPair} (h : known p) : s.MetInTurn known starts p := by
  induction starts generalizing known with
  | nil => exact h
  | cons start rest ih => exact ih (.inl h)

/-- An undeclared input name that is started from is that of a pair which is met. -/
theorem exists_metInTurn {start : InputPair} (hstart : start ∈ starts)
    (hdeclared : start.inputName ∉ declaredNames s.working) :
    ∃ p, s.MetInTurn known starts p ∧ p.inputName = start.inputName := by
  induction starts generalizing known with
  | nil => simp at hstart
  | cons first rest ih =>
      rcases List.mem_cons.mp hstart with rfl | hrest
      · have hmet {p : InputPair} (hp : known p ∨ s.Met known start p) :
            s.MetInTurn known (start :: rest) p :=
          show s.MetInTurn (fun p => known p ∨ s.Met known start p) rest p from
            metInTurn_of_known hp
        by_cases hfree : s.Free known start
        · exact ⟨start, hmet (.inr (.start hfree)), rfl⟩
        · have hknown : ¬ ∀ q, known q → q.inputName ≠ start.inputName := fun h =>
            hfree ⟨hdeclared, h⟩
          push Not at hknown
          obtain ⟨q, hq, hsame⟩ := hknown
          exact ⟨q, hmet (.inl hq), hsame⟩
      · exact ih hrest

theorem exists_emitted {name : String} (hname : name ∈ s.roots) {mode : InputMode}
    (hdeclared : mode.inputName name ∉ declaredNames s.working) :
    ∃ p, s.Emitted p ∧ p.inputName = mode.inputName name := by
  have hstart : ⟨name, mode⟩ ∈ pairsOf s.roots.eraseDups :=
    mem_pairsOf.mpr (List.mem_eraseDups.mpr hname)
  exact exists_metInTurn hstart hdeclared

theorem free_of_met {start p : InputPair} (h : s.Met known start p) : s.Free known p := by
  cases h with
  | start hfree => exact hfree
  | field _ _ _ _ hfree => exact hfree

theorem reachable_of_met {start p : InputPair} (hstart : s.Reachable start)
    (h : s.Met known start p) : s.Reachable p := by
  induction h with
  | start => exact hstart
  | field hmet hfields hf hsome _ ih => exact .field ih (free_of_met hmet).1 hfields hf hsome

theorem reachable_of_metInTurn (hknown : ∀ p, known p → s.Reachable p)
    (hstarts : ∀ start ∈ starts, s.Reachable start) {p : InputPair}
    (h : s.MetInTurn known starts p) : s.Reachable p := by
  induction starts generalizing known with
  | nil => exact hknown p h
  | cons start rest ih =>
      obtain ⟨hstart, hrest⟩ := List.forall_mem_cons.mp hstarts
      refine ih ?_ hrest h
      rintro q (hq | hq)
      · exact hknown q hq
      · exact reachable_of_met hstart hq

/-- Only input types of reachable pairs are emitted. -/
theorem reachable_of_emitted {p : InputPair} (h : s.Emitted p) : s.Reachable p := by
  refine reachable_of_metInTurn (fun _ => False.elim) (fun start hstart => ?_) h
  exact .root start.mode (List.mem_eraseDups.mp (mem_pairsOf.mp hstart))

/-- The input type of a root type's pair is emitted if no other reachable pair has its name. -/
theorem emitted_of_unshared {name : String} (hname : name ∈ s.roots) {mode : InputMode}
    (hdeclared : mode.inputName name ∉ declaredNames s.working)
    (hunshared : ∀ p, s.Reachable p → p.inputName = mode.inputName name → p = ⟨name, mode⟩) :
    s.Emitted ⟨name, mode⟩ := by
  obtain ⟨p, hp, hsame⟩ := exists_emitted hname hdeclared
  rwa [← hunshared p (reachable_of_emitted hp) hsame]

end Sources

section Stages

variable {s : Sources} {descriptors : List Descriptor}
  (hdistinct : (s.working.types.map (·.name)).Nodup)
  (hroots : s.roots.eraseDups.mapM (Assembly.describeRoot s.working s.options.selector) =
    .ok descriptors)

include hdistinct hroots

omit hdistinct hroots in
/-- What is reached from a pair is of its mode. -/
theorem mode_of_reachesPast {basis : Basis} {known : List String} {start p : InputPair}
    (h : basis.ReachesPast known (· = start) p) : p.mode = start.mode := by
  obtain ⟨_, rfl, hpath⟩ := h
  induction hpath with
  | refl => rfl
  | tail _ hlast ih =>
      obtain ⟨-, -, -, -, hmode, -⟩ := hlast
      rw [hmode, ih]

omit hdistinct hroots in
theorem free_iff {known : List InputPair} {p : InputPair} :
    s.Free (· ∈ known) p ↔
      p.inputName ∉ declaredNames s.working ∧ p.inputName ∉ known.map InputPair.inputName := by
  simp [Sources.Free]

section OneStart

variable {known added : List InputPair} {start : InputPair} {after : Derived}
  (h : Grown (Assembly.rootBasis s.working s.options descriptors) [] (· = start)
    ⟨known.map InputPair.inputName, []⟩ added after)

include h

omit hdistinct hroots in
/-- A pair whose name is free is added if it is the start or an added pair leads to it: its name is
met, and in one mode the name tells the pair. -/
theorem mem_added_of_free {p : InputPair} (hmode : p.mode = start.mode)
    (hfree : s.Free (· ∈ known) p)
    (hmet : p = start ∨ ∃ q ∈ added,
      (Assembly.rootBasis s.working s.options descriptors).Follows q p) : p ∈ added := by
  obtain ⟨hdeclared, hunknown⟩ := free_iff.mp hfree
  have hnames : p.inputName ∈ after.names := by
    rcases h.met p hmet with hmem | hmem | hmem
    · exact absurd hmem hdeclared
    · exact hmem
    · simp at hmem
  rw [h.names] at hnames
  obtain ⟨q, hq, hsame⟩ := List.mem_map.mp ((List.mem_append.mp hnames).resolve_left hunknown)
  have hqmode := mode_of_reachesPast (h.reached q hq)
  obtain ⟨name, mode⟩ := p
  obtain ⟨other, otherMode⟩ := q
  obtain rfl : otherMode = mode := hqmode.trans hmode.symm
  obtain rfl := InputMode.inputName_injective hsame
  exact hq

/-- A derivation from one pair adds just the pairs that are met from it. The induction is on the
path to the pair in one direction and on how it is met in the other. -/
theorem mem_added_iff_met {p : InputPair} : p ∈ added ↔ s.Met (· ∈ known) start p := by
  constructor
  · intro hp
    obtain ⟨hknown, -, hdeclared⟩ := h.fresh p hp
    obtain ⟨_, rfl, hpath⟩ := h.reached p hp
    replace hknown : p.inputName ∉ known.map InputPair.inputName := hknown
    replace hdeclared : p.inputName ∉ declaredNames s.working := hdeclared
    clear hp
    induction hpath with
    | refl => exact .start (free_iff.mpr ⟨hdeclared, hknown⟩)
    | @tail q r _ hlast ih =>
        obtain ⟨hq, hfollows⟩ := hlast
        obtain ⟨hqdeclared, hmode, fields, f, hfields, hf, hbase, hsome⟩ :=
          (follows_rootBasis hdistinct hroots).mp hfollows
        obtain ⟨typeName, mode⟩ := r
        obtain rfl : f.type.baseName = typeName := hbase
        obtain rfl : mode = q.mode := hmode
        exact .field (ih hq hqdeclared) hfields hf hsome (free_iff.mpr ⟨hdeclared, hknown⟩)
  · intro hmet
    induction hmet with
    | start hstart => exact mem_added_of_free h rfl hstart (.inl rfl)
    | @field q fields f _ hfields hf hsome hnext ih =>
        have hfollows : (Assembly.rootBasis s.working s.options descriptors).Follows q
            ⟨f.type.baseName, q.mode⟩ :=
          (follows_rootBasis hdistinct hroots).mpr
            ⟨(h.fresh q ih).2.2, rfl, fields, f, hfields, hf, rfl, hsome⟩
        have hmode : q.mode = start.mode := mode_of_reachesPast (h.reached q ih)
        exact mem_added_of_free h hmode hnext (.inr ⟨q, ih, hfollows⟩)

end OneStart

/-- Derivations from pairs in turn add just the pairs that are met in turn. -/
theorem mem_stages_iff_metInTurn {names : List String} {starts added : List InputPair}
    (h : Stages (Assembly.rootBasis s.working s.options descriptors) names starts added)
    {known : List InputPair} (hnames : names = known.map InputPair.inputName) {p : InputPair} :
    p ∈ known ++ added ↔ s.MetInTurn (· ∈ known) starts p := by
  induction h generalizing known with
  | nil => simp [Sources.MetInTurn]
  | @cons names start starts first more after hgrown _ ih =>
      subst hnames
      have hfirst : (fun q => q ∈ known ∨ s.Met (· ∈ known) start q) = (· ∈ known ++ first) := by
        funext q
        rw [← mem_added_iff_met hdistinct hroots hgrown, List.mem_append]
      rw [Sources.MetInTurn, hfirst, ← ih List.map_append.symm, List.append_assoc]

variable (hwritten : s.working.Written) (hns : s.options.ns.toList.all isNameContinue)

include hwritten hns

/-- The fragments of a schema are made of the pairs whose input types are emitted, no two of which
have the same name. -/
theorem fragments_of_emitted {generated : List (List Definition)}
    (h : Assembly.fragments (Assembly.rootBasis s.working s.options descriptors) descriptors =
      .ok generated) :
    ∃ parts : List (List InputPair), parts.length = descriptors.length ∧
      generated = List.zipWith
        (Fragment.ofPairs (Assembly.rootBasis s.working s.options descriptors)) descriptors parts ∧
      (∀ p, p ∈ parts.flatten ↔ s.Emitted p) ∧
      (parts.flatten.map InputPair.inputName).Nodup := by
  have hspec := fragments_spec hroots hwritten hns
  rw [h] at hspec
  obtain ⟨-, parts, hlength, hparts, hstages⟩ := hspec
  refine ⟨parts, hlength, hparts, fun p => ?_, (Fragment.grown_of_stages hstages).distinct⟩
  rw [typeNames_descriptors hroots] at hstages
  have hmem : p ∈ [] ++ parts.flatten ↔ s.MetInTurn (· ∈ []) (pairsOf s.roots.eraseDups) p :=
    mem_stages_iff_metInTurn hdistinct hroots hstages rfl
  simpa [Sources.Emitted] using hmem

end Stages

end RecordApi
