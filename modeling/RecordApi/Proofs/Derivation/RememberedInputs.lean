import RecordApi.Data.Association
import RecordApi.Proofs.Derivation.DerivedInputs

/-!
# Input types that are remembered

The input types that have been derived stay known from one root type to the next, so that none is
derived twice. They also stay known when a fragment fails, though its input types are in no fragment
then. A later fragment refers to them as if they were. So what is known after each call, failed or
not, is followed here from the traversal of one input type up to any sequence of calls.
-/

namespace RecordApi

open RecordApi.Language

/-! ## What a derivation leaves behind -/

/-- The input types that a derivation has added, failed or not, while the input types of the active
names are being derived: those of some sources that fit, each under a new name. -/
structure Remembered (basis : Basis) (fit : InputSource → Prop) (active : List String)
    (before : Derived) (sources : List InputSource) (after : Derived) : Prop where
  names : after.names = before.names ++ sources.map (·.inputName)
  inputs : after.inputs = before.inputs ++ sources.map basis.inputFrom
  distinct : (sources.map (·.inputName)).Nodup
  fresh : ∀ s ∈ sources,
    s.inputName ∉ before.names ∧ s.inputName ∉ active ∧ s.inputName ∉ basis.declared
  fit : ∀ s ∈ sources, fit s

section Remembered

variable {basis : Basis} {fit : InputSource → Prop} {active : List String}
  {before middle after : Derived} {sources first second : List InputSource}

theorem Remembered.refl (before : Derived) : Remembered basis fit active before [] before where
  names := by simp
  inputs := by simp
  distinct := by simp
  fresh := by simp
  fit := by simp

theorem Remembered.trans (h₁ : Remembered basis fit active before first middle)
    (h₂ : Remembered basis fit active middle second after) :
    Remembered basis fit active before (first ++ second) after where
  names := by simp [h₂.names, h₁.names]
  inputs := by simp [h₂.inputs, h₁.inputs]
  distinct := by
    rw [List.map_append, List.nodup_append]
    refine ⟨h₁.distinct, h₂.distinct, ?_⟩
    rintro _ hname _ hs rfl
    obtain ⟨s, hs, hname'⟩ := List.mem_map.mp hs
    refine (h₂.fresh s hs).1 ?_
    rw [hname', h₁.names]
    exact List.mem_append_right _ hname
  fresh s hs := by
    rcases List.mem_append.mp hs with hs | hs
    · exact h₁.fresh s hs
    · refine ⟨fun hname => (h₂.fresh s hs).1 ?_, (h₂.fresh s hs).2⟩
      rw [h₁.names]
      exact List.mem_append_left _ hname
  fit := List.forall_mem_append.mpr ⟨h₁.fit, h₂.fit⟩

/-- What is added while an input type is being derived is added without it, too. -/
theorem Remembered.close {name : String}
    (h : Remembered basis fit (name :: active) before sources after) :
    Remembered basis fit active before sources after :=
  { h with
    fresh := fun s hs => by
      obtain ⟨hbefore, hactive, hdeclared⟩ := h.fresh s hs
      exact ⟨hbefore, fun hmem => hactive (List.mem_cons_of_mem _ hmem), hdeclared⟩ }

/-- An input type whose fields have been derived is added itself. -/
theorem Remembered.emit {s : InputSource}
    (h : Remembered basis fit (s.inputName :: active) before sources after)
    (hfresh : s.inputName ∉ before.names ∧ s.inputName ∉ active ∧ s.inputName ∉ basis.declared)
    (hfit : fit s) :
    Remembered basis fit active before (sources ++ [s])
      ⟨after.names ++ [s.inputName], after.inputs ++ [basis.inputFrom s]⟩ := by
  have hnew : s.inputName ∉ after.names := by
    rw [h.names, List.mem_append, not_or]
    refine ⟨hfresh.1, fun hmem => ?_⟩
    obtain ⟨t, ht, hsame⟩ := List.mem_map.mp hmem
    exact (h.fresh t ht).2.1 (by rw [hsame]; exact List.mem_cons_self)
  exact h.close.trans
    { names := rfl
      inputs := rfl
      distinct := by simp
      fresh := by simpa using ⟨hnew, hfresh.2⟩
      fit := by simpa using hfit }

/-- Whether every input type that is referred to is declared, known or being derived. -/
def Supplied (basis : Basis) (active : List String) (refers : String → Prop)
    (sources : List InputSource) (after : Derived) : Prop :=
  ∀ name, (refers name ∨ ∃ s ∈ sources, basis.Refers s.mode s.fields name) →
    name ∈ basis.declared ∨ name ∈ after.names ∨ name ∈ active

theorem Supplied.trans {refers₁ refers₂ : String → Prop}
    (h₁ : Supplied basis active refers₁ first middle)
    (h₂ : Supplied basis active refers₂ second after)
    (hremembered : Remembered basis fit active middle second after) :
    Supplied basis active (fun name => refers₁ name ∨ refers₂ name) (first ++ second) after := by
  have hearlier (name : String)
      (h : refers₁ name ∨ ∃ s ∈ first, basis.Refers s.mode s.fields name) :
      name ∈ basis.declared ∨ name ∈ after.names ∨ name ∈ active := by
    rw [hremembered.names, List.mem_append]
    rcases h₁ name h with hmet | hmet | hmet
    · exact .inl hmet
    · exact .inr (.inl (.inl hmet))
    · exact .inr (.inr hmet)
  rintro name ((hname | hname) | ⟨s, hs, hname⟩)
  · exact hearlier name (.inl hname)
  · exact h₂ name (.inl hname)
  · rcases List.mem_append.mp hs with hs | hs
    · exact hearlier name (.inr ⟨s, hs, hname⟩)
    · exact h₂ name (.inr ⟨s, hs, hname⟩)

theorem Supplied.emit {s : InputSource}
    (h : Supplied basis (s.inputName :: active) (basis.Refers s.mode s.fields) sources after)
    (inputs : List TypeDef) :
    Supplied basis active (· = s.inputName) (sources ++ [s])
      ⟨after.names ++ [s.inputName], inputs⟩ := by
  have hlater (name : String) (hname : basis.Refers s.mode s.fields name ∨
      ∃ t ∈ sources, basis.Refers t.mode t.fields name) :
      name ∈ basis.declared ∨ name ∈ after.names ++ [s.inputName] ∨ name ∈ active := by
    rcases h name hname with hmet | hmet | hmet
    · exact .inl hmet
    · exact .inr (.inl (List.mem_append_left _ hmet))
    · rcases List.mem_cons.mp hmet with rfl | hmet
      · exact .inr (.inl (by simp))
      · exact .inr (.inr hmet)
  rintro name (rfl | ⟨t, ht, hname⟩)
  · exact .inr (.inl (by simp))
  · rcases List.mem_append.mp ht with ht | ht
    · exact hlater name (.inr ⟨t, ht, hname⟩)
    · rw [List.mem_singleton.mp ht] at hname
      exact hlater name (.inl hname)

end Remembered

/-! ## The traversal -/

section Traversal

variable {basis : Basis} {fit : InputSource → Prop} {active : List String} {mode : InputMode}
  {α β : Type} {refers refers₁ refers₂ : String → Prop} {good : α → Prop} {fine : β → Prop}

/-- The derivation adds input types whether it fails or not, and if it answers, it answers well and
everything that is referred to is there. -/
def Remembers (basis : Basis) (fit : InputSource → Prop) (active : List String)
    (refers : String → Prop) (x : Derive α) (good : α → Prop) : Prop :=
  ∀ before, ∃ sources, Remembered basis fit active before sources (x.outcome before).2 ∧
    ∀ a, (x.outcome before).1 = .ok a →
      good a ∧ Supplied basis active refers sources (x.outcome before).2

theorem Remembers.pure {a : α} (h : good a) (hrefers : ∀ name, ¬ refers name) :
    Remembers basis fit active refers (pure a) good := by
  intro before
  refine ⟨[], .refl before, ?_⟩
  rintro _ ⟨⟩
  exact ⟨h, fun name hname => by simp [hrefers name] at hname⟩

theorem Remembers.bind {x : Derive α} {f : α → Derive β}
    (hx : Remembers basis fit active refers₁ x good)
    (hf : ∀ a, good a → Remembers basis fit active refers₂ (f a) fine) :
    Remembers basis fit active (fun name => refers₁ name ∨ refers₂ name) (x >>= f) fine := by
  intro before
  obtain ⟨first, hfirst, hanswer⟩ := hx before
  rw [Derive.outcome_bind]
  rcases hrun : x.outcome before with ⟨failure | a, middle⟩
  · rw [hrun] at hfirst
    exact ⟨first, hfirst, nofun⟩
  · rw [hrun] at hfirst hanswer
    obtain ⟨ha, hmiddle⟩ := hanswer a rfl
    obtain ⟨second, hsecond, hanswer'⟩ := hf a ha middle
    refine ⟨first ++ second, hfirst.trans hsecond, fun b hb => ?_⟩
    obtain ⟨hgood, hafter⟩ := hanswer' b hb
    exact ⟨hgood, hmiddle.trans hafter hsecond⟩

theorem Remembers.congr {x : Derive α} (h : Remembers basis fit active refers₁ x good)
    (hrefers : ∀ name, refers₁ name ↔ refers₂ name) :
    Remembers basis fit active refers₂ x good := by
  rwa [show refers₁ = refers₂ from funext fun name => propext (hrefers name)] at h

theorem Remembers.map {x : Derive α} {f : α → β} (hx : Remembers basis fit active refers x good)
    (hf : ∀ a, good a → fine (f a)) :
    Remembers basis fit active refers (do return f (← x)) fine :=
  (hx.bind fun a ha => .pure (hf a ha) fun _ => not_false).congr fun _ => by
    rw [or_false]

namespace Derive

/-- The input field for a data field, if nested input types are derived. -/
theorem remembers_inputField {nested : String → List DataField → Derive String}
    (field : DataField)
    (hnested : ∀ name fields, basis.nestedFields? name = some fields →
      Remembers basis fit active (· = mode.inputName name) (nested name fields)
        (· = mode.inputName name)) :
    Remembers basis fit active (basis.Refers mode [field]) (inputField basis mode nested field)
      (· = basis.inputEntry mode field) := by
  unfold inputField Basis.inputEntry
  cases hbase : field.type.base with
  | scalar name => exact .pure rfl (by simp [Basis.Refers, hbase])
  | enum name => exact .pure rfl (by simp [Basis.Refers, hbase])
  | object name =>
      dsimp only
      cases hfields : basis.nestedFields? name with
      | none => exact .pure rfl (by simp [Basis.Refers, hbase, hfields])
      | some fields =>
          refine ((hnested name fields hfields).map fun answer hanswer => ?_).congr fun other => ?_
          · rw [hanswer]
            rfl
          · simp [Basis.Refers, hbase, hfields]

/-- The input fields for data fields, if nested input types are derived. -/
theorem remembers_inputFields {nested : String → List DataField → Derive String}
    (fields : List DataField)
    (hnested : ∀ name fields, basis.nestedFields? name = some fields →
      Remembers basis fit active (· = mode.inputName name) (nested name fields)
        (· = mode.inputName name)) :
    Remembers basis fit active (basis.Refers mode fields) (inputFields basis mode nested fields)
      (· = fields.filterMap (basis.inputEntry mode)) := by
  induction fields with
  | nil => exact .pure rfl (by simp [Basis.Refers])
  | cons field rest ih =>
      refine ((remembers_inputField field hnested).bind fun first hfirst =>
        ih.map fun more hmore => ?_).congr fun name => ?_
      · rw [hfirst, hmore, List.filterMap_cons]
        cases basis.inputEntry mode field <;> rfl
      · simp [Basis.Refers, or_and_right, exists_or]

/-- The derivation of one input type. The induction is on the bound, which the types that are being
derived never use up. -/
theorem remembers_input {names : List String}
    (hnames : ∀ name, (basis.nestedFields? name).isSome → name ∈ names)
    (hfit : ∀ name fields, basis.nestedFields? name = some fields → fit ⟨name, mode, fields⟩)
    (bound : Nat) (types : List String) (typeName : String) (fields : List DataField)
    (hname : typeName ∈ names) (hown : fit ⟨typeName, mode, fields⟩)
    (hroom : Room names bound types) :
    Remembers basis fit (types.map mode.inputName) (· = mode.inputName typeName)
      (input basis mode bound (types.map mode.inputName) typeName fields)
      (· = mode.inputName typeName) := by
  induction bound using Nat.strongRecOn generalizing types typeName fields with
  | ind bound ih =>
      intro before
      rw [outcome_input]
      by_cases hmet : mode.inputName typeName ∈ basis.declared ∨
          mode.inputName typeName ∈ before.names ∨
          mode.inputName typeName ∈ types.map mode.inputName
      · rw [if_pos hmet]
        refine ⟨[], .refl before, ?_⟩
        rintro _ ⟨⟩
        refine ⟨rfl, ?_⟩
        rintro name (rfl | ⟨s, hs, -⟩)
        · exact hmet
        · cases hs
      · rw [if_neg hmet]
        obtain ⟨hdeclared, hbefore, hactive⟩ : mode.inputName typeName ∉ basis.declared ∧
            mode.inputName typeName ∉ before.names ∧
            mode.inputName typeName ∉ types.map mode.inputName := by
          simpa only [not_or] using hmet
        have hfresh : typeName ∉ types := fun h => hactive (List.mem_map_of_mem h)
        obtain ⟨more, rfl, hmore⟩ := hroom.deeper hname hfresh
        have hnested : Remembers basis fit (mode.inputName typeName :: types.map mode.inputName)
            (basis.Refers mode fields)
            (inputFields basis mode
              (input basis mode more (mode.inputName typeName :: types.map mode.inputName)) fields)
            (· = fields.filterMap (basis.inputEntry mode)) :=
          remembers_inputFields fields fun name nestedFields hnestedFields =>
            ih more (Nat.lt_succ_self more) (typeName :: types) name nestedFields
              (hnames name (by simp [hnestedFields])) (hfit name nestedFields hnestedFields) hmore
        obtain ⟨sources, hremembered, hanswer⟩ := hnested before
        dsimp only
        rcases hrun : (inputFields basis mode (input basis mode more
            (mode.inputName typeName :: types.map mode.inputName)) fields).outcome before with
          ⟨failure | inputs, after⟩
        · rw [hrun] at hremembered
          exact ⟨sources, hremembered.close, nofun⟩
        · rw [hrun] at hremembered hanswer
          obtain ⟨hinputs, hsupplied⟩ := hanswer inputs rfl
          dsimp only
          by_cases hstarved : inputs = []
          · rw [if_pos hstarved]
            exact ⟨sources, hremembered.close, nofun⟩
          · rw [if_neg hstarved, hinputs]
            let s : InputSource := ⟨typeName, mode, fields⟩
            refine ⟨sources ++ [s], Remembered.emit (s := s) hremembered
              ⟨hbefore, hactive, hdeclared⟩ hown, ?_⟩
            rintro _ ⟨⟩
            exact ⟨rfl, Supplied.emit (s := s) hsupplied _⟩

end Derive

end Traversal

/-! ## Fragments -/

/-- Whether all names and types of a descriptor can be written. -/
structure Descriptor.Written (d : Descriptor) : Prop extends d.Plain where
  fields : ∀ f ∈ d.fields, isName f.name.toList ∧ f.type.toExpr.isWritten

namespace Fragment

variable {basis : Basis}

/-- The definitions of a fragment whose input types are those of some sources. -/
def ofSources (basis : Basis) (d : Descriptor) (sources : List InputSource) : List Definition :=
  (sources.map basis.inputFrom ++ outputTypes basis d).map .type ++ augmented basis d.typeName

theorem inputTypes_ofSources (d : Descriptor) (sources : List InputSource) :
    inputTypes (ofSources basis d sources) = sources.map basis.inputFrom :=
  inputTypes_fragment basis d (List.forall_mem_map.mpr fun _ _ => ⟨_, rfl⟩)

/-- The derivation of both input types of a root type, which need not be one that is known by its
name. -/
theorem remembers_inputs (hplain : basis.Plain) {d : Descriptor} (hd : d.Written) :
    Remembers basis InputSource.Plain [] (fun name => ∃ mode : InputMode,
      name = mode.inputName d.typeName) (inputs basis d) fun _ => True := by
  have hfields : ∀ f ∈ basis.inputFields d, isName f.name.toList ∧ f.type.toExpr.isWritten := by
    intro f hf
    unfold Basis.inputFields at hf
    split at hf
    · exact hd.fields f (List.mem_filter.mp hf).1
    · exact hd.fields f hf
  have hnames (name : String) (h : (basis.nestedFields? name).isSome) :
      name ∈ d.typeName :: basis.knownNames :=
    List.mem_cons_of_mem _ (Basis.mem_knownNames h)
  have hmode (mode : InputMode) : Remembers basis InputSource.Plain []
      (· = mode.inputName d.typeName)
      (Derive.input basis mode (Derive.depth basis) [] d.typeName (basis.inputFields d))
      (· = mode.inputName d.typeName) :=
    Derive.remembers_input hnames
      (fun name fields h => ⟨hplain.names name (by simp [h]), hplain.fields name fields h⟩)
      _ [] _ _ List.mem_cons_self ⟨hd.typeName, hfields⟩
      ⟨.nil, by simp, by simp [Basis.knownNames, Derive.depth]⟩
  unfold inputs
  refine ((hmode .create).bind fun _ _ => (hmode .update).map fun _ _ => trivial).congr
    fun name => ?_
  constructor
  · rintro (rfl | rfl)
    · exact ⟨.create, rfl⟩
    · exact ⟨.update, rfl⟩
  · rintro ⟨_ | _, rfl⟩
    · exact .inl rfl
    · exact .inr rfl

/-- What is known after a fragment has been asked for, and the fragment itself, if it is
returned. -/
theorem generate_remembers (hplain : basis.Plain) {d : Descriptor} (hd : d.Written)
    (known : List String) :
    ∃ sources,
      Remembered basis InputSource.Plain [] ⟨known, []⟩ sources
        ⟨(generate basis d known).2, sources.map basis.inputFrom⟩ ∧
      ∀ fragment, (generate basis d known).1 = .ok fragment →
        fragment = ofSources basis d sources ∧
          Supplied basis [] (fun name => ∃ mode : InputMode, name = mode.inputName d.typeName)
            sources ⟨(generate basis d known).2, sources.map basis.inputFrom⟩ := by
  obtain ⟨sources, hremembered, hanswer⟩ := remembers_inputs hplain hd ⟨known, []⟩
  have hinputs := hremembered.inputs
  unfold generate
  rw [show (inputs basis d).run ⟨known, []⟩ = (inputs basis d).outcome ⟨known, []⟩ from rfl]
  rcases hrun : (inputs basis d).outcome ⟨known, []⟩ with ⟨failure | ⟨⟩, names, types⟩
  · rw [hrun] at hremembered hinputs
    obtain rfl : types = sources.map basis.inputFrom := hinputs
    exact ⟨sources, hremembered, nofun⟩
  · rw [hrun] at hremembered hanswer hinputs
    obtain rfl : types = sources.map basis.inputFrom := hinputs
    refine ⟨sources, hremembered, fun fragment hfragment => ⟨?_, (hanswer () rfl).2⟩⟩
    have hbare : ∀ t ∈ sources.map basis.inputFrom, t.Bare := by
      intro t ht
      obtain ⟨s, hs, rfl⟩ := List.mem_map.mp ht
      exact bare_inputFrom hplain (hremembered.fit s hs)
    obtain ⟨generated, hread, hdefinitions⟩ := bind_eq_ok.mp hfragment
    obtain ⟨-, -, rfl⟩ := (reread_eq_ok hplain hd.toPlain hbare).mp hread
    exact (Except.ok.inj hdefinitions).symm

/-! ## Calls in turn -/

/-- A call for the fragment of a root type: the names of the input types that are known before and
after it, and what comes of it. -/
structure Call where
  root : Descriptor
  before : List String
  outcome : Except Failure (List Definition)
  after : List String

/-- The call for a fragment. -/
def call (basis : Basis) (d : Descriptor) (known : List String) : Call :=
  ⟨d, known, (generate basis d known).1, (generate basis d known).2⟩

/-- A call whose input types are derived returns them in the fragment, if nothing keeps the fragment
from being read back. -/
theorem call_of_inputs (hplain : basis.Plain) {d : Descriptor} (hd : d.Plain)
    (hlimit : basis.options.reading.mostTokens = none)
    (hfield : isName (Naming.lowerCamel d.typeName).toList) {known names : List String}
    {sources : List InputSource}
    (hinputs : (inputs basis d).run ⟨known, []⟩ =
      (.ok (), ⟨names, sources.map basis.inputFrom⟩))
    (hsources : ∀ s ∈ sources, s.Plain) :
    call basis d known = ⟨d, known, .ok (ofSources basis d sources), names⟩ := by
  have hbare : ∀ t ∈ sources.map basis.inputFrom, t.Bare := by
    intro t ht
    obtain ⟨s, hs, rfl⟩ := List.mem_map.mp ht
    exact bare_inputFrom hplain (hsources s hs)
  have hread : reread basis.options.reading (sources.map basis.inputFrom ++ outputTypes basis d) =
      .ok ((sources.map basis.inputFrom ++ outputTypes basis d).map .type) :=
    (reread_eq_ok hplain hd hbare).mpr ⟨hfield, by simp [hlimit], rfl⟩
  simp only [call, generate, hinputs, hread]
  rfl

/-- The calls for the fragments of root types in turn. -/
def calls (basis : Basis) : List Descriptor → List String → List Call
  | [], _ => []
  | d :: rest, known => call basis d known :: calls basis rest (call basis d known).after

/-- The fragments of root types are what comes of the calls for them. -/
theorem outcomes_calls (ds : List Descriptor) (known : List String) :
    (calls basis ds known).map (·.outcome) = generateEach basis ds known := by
  induction ds generalizing known with
  | nil => rfl
  | cons d rest ih => exact congrArg (_ :: ·) (ih _)

namespace Call

/-- Whether the fragment that a call returns defines an input type. -/
def Defines (call : Call) (name : String) : Prop :=
  ∃ fragment, call.outcome = .ok fragment ∧ name ∈ (inputTypes fragment).map (·.name)

/-- Whether a call fails and leaves an input type known that was not known before. -/
def Leaves (call : Call) (name : String) : Prop :=
  (∃ failure, call.outcome = .error failure) ∧ name ∈ call.after ∧ name ∉ call.before

end Call

section Calls

variable {ds : List Descriptor} {known : List String} {name : String}

/-- What is known stays known. -/
theorem mem_before_of_mem (hplain : basis.Plain) (hds : ∀ d ∈ ds, d.Written)
    (hname : name ∈ known) {c : Call} (hc : c ∈ calls basis ds known) : name ∈ c.before := by
  induction ds generalizing known with
  | nil => cases hc
  | cons d rest ih =>
      obtain ⟨hd, hrest⟩ := List.forall_mem_cons.mp hds
      rcases List.mem_cons.mp hc with rfl | hc
      · exact hname
      · obtain ⟨sources, hremembered, -⟩ := generate_remembers hplain hd known
        refine ih hrest ?_ hc
        show name ∈ (generate basis d known).2
        rw [show (generate basis d known).2 = known ++ sources.map (·.inputName) from
          hremembered.names]
        exact List.mem_append_left _ hname

/-- A call that returns defines what it adds. -/
theorem defines_call_iff (hplain : basis.Plain) {d : Descriptor} (hd : d.Written) :
    (call basis d known).Defines name ↔
      (∃ fragment, (call basis d known).outcome = .ok fragment) ∧
        name ∈ (call basis d known).after ∧ name ∉ known := by
  obtain ⟨sources, hremembered, hreturned⟩ := generate_remembers hplain hd known
  have hafter : (call basis d known).after = known ++ sources.map (·.inputName) :=
    hremembered.names
  have hadded : name ∈ sources.map (·.inputName) ↔
      name ∈ (call basis d known).after ∧ name ∉ known := by
    rw [hafter, List.mem_append]
    constructor
    · intro hmem
      obtain ⟨s, hs, rfl⟩ := List.mem_map.mp hmem
      exact ⟨.inr hmem, (hremembered.fresh s hs).1⟩
    · rintro ⟨hmem | hmem, hnew⟩
      · exact absurd hmem hnew
      · exact hmem
  have hdefined (fragment : List Definition) (h : (call basis d known).outcome = .ok fragment) :
      (inputTypes fragment).map (·.name) = sources.map (·.inputName) := by
    rw [(hreturned fragment h).1, inputTypes_ofSources, List.map_map]
    rfl
  rw [← hadded]
  constructor
  · rintro ⟨fragment, houtcome, hname⟩
    exact ⟨⟨fragment, houtcome⟩, hdefined fragment houtcome ▸ hname⟩
  · rintro ⟨⟨fragment, houtcome⟩, hname⟩
    exact ⟨fragment, houtcome, (hdefined fragment houtcome).symm ▸ hname⟩

theorem eq_call_of_mem {c : Call} (hc : c ∈ calls basis ds known) :
    ∃ d ∈ ds, c = call basis d c.before := by
  induction ds generalizing known with
  | nil => cases hc
  | cons d rest ih =>
      rcases List.mem_cons.mp hc with rfl | hc
      · exact ⟨d, List.mem_cons_self, rfl⟩
      · obtain ⟨e, he, hcall⟩ := ih hc
        exact ⟨e, List.mem_cons_of_mem d he, hcall⟩

/-- What is known before a call is neither defined nor left by it. -/
theorem not_added_of_known (hplain : basis.Plain) (hds : ∀ d ∈ ds, d.Written)
    (hname : name ∈ known) {c : Call} (hc : c ∈ calls basis ds known) :
    ¬ c.Defines name ∧ ¬ c.Leaves name := by
  have hbefore := mem_before_of_mem hplain hds hname hc
  obtain ⟨d, hd, hcall⟩ := eq_call_of_mem hc
  constructor
  · intro hdefines
    rw [hcall, defines_call_iff hplain (hds d hd)] at hdefines
    exact hdefines.2.2 hbefore
  · intro hleaves
    exact hleaves.2.2 hbefore

/-- What is known after a call that returns is defined by a call so far if and only if no earlier
call has failed and left it. The induction is on the earlier calls: one that adds the name settles
it, as no later one adds it again. -/
theorem defined_iff_not_left (hplain : basis.Plain) (hds : ∀ d ∈ ds, d.Written)
    {earlier later : List Call} {c : Call} (hcalls : calls basis ds known = earlier ++ c :: later)
    (hreturned : ∃ fragment, c.outcome = .ok fragment) (hnew : name ∉ known)
    (hafter : name ∈ c.after) :
    (∃ e ∈ earlier ++ [c], e.Defines name) ↔ ¬ ∃ e ∈ earlier, e.Leaves name := by
  induction earlier generalizing ds known with
  | nil =>
      cases ds with
      | nil => cases hcalls
      | cons d rest =>
          obtain ⟨hd, -⟩ := List.forall_mem_cons.mp hds
          obtain ⟨rfl, -⟩ := List.cons.inj hcalls
          have hdefines : (call basis d known).Defines name :=
            (defines_call_iff hplain hd).mpr ⟨hreturned, hafter, hnew⟩
          simpa using hdefines
  | cons e earlier ih =>
      cases ds with
      | nil => cases hcalls
      | cons d rest =>
          obtain ⟨hd, hrest⟩ := List.forall_mem_cons.mp hds
          obtain ⟨rfl, hlater⟩ := List.cons.inj hcalls
          rw [List.cons_append]
          simp only [List.mem_cons, exists_eq_or_imp]
          by_cases hadded : name ∈ (call basis d known).after
          · have hlast (e : Call) (he : e ∈ earlier ++ [c]) :
                ¬ e.Defines name ∧ ¬ e.Leaves name := by
              refine not_added_of_known hplain hrest hadded ?_
              rw [hlater]
              rcases List.mem_append.mp he with he | he
              · exact List.mem_append_left _ he
              · exact List.mem_append_right _ (List.mem_singleton.mp he ▸ List.mem_cons_self)
            have hdefined : ¬ ∃ e ∈ earlier ++ [c], e.Defines name :=
              fun ⟨e, he, h⟩ => (hlast e he).1 h
            have hleft : ¬ ∃ e ∈ earlier, e.Leaves name :=
              fun ⟨e, he, h⟩ => (hlast e (List.mem_append_left _ he)).2 h
            have hbefore : (call basis d known).before = known := rfl
            rw [or_iff_left hdefined, or_iff_left hleft, defines_call_iff hplain hd, Call.Leaves,
              hbefore]
            cases (call basis d known).outcome <;> simp [hadded, hnew]
          · have hdefines : ¬ (call basis d known).Defines name := fun h =>
              hadded ((defines_call_iff hplain hd).mp h).2.1
            have hleaves : ¬ (call basis d known).Leaves name := fun h => hadded h.2.1
            rw [or_iff_right hdefines, or_iff_right hleaves]
            exact ih hrest hlater hadded

end Calls

end Fragment

/-! ## References -/

/-- A field of an input type refers to an input type, or it keeps the type of a data field. -/
theorem field_inputFrom {basis : Basis} {s : InputSource} {g : FieldDef}
    (hg : g ∈ (Definition.type (basis.inputFrom s)).fields) :
    basis.Refers s.mode s.fields g.type.baseName ∨
      ∃ f ∈ s.fields, (∀ target, f.type.base ≠ .object target) ∧
        g.type.baseName = f.type.base.name := by
  obtain ⟨_, hd, rfl⟩ := List.mem_map.mp hg
  obtain ⟨⟨name, ref⟩, hentry, rfl⟩ := List.mem_map.mp hd
  obtain ⟨f, hf, hentry⟩ := List.mem_filterMap.mp hentry
  obtain ⟨-, ⟨target, hbase, hsome, hname⟩ | ⟨hbase, hname⟩⟩ := Basis.baseName_inputEntry hentry
  · exact .inl ⟨f, hf, target, hbase, hsome, hname⟩
  · exact .inr ⟨f, hf, hbase, hname⟩

section Document

variable {document : Document} {options : Options} {declared : Option (List String)}
  {descriptors : List (String × Descriptor)}

/-- What a generator works from can be written, if its document has been read and its descriptors
can be written. -/
theorem plain_ofDocument (hwritten : document.Written)
    (hns : options.ns.toList.all isNameContinue)
    (hdescriptors : ∀ entry ∈ descriptors, isName entry.1.toList ∧ entry.2.Written) :
    (Basis.ofDocument document options declared descriptors).Plain := by
  have htype {name : String} {t : TypeDef}
      (h : (Basis.ofDocument document options declared descriptors).type? name = some t) :
      t.name = name ∧ (Definition.type t).Written := by
    have hname : t.name = name := by simpa using List.find?_some h
    have hmem := (List.mem_filter.mp (List.mem_reverse.mp (List.mem_of_find?_eq_some h))).1
    exact ⟨hname, hwritten _ (mem_types.mp hmem)⟩
  have hfields {name : String} {fields : List DataField}
      (h : (Basis.ofDocument document options declared descriptors).nestedFields? name =
        some fields) :
      isName name.toList ∧ ∀ f ∈ fields, isName f.name.toList ∧ f.type.toExpr.isWritten := by
    unfold Basis.nestedFields? at h
    split at h
    · next d hlookup =>
        obtain ⟨hkey, hd⟩ := hdescriptors (name, d) (Association.mem_of_lookup hlookup)
        refine ⟨hkey, fun f hf => hd.fields f ?_⟩
        obtain rfl := Option.some.inj h
        unfold Basis.inputFields at hf
        split at hf
        · exact (List.mem_filter.mp hf).1
        · exact hf
    · obtain ⟨t, ht, rfl⟩ := Option.map_eq_some_iff.mp h
      obtain ⟨rfl, hwritten⟩ := htype ht
      refine ⟨hwritten.name t.name rfl, fun f hf => ?_⟩
      obtain ⟨g, hg, rfl⟩ := List.mem_map.mp hf
      simpa [Descriptor.dataField] using hwritten.fields g hg
  exact
    { names := fun name h => (hfields (Option.some_get h).symm).1
      fields := fun name fields h => (hfields h).2
      query := (isName_roots hwritten).1
      mutation := (isName_roots hwritten).2
      ns := hns }

/-- What fragments refer to, in any sequence of calls for fragments, some of which may fail. A
fragment that is returned has the input types of some sources, whose fields keep the types of data
fields or refer to input types, and the mutations of its root type refer to the two input types of
the root type. Each of these references that the consumer does not declare is defined in a fragment
returned by the same call or an earlier one, if and only if no earlier call has failed and left the
name of the input type behind. -/
theorem references_supplied (hwritten : document.Written)
    (hns : options.ns.toList.all isNameContinue)
    (hdescriptors : ∀ entry ∈ descriptors, isName entry.1.toList ∧ entry.2.Written)
    {ds : List Descriptor} (hds : ∀ d ∈ ds, d.Written) {earlier later : List Fragment.Call}
    {c : Fragment.Call} {fragment : List Definition}
    (hcalls : Fragment.calls (Basis.ofDocument document options declared descriptors) ds [] =
      earlier ++ c :: later)
    (hreturned : c.outcome = .ok fragment) :
    let basis := Basis.ofDocument document options declared descriptors
    ∃ sources, fragment = Fragment.ofSources basis c.root sources ∧
      (∀ s ∈ sources, ∀ g ∈ (Definition.type (basis.inputFrom s)).fields,
        basis.Refers s.mode s.fields g.type.baseName ∨
          ∃ f ∈ s.fields, (∀ target, f.type.base ≠ .object target) ∧
            g.type.baseName = f.type.base.name) ∧
      ∀ name, name ∉ basis.declared →
        ((∃ mode : InputMode, name = mode.inputName c.root.typeName) ∨
          ∃ s ∈ sources, basis.Refers s.mode s.fields name) →
        ((∃ e ∈ earlier ++ [c], e.Defines name) ↔ ¬ ∃ e ∈ earlier, e.Leaves name) := by
  intro basis
  have hplain : basis.Plain := plain_ofDocument hwritten hns hdescriptors
  have hc : c ∈ Fragment.calls basis ds [] := by
    rw [hcalls]
    exact List.mem_append_right _ List.mem_cons_self
  obtain ⟨d, hd, hcall⟩ := Fragment.eq_call_of_mem hc
  have hroot : d = c.root := congrArg Fragment.Call.root hcall.symm
  have houtcome : (Fragment.generate basis c.root c.before).1 = .ok fragment := by
    rw [← hreturned, ← hroot]
    exact congrArg Fragment.Call.outcome hcall.symm
  have hafter : (Fragment.generate basis c.root c.before).2 = c.after := by
    rw [← hroot]
    exact congrArg Fragment.Call.after hcall.symm
  obtain ⟨sources, -, hfragment⟩ :=
    Fragment.generate_remembers hplain (hds _ (hroot ▸ hd)) c.before
  obtain ⟨hfragment, hsupplied⟩ := hfragment fragment houtcome
  refine ⟨sources, hfragment, fun s _ g hg => field_inputFrom hg, fun name hdeclared hname => ?_⟩
  have hknown : name ∈ c.after := by
    rw [← hafter]
    simpa [hdeclared] using hsupplied name hname
  exact Fragment.defined_iff_not_left hplain hds hcalls ⟨fragment, hreturned⟩ (by simp) hknown

end Document

/-! ## Pages and drafts with notes -/

/-- Pages and drafts share the type of their notes. The input type of a mark would have no fields,
as its only field holds a union. -/
def notebook : Document :=
  Document.ofDefinitions
    [ .type (Fragment.objectType "Draft"
        [ Fragment.plainField "id" [] (.nonNull (.named "ID")),
          Fragment.plainField "note" [] (.named "Note"),
          Fragment.plainField "mark" [] (.named "Mark") ]),
      .type (Fragment.objectType "Page"
        [ Fragment.plainField "id" [] (.nonNull (.named "ID")),
          Fragment.plainField "note" [] (.named "Note") ]),
      .type (Fragment.objectType "Note" [Fragment.plainField "text" [] (.named "String")]),
      .type (Fragment.objectType "Mark" [Fragment.plainField "on" [] (.named "Marked")]),
      .type ⟨none, "Marked", [], .union ["Page", "Note"]⟩ ]

def draftDescriptor : Descriptor :=
  { typeName := "Draft"
    idName := "id"
    idType := .nonNull (.named (.scalar "ID"))
    fields := [⟨"note", .named (.object "Note")⟩, ⟨"mark", .named (.object "Mark")⟩] }

def pageDescriptor : Descriptor :=
  { typeName := "Page"
    idName := "id"
    idType := .nonNull (.named (.scalar "ID"))
    fields := [⟨"note", .named (.object "Note")⟩] }

def notebookBasis : Basis :=
  Basis.ofDocument notebook {} none []

def noteSource (mode : InputMode) : InputSource :=
  ⟨"Note", mode, [⟨"text", .named (.scalar "String")⟩]⟩

def pageSource (mode : InputMode) : InputSource :=
  ⟨"Page", mode, pageDescriptor.fields⟩

theorem notebook_plain : notebookBasis.Plain :=
  plain_ofDocument (by decide) (by decide) (by simp)

theorem draftDescriptor_written : draftDescriptor.Written :=
  { typeName := by decide, idName := by decide, idType := by decide, fields := by decide }

theorem pageDescriptor_written : pageDescriptor.Written :=
  { typeName := by decide, idName := by decide, idType := by decide, fields := by decide }

theorem noteSource_plain (mode : InputMode) : (noteSource mode).Plain :=
  ⟨by simp only [noteSource]; decide, by simp only [noteSource]; decide⟩

theorem pageSource_plain (mode : InputMode) : (pageSource mode).Plain :=
  ⟨by simp only [pageSource]; decide, by simp only [pageSource]; decide⟩

theorem call_draft : Fragment.call notebookBasis draftDescriptor [] =
    ⟨draftDescriptor, [], .error (.emptyInput "MarkInput" "Mark"), ["NoteInput"]⟩ := rfl

/-- The input types that are known after pages. -/
def knownAfterPages : List String :=
  ["NoteInput", "PageInput", "NoteUpdateInput", "PageUpdateInput"]

theorem call_page_after_draft : Fragment.call notebookBasis pageDescriptor ["NoteInput"] =
    ⟨pageDescriptor, ["NoteInput"], .ok (Fragment.ofSources notebookBasis pageDescriptor
        [pageSource .create, noteSource .update, pageSource .update]), knownAfterPages⟩ :=
  Fragment.call_of_inputs notebook_plain pageDescriptor_written.toPlain rfl (by decide) rfl (by
    simpa using ⟨pageSource_plain .create, noteSource_plain .update, pageSource_plain .update⟩)

theorem call_page_again : Fragment.call notebookBasis pageDescriptor knownAfterPages =
    ⟨pageDescriptor, knownAfterPages, .ok (Fragment.ofSources notebookBasis pageDescriptor []),
      knownAfterPages⟩ :=
  Fragment.call_of_inputs notebook_plain pageDescriptor_written.toPlain rfl (by decide) rfl (by
    simp)

/-- The fragment of drafts fails and leaves the input type of notes known. When pages are asked for
twice after it, the second fragment has no input types, and the two that its mutations refer to are
defined all the same. -/
theorem references_supplied_notebook :
    notebook.Written ∧ draftDescriptor.Written ∧ pageDescriptor.Written ∧
    ∃ (failed returned again : Fragment.Call) (fragment : List Definition),
      Fragment.calls (Basis.ofDocument notebook {} none [])
          [draftDescriptor, pageDescriptor, pageDescriptor] [] = [failed, returned, again] ∧
        failed.Leaves "NoteInput" ∧ again.outcome = .ok fragment ∧ inputTypes fragment = [] ∧
        ∀ mode : InputMode, ∃ e ∈ [failed, returned, again], e.Defines (mode.inputName "Page") := by
  have hwritten : notebook.Written := by decide
  have hcalls : Fragment.calls (Basis.ofDocument notebook {} none [])
      [draftDescriptor, pageDescriptor, pageDescriptor] [] =
        [Fragment.call notebookBasis draftDescriptor [],
          Fragment.call notebookBasis pageDescriptor ["NoteInput"]] ++
          Fragment.call notebookBasis pageDescriptor knownAfterPages :: [] := by
    show Fragment.calls notebookBasis _ _ = _
    simp only [Fragment.calls, call_draft, call_page_after_draft]
    rfl
  have hds : ∀ d ∈ [draftDescriptor, pageDescriptor, pageDescriptor], d.Written := by
    simpa using ⟨draftDescriptor_written, pageDescriptor_written⟩
  obtain ⟨_, -, -, hsupplied⟩ := references_supplied hwritten (by decide) (by simp) hds hcalls
    (congrArg Fragment.Call.outcome call_page_again)
  have hleaves : (Fragment.call notebookBasis draftDescriptor []).Leaves "NoteInput" :=
    ⟨⟨_, rfl⟩, List.mem_singleton_self _, by simp [Fragment.call]⟩
  refine ⟨hwritten, draftDescriptor_written, pageDescriptor_written, _, _, _, _, hcalls, hleaves,
    congrArg Fragment.Call.outcome call_page_again, Fragment.inputTypes_ofSources _ _,
    fun mode => ?_⟩
  refine (hsupplied (mode.inputName "Page") ?_ (.inl ⟨mode, rfl⟩)).mpr ?_
  · cases mode <;> decide
  · -- The call that fails leaves another name, and the one behind it does not fail.
    rw [call_draft, call_page_after_draft]
    rintro ⟨e, he, ⟨failure, hfailed⟩, hafter, -⟩
    simp only [List.mem_cons, List.not_mem_nil, or_false] at he
    rcases he with rfl | rfl
    · cases mode <;> exact absurd hafter (by decide)
    · cases hfailed

/-- The fragment of drafts fails, as the input type of a mark has no fields, and leaves the input
type of notes known. The fragment of pages that is asked for next is returned and refers to it, and
no fragment defines it. -/
theorem references_left_notebook :
    ∃ fragment,
      (Fragment.calls notebookBasis [draftDescriptor, pageDescriptor] []).map (·.outcome) =
        [.error (.emptyInput "MarkInput" "Mark"), .ok fragment] ∧
      (∃ d ∈ inputTypes fragment, ∃ g ∈ (Definition.type d).fields,
        g.type.baseName = "NoteInput") ∧
      "NoteInput" ∉ notebookBasis.declared ∧ "NoteInput" ∉ (inputTypes fragment).map (·.name) := by
  refine ⟨Fragment.ofSources notebookBasis pageDescriptor
    [pageSource .create, noteSource .update, pageSource .update], ?_, ?_⟩
  · simp only [Fragment.calls, call_draft, call_page_after_draft]
    rfl
  · rw [Fragment.inputTypes_ofSources]
    exact ⟨⟨_, List.mem_cons_self, _, List.mem_cons_self, rfl⟩, by decide, by decide⟩

end RecordApi
