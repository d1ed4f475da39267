import Mathlib.Data.List.Dedup
import Mathlib.Data.List.Flatten
import RecordApi.Proofs.Derivation.RememberedInputs

/-!
# Nested calls

The derivation of an input type calls itself for the objects that its fields hold, and follows the
references between types wherever they lead. Its calls are described here without the bound by which
the derivation is kept finite, and the bound is shown to be out of reach: on the way from a call to
the calls nested in it no input type is expanded twice, and each belongs to another known type. What
is expanded and completed stays known, so that it is not expanded again by a later call.
-/

namespace RecordApi

open RecordApi.Language

/-- Calls made one after another. A call is answered at once, or its source is expanded: then it
makes calls itself, and unless it fails it is completed. -/
inductive Calls where
  | none
  | met (source : InputSource) (rest : Calls)
  | expanded (source : InputSource) (nested : Calls) (completed : Bool) (rest : Calls)

namespace Calls

/-- Calls with more behind them. -/
def append : Calls → Calls → Calls
  | none, more => more
  | met s rest, more => met s (rest.append more)
  | expanded s nested done rest, more => expanded s nested done (rest.append more)

/-- The sources that are expanded, each behind those that are expanded on its behalf. -/
def expansions : Calls → List InputSource
  | none => []
  | met _ rest => rest.expansions
  | expanded s nested _ rest => nested.expansions ++ [s] ++ rest.expansions

/-- The sources whose expansion is completed. -/
def completions : Calls → List InputSource
  | none => []
  | met _ rest => rest.completions
  | expanded s nested done rest =>
    nested.completions ++ (if done then [s] else []) ++ rest.completions

/-- How deep expansions are nested in one another. -/
def depth : Calls → Nat
  | none => 0
  | met _ rest => rest.depth
  | expanded _ nested _ rest => max (nested.depth + 1) rest.depth

/-- Sources that are expanded by calls of which each is nested in the one before. A call that is
answered at once makes no calls. -/
inductive Chain : Calls → List InputSource → Prop where
  | nil {calls : Calls} : Chain calls []
  | cons {s : InputSource} {nested rest : Calls} {done : Bool} {chain : List InputSource} :
      Chain nested chain → Chain (expanded s nested done rest) (s :: chain)
  | behind {s : InputSource} {nested rest : Calls} {done : Bool} {chain : List InputSource} :
      Chain rest chain → Chain (expanded s nested done rest) chain
  | behindMet {s : InputSource} {rest : Calls} {chain : List InputSource} :
      Chain rest chain → Chain (met s rest) chain

/-- Expansions are nested as deep as the longest chain of them is long. -/
theorem exists_chain (calls : Calls) : ∃ chain, calls.Chain chain ∧ chain.length = calls.depth := by
  induction calls with
  | none => exact ⟨[], .nil, rfl⟩
  | met s rest ih =>
      obtain ⟨chain, hchain, hlength⟩ := ih
      exact ⟨chain, .behindMet hchain, hlength⟩
  | expanded s nested done rest ihnested ih =>
      obtain ⟨inner, hinner, hdepth⟩ := ihnested
      obtain ⟨chain, hchain, hlength⟩ := ih
      rcases Nat.le_total rest.depth (nested.depth + 1) with hle | hle
      · exact ⟨s :: inner, .cons hinner, by simp [depth, hdepth, Nat.max_eq_left hle]⟩
      · exact ⟨chain, .behind hchain, by simp [depth, hlength, Nat.max_eq_right hle]⟩

end Calls

/-! ## Runs -/

namespace Basis

variable (basis : Basis)

/-- What data fields call for: the input types of the objects that they hold. -/
def nestedSources (mode : InputMode) (fields : List DataField) : List InputSource :=
  fields.filterMap fun field =>
    match field.type.base with
    | .object name => (basis.nestedFields? name).map fun fields => ⟨name, mode, fields⟩
    | _ => none

/-- What the fragment of a root type calls for. -/
def rootSources (d : Descriptor) : List InputSource :=
  [⟨d.typeName, .create, basis.inputFields d⟩, ⟨d.typeName, .update, basis.inputFields d⟩]

/-- Whether the input type of a source is declared, derived, or being derived. -/
def Meets (active : List String) (before : Derived) (s : InputSource) : Prop :=
  s.inputName ∈ basis.declared ∨ s.inputName ∈ before.names ∨ s.inputName ∈ active

theorem nestedSources_cons (mode : InputMode) (field : DataField) (rest : List DataField) :
    basis.nestedSources mode (field :: rest) =
      basis.nestedSources mode [field] ++ basis.nestedSources mode rest := by
  rw [nestedSources, nestedSources, nestedSources, ← List.filterMap_append]
  rfl

variable {basis}

theorem mem_nestedSources {mode : InputMode} {fields : List DataField} {s : InputSource}
    (h : s ∈ basis.nestedSources mode fields) :
    s.mode = mode ∧ (basis.nestedFields? s.typeName).isSome := by
  obtain ⟨field, -, hfield⟩ := List.mem_filterMap.mp h
  split at hfield
  · obtain ⟨inner, hinner, rfl⟩ := Option.map_eq_some_iff.mp hfield
    exact ⟨rfl, by simp [hinner]⟩
  · cases hfield

end Basis

/-- The calls for some sources in turn, while the input types of the active names are being derived,
and how they end: the first that fails is the last. No depth is given. -/
inductive Runs (basis : Basis) :
    List String → List InputSource → Derived → Calls → Except Failure Unit → Derived → Prop where
  | done {active : List String} {before : Derived} :
      Runs basis active [] before .none (.ok ()) before
  | met {active : List String} {s : InputSource} {more : List InputSource} {before after : Derived}
      {rest : Calls} {ends : Except Failure Unit} :
      basis.Meets active before s →
      Runs basis active more before rest ends after →
      Runs basis active (s :: more) before (.met s rest) ends after
  | failed {active : List String} {s : InputSource} {more : List InputSource}
      {before after : Derived} {nested : Calls} {failure : Failure} :
      ¬ basis.Meets active before s →
      Runs basis (s.inputName :: active) (basis.nestedSources s.mode s.fields) before nested
        (.error failure) after →
      Runs basis active (s :: more) before (.expanded s nested false .none) (.error failure) after
  | starved {active : List String} {s : InputSource} {more : List InputSource}
      {before after : Derived} {nested : Calls} :
      ¬ basis.Meets active before s →
      Runs basis (s.inputName :: active) (basis.nestedSources s.mode s.fields) before nested
        (.ok ()) after →
      s.fields.filterMap (basis.inputEntry s.mode) = [] →
      Runs basis active (s :: more) before (.expanded s nested false .none)
        (.error (.emptyInput s.inputName s.typeName)) after
  | added {active : List String} {s : InputSource} {more : List InputSource}
      {before middle after : Derived} {nested rest : Calls} {ends : Except Failure Unit} :
      ¬ basis.Meets active before s →
      Runs basis (s.inputName :: active) (basis.nestedSources s.mode s.fields) before nested
        (.ok ()) middle →
      s.fields.filterMap (basis.inputEntry s.mode) ≠ [] →
      Runs basis active more ⟨middle.names ++ [s.inputName], middle.inputs ++ [basis.inputFrom s]⟩
        rest ends after →
      Runs basis active (s :: more) before (.expanded s nested true rest) ends after

namespace Runs

variable {basis : Basis} {active : List String} {sources first second : List InputSource}
  {before middle after after' : Derived} {calls calls' more : Calls}
  {ends ends' : Except Failure Unit}

/-- There is one way only to make the calls. -/
theorem unique (h : Runs basis active sources before calls ends after)
    (h' : Runs basis active sources before calls' ends' after') :
    calls = calls' ∧ ends = ends' ∧ after = after' := by
  induction h generalizing calls' ends' after' with
  | done =>
      cases h'
      exact ⟨rfl, rfl, rfl⟩
  | met hmeets _ ih =>
      cases h' with
      | met _ hrest' =>
          obtain ⟨rfl, rfl, rfl⟩ := ih hrest'
          exact ⟨rfl, rfl, rfl⟩
      | failed hnew | starved hnew | added hnew => exact absurd hmeets hnew
  | failed hnew _ ih =>
      cases h' with
      | met hmeets => exact absurd hmeets hnew
      | failed _ hnested' =>
          obtain ⟨rfl, hends, rfl⟩ := ih hnested'
          exact ⟨rfl, hends, rfl⟩
      | starved _ hnested' | added _ hnested' => cases (ih hnested').2.1
  | starved hnew _ hempty ih =>
      cases h' with
      | met hmeets => exact absurd hmeets hnew
      | failed _ hnested' => cases (ih hnested').2.1
      | starved _ hnested' _ =>
          obtain ⟨rfl, -, rfl⟩ := ih hnested'
          exact ⟨rfl, rfl, rfl⟩
      | added _ _ hfed => exact absurd hempty hfed
  | added hnew _ hfed _ ihnested ih =>
      cases h' with
      | met hmeets => exact absurd hmeets hnew
      | failed _ hnested' => cases (ihnested hnested').2.1
      | starved _ _ hempty => exact absurd hempty hfed
      | added _ hnested' _ hrest' =>
          obtain ⟨rfl, -, rfl⟩ := ihnested hnested'
          obtain ⟨rfl, rfl, rfl⟩ := ih hrest'
          exact ⟨rfl, rfl, rfl⟩

theorem append (h : Runs basis active first before calls (.ok ()) middle)
    (h' : Runs basis active second middle more ends after) :
    Runs basis active (first ++ second) before (calls.append more) ends after := by
  generalize hok : (.ok () : Except Failure Unit) = ok at h
  induction h with
  | done => exact h'
  | met hmeets _ ih => exact .met hmeets (ih h' hok)
  | failed | starved => cases hok
  | added hnew hnested hfed _ _ ih => exact .added hnew hnested hfed (ih h' hok)

theorem append_error {failure : Failure}
    (h : Runs basis active first before calls (.error failure) after)
    (second : List InputSource) :
    Runs basis active (first ++ second) before calls (.error failure) after := by
  generalize herror : (.error failure : Except Failure Unit) = error at h ⊢
  induction h with
  | done => cases herror
  | met hmeets _ ih => exact .met hmeets (ih herror)
  | failed hnew hnested => exact .failed hnew hnested
  | starved hnew hnested hempty => exact .starved hnew hnested hempty
  | added hnew hnested hfed _ _ ih => exact .added hnew hnested hfed (ih herror)

/-! ## What is expanded -/

/-- What a chain begins with is called for and new, and the rest of the chain belongs to the calls
that are nested in its call. -/
theorem of_chain_cons (h : Runs basis active sources before calls ends after) {s : InputSource}
    {chain : List InputSource} (hchain : calls.Chain (s :: chain)) :
    s ∈ sources ∧ ∃ start nested stops stop, ¬ basis.Meets active start s ∧
      Runs basis (s.inputName :: active) (basis.nestedSources s.mode s.fields) start nested stops
        stop ∧
      nested.Chain chain := by
  induction h with
  | done => cases hchain
  | met _ _ ih =>
      cases hchain with
      | behindMet hrest => exact (ih hrest).imp_left (List.mem_cons_of_mem _)
  | failed hnew hnested _ | starved hnew hnested _ _ =>
      cases hchain with
      | cons hinner => exact ⟨List.mem_cons_self, _, _, _, _, hnew, hnested, hinner⟩
      | behind hrest => cases hrest
  | added hnew hnested _ _ _ ih =>
      cases hchain with
      | cons hinner => exact ⟨List.mem_cons_self, _, _, _, _, hnew, hnested, hinner⟩
      | behind hrest => exact (ih hrest).imp_left (List.mem_cons_of_mem _)

/-- In a chain no input type is expanded twice, and none that is declared or being derived. -/
theorem nodup_chain (h : Runs basis active sources before calls ends after)
    {chain : List InputSource} (hchain : calls.Chain chain) :
    (chain.map (·.inputName)).Nodup ∧
      ∀ s ∈ chain, s.inputName ∉ active ∧ s.inputName ∉ basis.declared := by
  induction chain generalizing active sources before calls ends after with
  | nil => simp
  | cons s chain ih =>
      obtain ⟨-, _, _, _, _, hnew, hnested, hinner⟩ := h.of_chain_cons hchain
      obtain ⟨hdistinct, hfresh⟩ := ih hnested hinner
      simp only [Basis.Meets, not_or] at hnew
      refine ⟨List.nodup_cons.mpr ⟨fun hmem => ?_, hdistinct⟩, ?_⟩
      · obtain ⟨t, ht, hsame⟩ := List.mem_map.mp hmem
        exact (hfresh t ht).1 (hsame ▸ List.mem_cons_self)
      · refine List.forall_mem_cons.mpr ⟨⟨hnew.2.2, hnew.1⟩, fun t ht => ?_⟩
        exact ⟨fun hmem => (hfresh t ht).1 (List.mem_cons_of_mem _ hmem), (hfresh t ht).2⟩

/-- What is called for in one mode is expanded in that mode all the way down. -/
theorem mode_of_chain {mode : InputMode} (h : Runs basis active sources before calls ends after)
    (hmode : ∀ s ∈ sources, s.mode = mode) {chain : List InputSource}
    (hchain : calls.Chain chain) : ∀ s ∈ chain, s.mode = mode := by
  induction chain generalizing active sources before calls ends after with
  | nil => simp
  | cons s chain ih =>
      obtain ⟨hs, _, _, _, _, -, hnested, hinner⟩ := h.of_chain_cons hchain
      have hinnerMode := ih hnested (fun t ht => (Basis.mem_nestedSources ht).1.trans (hmode s hs))
        hinner
      exact List.forall_mem_cons.mpr ⟨hmode s hs, hinnerMode⟩

/-- The types of a chain are among the known ones. -/
theorem typeName_of_chain {names : List String}
    (hnames : ∀ name, (basis.nestedFields? name).isSome → name ∈ names)
    (h : Runs basis active sources before calls ends after)
    (hsources : ∀ s ∈ sources, s.typeName ∈ names) {chain : List InputSource}
    (hchain : calls.Chain chain) : ∀ s ∈ chain, s.typeName ∈ names := by
  induction chain generalizing active sources before calls ends after with
  | nil => simp
  | cons s chain ih =>
      obtain ⟨hs, _, _, _, _, -, hnested, hinner⟩ := h.of_chain_cons hchain
      have hinnerNames := ih hnested
        (fun t ht => hnames t.typeName (Basis.mem_nestedSources ht).2) hinner
      exact List.forall_mem_cons.mpr ⟨hsources s hs, hinnerNames⟩

/-- A chain is no longer than there are types. Its input types are of one mode, so they belong to
different types. -/
theorem length_chain_le {names : List String}
    (hnames : ∀ name, (basis.nestedFields? name).isSome → name ∈ names)
    (h : Runs basis active sources before calls ends after)
    (hsources : ∀ s ∈ sources, s.typeName ∈ names) {chain : List InputSource}
    (hchain : calls.Chain chain) : chain.length ≤ names.dedup.length := by
  obtain ⟨mode, hmode⟩ : ∃ mode, ∀ s ∈ chain, s.mode = mode := by
    cases chain with
    | nil => exact ⟨.create, by simp⟩
    | cons s chain =>
        obtain ⟨-, _, _, _, _, -, hnested, hinner⟩ := h.of_chain_cons hchain
        exact ⟨s.mode, List.forall_mem_cons.mpr
          ⟨rfl, hnested.mode_of_chain (fun t ht => (Basis.mem_nestedSources ht).1) hinner⟩⟩
  -- Within one mode an input type has the name of one type only.
  have htypes : (chain.map (·.typeName)).Nodup := by
    have hinputs : chain.map (·.inputName) = (chain.map (·.typeName)).map mode.inputName := by
      rw [List.map_map]
      exact List.map_congr_left fun s hs => congrArg (InputMode.inputName · s.typeName) (hmode s hs)
    exact List.Nodup.of_map mode.inputName (hinputs ▸ (h.nodup_chain hchain).1)
  have hsubset : chain.map (·.typeName) ⊆ names.dedup := by
    intro name hname
    obtain ⟨s, hs, rfl⟩ := List.mem_map.mp hname
    exact List.mem_dedup.mpr (h.typeName_of_chain hnames hsources hchain s hs)
  simpa using htypes.length_le_of_subset hsubset

/-- What is completed is what stays known. -/
theorem remembered (h : Runs basis active sources before calls ends after) :
    Remembered basis (fun _ => True) active before calls.completions after := by
  induction h with
  | done => exact .refl _
  | met _ _ ih => exact ih
  | failed _ _ ih | starved _ _ _ ih =>
      simpa [Calls.completions] using ih.close
  | added hnew _ _ _ ihnested ih =>
      simp only [Basis.Meets, not_or] at hnew
      exact (ihnested.emit ⟨hnew.2.1, hnew.2.2, hnew.1⟩ trivial).trans ih

/-- Calls that do not fail complete all that they expand. -/
theorem completions_of_ok (h : Runs basis active sources before calls (.ok ()) after) :
    calls.completions = calls.expansions := by
  generalize hok : (.ok () : Except Failure Unit) = ok at h
  induction h with
  | done => rfl
  | met _ _ ih => exact ih hok
  | failed | starved => cases hok
  | added _ _ _ _ ihnested ih =>
      simp only [Calls.completions, Calls.expansions, ihnested rfl, ih hok, if_true]

end Runs

/-! ## The traversal -/

section Traversal

variable {basis : Basis} {active : List String} {mode : InputMode} {α β : Type}
  {sources first second : List InputSource} {good : α → Prop} {fine : β → Prop}

/-- The derivation makes the calls for some sources in turn and ends as they do, and if it answers,
it answers well. -/
def Performs (basis : Basis) (active : List String) (sources : List InputSource) (x : Derive α)
    (good : α → Prop) : Prop :=
  ∀ before, ∃ calls,
    Runs basis active sources before calls ((x.outcome before).1.map fun _ => ())
      (x.outcome before).2 ∧
    ∀ a, (x.outcome before).1 = .ok a → good a

theorem Performs.pure {a : α} (h : good a) : Performs basis active [] (pure a) good := by
  intro before
  refine ⟨.none, .done, ?_⟩
  rintro _ ⟨⟩
  exact h

theorem Performs.bind {x : Derive α} {f : α → Derive β} (hx : Performs basis active first x good)
    (hf : ∀ a, good a → Performs basis active second (f a) fine) :
    Performs basis active (first ++ second) (x >>= f) fine := by
  intro before
  obtain ⟨calls, hcalls, hanswer⟩ := hx before
  rw [Derive.outcome_bind]
  rcases hrun : x.outcome before with ⟨failure | a, middle⟩
  · rw [hrun] at hcalls
    exact ⟨calls, hcalls.append_error second, nofun⟩
  · rw [hrun] at hcalls hanswer
    obtain ⟨more, hmore, hanswer'⟩ := hf a (hanswer a rfl) middle
    exact ⟨calls.append more, hcalls.append hmore, hanswer'⟩

theorem Performs.map {x : Derive α} {f : α → β} (hx : Performs basis active sources x good)
    (hf : ∀ a, good a → fine (f a)) :
    Performs basis active sources (do return f (← x)) fine := by
  have hmapped : Performs basis active (sources ++ []) (do return f (← x)) fine :=
    hx.bind fun a ha => .pure (hf a ha)
  rwa [List.append_nil] at hmapped

namespace Derive

theorem performs_inputField {nested : String → List DataField → Derive String}
    (field : DataField)
    (hnested : ∀ name fields, basis.nestedFields? name = some fields →
      Performs basis active [⟨name, mode, fields⟩] (nested name fields)
        (· = mode.inputName name)) :
    Performs basis active (basis.nestedSources mode [field]) (inputField basis mode nested field)
      (· = basis.inputEntry mode field) := by
  simp only [Basis.nestedSources, List.filterMap_cons, List.filterMap_nil]
  unfold inputField Basis.inputEntry
  cases field.type.base with
  | scalar name | enum name => exact .pure rfl
  | object name =>
      dsimp only
      cases hfields : basis.nestedFields? name with
      | none => exact .pure rfl
      | some fields =>
          refine (hnested name fields hfields).map fun answer hanswer => ?_
          rw [hanswer]
          rfl

theorem performs_inputFields {nested : String → List DataField → Derive String}
    (fields : List DataField)
    (hnested : ∀ name fields, basis.nestedFields? name = some fields →
      Performs basis active [⟨name, mode, fields⟩] (nested name fields)
        (· = mode.inputName name)) :
    Performs basis active (basis.nestedSources mode fields) (inputFields basis mode nested fields)
      (· = fields.filterMap (basis.inputEntry mode)) := by
  induction fields with
  | nil => exact .pure rfl
  | cons field rest ih =>
      rw [Basis.nestedSources_cons]
      refine (performs_inputField field hnested).bind fun first hfirst =>
        ih.map fun more hmore => ?_
      rw [hfirst, hmore, List.filterMap_cons]
      cases basis.inputEntry mode field <;> rfl

/-- The derivation of one input type makes the calls for it. The induction is on the bound, which
the types that are being derived never use up. -/
theorem performs_input {names : List String}
    (hnames : ∀ name, (basis.nestedFields? name).isSome → name ∈ names)
    (bound : Nat) (types : List String) (typeName : String) (fields : List DataField)
    (hname : typeName ∈ names) (hroom : Room names bound types) :
    Performs basis (types.map mode.inputName) [⟨typeName, mode, fields⟩]
      (input basis mode bound (types.map mode.inputName) typeName fields)
      (· = mode.inputName typeName) := by
  induction bound using Nat.strongRecOn generalizing types typeName fields with
  | ind bound ih =>
      intro before
      rw [outcome_input]
      by_cases hmet : mode.inputName typeName ∈ basis.declared ∨
          mode.inputName typeName ∈ before.names ∨
          mode.inputName typeName ∈ types.map mode.inputName
      · rw [if_pos hmet]
        refine ⟨_, .met hmet .done, ?_⟩
        rintro _ ⟨⟩
        rfl
      · rw [if_neg hmet]
        have hfresh : typeName ∉ types := fun h => hmet (.inr (.inr (List.mem_map_of_mem h)))
        obtain ⟨more, rfl, hmore⟩ := hroom.deeper hname hfresh
        have hnested : Performs basis (mode.inputName typeName :: types.map mode.inputName)
            (basis.nestedSources mode fields)
            (inputFields basis mode
              (input basis mode more (mode.inputName typeName :: types.map mode.inputName)) fields)
            (· = fields.filterMap (basis.inputEntry mode)) :=
          performs_inputFields fields fun name nestedFields hnestedFields =>
            ih more (Nat.lt_succ_self more) (typeName :: types) name nestedFields
              (hnames name (by simp [hnestedFields])) hmore
        obtain ⟨calls, hcalls, hanswer⟩ := hnested before
        -- The nested calls end as the derivation of the fields does, and say which case applies.
        let s : InputSource := ⟨typeName, mode, fields⟩
        have hnew : ¬ basis.Meets (types.map mode.inputName) before s := hmet
        dsimp only
        rcases hrun : (inputFields basis mode (input basis mode more
            (mode.inputName typeName :: types.map mode.inputName)) fields).outcome before with
          ⟨failure | inputs, after⟩
        · rw [hrun] at hcalls
          exact ⟨_, .failed (s := s) hnew hcalls, nofun⟩
        · rw [hrun] at hcalls hanswer
          obtain rfl := hanswer inputs rfl
          dsimp only
          split
          · next hempty => exact ⟨_, .starved (s := s) hnew hcalls hempty, nofun⟩
          · next hfed =>
            refine ⟨_, .added (s := s) hnew hcalls hfed .done, ?_⟩
            rintro _ ⟨⟩
            rfl

end Derive

end Traversal

/-! ## Fragments -/

namespace Fragment

variable {basis : Basis}

/-- The input types of a fragment are derived by the calls for them, be the root type one that is
known by its name or not. -/
theorem performs_inputs (basis : Basis) (d : Descriptor) :
    Performs basis [] (basis.rootSources d) (inputs basis d) fun _ => True := by
  have hnames (name : String) (h : (basis.nestedFields? name).isSome) :
      name ∈ d.typeName :: basis.knownNames :=
    List.mem_cons_of_mem _ (Basis.mem_knownNames h)
  have hmode (mode : InputMode) :
      Performs basis [] [⟨d.typeName, mode, basis.inputFields d⟩]
        (Derive.input basis mode (Derive.depth basis) [] d.typeName (basis.inputFields d))
        (· = mode.inputName d.typeName) :=
    Derive.performs_input hnames _ [] _ _ List.mem_cons_self
      ⟨.nil, by simp, by simp [Basis.knownNames, Derive.depth]⟩
  exact (hmode .create).bind fun _ _ => (hmode .update).map fun _ _ => trivial

/-- The calls for input types that a call for a fragment makes, and how they end. -/
def Call.Makes (basis : Basis) (c : Call) (calls : Calls) (ends : Except Failure Unit) : Prop :=
  ∃ inputs, Runs basis [] (basis.rootSources c.root) ⟨c.before, []⟩ calls ends ⟨c.after, inputs⟩

theorem exists_makes (basis : Basis) (d : Descriptor) (known : List String) :
    ∃ calls ends, (call basis d known).Makes basis calls ends ∧
      ((call basis d known).outcome.isOk → ends.isOk) := by
  obtain ⟨calls, hcalls, -⟩ := performs_inputs basis d ⟨known, []⟩
  simp only [call, generate, Call.Makes]
  rw [show (inputs basis d).run ⟨known, []⟩ = (inputs basis d).outcome ⟨known, []⟩ from rfl]
  rcases hrun : (inputs basis d).outcome ⟨known, []⟩ with ⟨failure | ⟨⟩, names, types⟩
  · rw [hrun] at hcalls
    exact ⟨calls, _, ⟨types, hcalls⟩, id⟩
  · rw [hrun] at hcalls
    exact ⟨calls, _, ⟨types, hcalls⟩, fun _ => rfl⟩

/-- What is completed in a sequence of calls for fragments is completed once, and calls that do not
fail complete what they expand. The induction is on the sequence: what the first call completes is
known to the others. -/
theorem exists_runs (basis : Basis) (ds : List Descriptor) (known : List String) :
    ∃ runs : List (Calls × Except Failure Unit),
      List.Forall₂ (fun c run => c.Makes basis run.1 run.2 ∧ (c.outcome.isOk → run.2.isOk))
        (calls basis ds known) runs ∧
      (∀ run ∈ runs, run.2.isOk → run.1.completions = run.1.expansions) ∧
      ((runs.flatMap (·.1.completions)).map (·.inputName)).Nodup ∧
      ∀ s ∈ runs.flatMap (·.1.completions), s.inputName ∉ known := by
  induction ds generalizing known with
  | nil => exact ⟨[], .nil, by simp, by simp, by simp⟩
  | cons d rest ih =>
      obtain ⟨first, ends, ⟨inputs, hfirst⟩, hends⟩ := exists_makes basis d known
      obtain ⟨runs, hruns, hcompleted, hdistinct, hfresh⟩ := ih (call basis d known).after
      have hremembered := hfirst.remembered
      have hafter : (call basis d known).after =
          known ++ first.completions.map (·.inputName) := hremembered.names
      rw [hafter] at hfresh
      refine ⟨(first, ends) :: runs, .cons ⟨⟨inputs, hfirst⟩, hends⟩ hruns, ?_, ?_, ?_⟩
      · refine List.forall_mem_cons.mpr ⟨fun hok => ?_, hcompleted⟩
        cases ends with
        | error failure => cases hok
        | ok => exact hfirst.completions_of_ok
      · rw [List.flatMap_cons, List.map_append, List.nodup_append]
        refine ⟨hremembered.distinct, hdistinct, ?_⟩
        rintro name hname _ hlater rfl
        obtain ⟨s, hs, rfl⟩ := List.mem_map.mp hlater
        exact hfresh s hs (List.mem_append_right _ hname)
      · rw [List.flatMap_cons, List.forall_mem_append]
        exact ⟨fun s hs => (hremembered.fresh s hs).1,
          fun s hs hname => hfresh s hs (List.mem_append_left _ hname)⟩

end Fragment

/-- A root type that has been described is one of the object types of its document. -/
theorem typeName_mem_of_describeRoot {document : Document} {selector : Option IdSelector}
    {name : String} {d : Descriptor}
    (h : Assembly.describeRoot document selector name = .ok d) (options : Options)
    (declared : Option (List String)) (descriptors : List (String × Descriptor)) :
    d.typeName ∈ (Basis.ofDocument document options declared descriptors).types.map (·.name) := by
  obtain ⟨rfl, fields, -, hfields, -⟩ := describeRoot_eq_ok h
  obtain ⟨t, ht, hname, interfaces, hbody⟩ := exists_object_of_objectFields? hfields
  rw [← hname]
  exact List.mem_map_of_mem (List.mem_filter.mpr ⟨ht, by simp [hbody]⟩)

/-- The derivation of input types comes to an end, whatever its types refer to. For each root type
and whatever has been derived before, the calls for its two input types, which are bounded by
nothing, can be made in just one way, and that is what the derivation does. On the way down from a
call no input type is expanded twice, so that expansions are nested no deeper than there are object
and interface types of different names, if the root types are among them. And in any sequence of
calls for fragments, some of which may fail, those that do not fail expand no input type twice. -/
theorem nested_calls_end (document : Document) (options : Options) (declared : Option (List String))
    (descriptors : List (String × Descriptor)) :
    let basis := Basis.ofDocument document options declared descriptors
    let types := basis.types.map (·.name)
    (∀ (d : Descriptor) (before : Derived), ∃ calls ends after,
      Runs basis [] (basis.rootSources d) before calls ends after ∧
      (∀ calls' ends' after', Runs basis [] (basis.rootSources d) before calls' ends' after' →
        calls' = calls ∧ ends' = ends ∧ after' = after) ∧
      (Fragment.inputs basis d).outcome before = (ends, after) ∧
      (∀ chain, calls.Chain chain → (chain.map (·.inputName)).Nodup) ∧
      (d.typeName ∈ types → (∀ entry ∈ descriptors, entry.1 ∈ types) →
        calls.depth ≤ types.dedup.length)) ∧
    ∀ ds : List Descriptor, ∃ runs : List (Calls × Except Failure Unit),
      List.Forall₂ (fun c run => c.Makes basis run.1 run.2 ∧ (c.outcome.isOk → run.2.isOk))
        (Fragment.calls basis ds []) runs ∧
      (((runs.filter (·.2.isOk)).flatMap (·.1.expansions)).map (·.inputName)).Nodup := by
  intro basis types
  constructor
  · intro d before
    obtain ⟨calls, hruns, -⟩ := Fragment.performs_inputs basis d before
    have hends : ((Fragment.inputs basis d).outcome before).1.map (fun _ => ()) =
        ((Fragment.inputs basis d).outcome before).1 := by
      cases ((Fragment.inputs basis d).outcome before).1 <;> rfl
    rw [hends] at hruns
    -- What is called for is a root type or the type of a field, and all of these are types.
    refine ⟨calls, _, _, hruns, fun _ _ _ hruns' => hruns'.unique hruns, rfl,
      fun chain hchain => (hruns.nodup_chain hchain).1, fun hroot hkeys => ?_⟩
    have hknown (name : String) (h : (basis.nestedFields? name).isSome) : name ∈ types := by
      rcases List.mem_append.mp (Basis.mem_knownNames h) with hname | hname
      · exact hname
      · obtain ⟨entry, hentry, rfl⟩ := List.mem_map.mp hname
        exact hkeys entry hentry
    have hsources : ∀ s ∈ basis.rootSources d, s.typeName ∈ types := by
      simpa [Basis.rootSources] using hroot
    obtain ⟨chain, hchain, hlength⟩ := calls.exists_chain
    rw [← hlength]
    exact hruns.length_chain_le hknown hsources hchain
  · intro ds
    obtain ⟨runs, hruns, hcompleted, hdistinct, -⟩ := Fragment.exists_runs basis ds []
    refine ⟨runs, hruns, ?_⟩
    -- Calls that fail complete something, too, so the others complete no more than all do.
    have hexpanded : (runs.filter (·.2.isOk)).flatMap (·.1.expansions) =
        (runs.filter (·.2.isOk)).flatMap (·.1.completions) := by
      refine List.flatMap_congr fun run hrun => ?_
      obtain ⟨hmem, hok⟩ := List.mem_filter.mp hrun
      exact (hcompleted run hmem hok).symm
    rw [hexpanded]
    exact hdistinct.sublist ((List.filter_sublist.flatMap _).map _)

/-- A catalogue features a book, and books and their authors refer to each other. -/
def catalogue : Document :=
  Document.ofDefinitions
    [ .type (Fragment.objectType "Catalogue"
        [ Fragment.plainField "id" [] (.nonNull (.named "ID")),
          Fragment.plainField "featured" [] (.nonNull (.named "Book")) ]),
      .type (Fragment.objectType "Book"
        [ Fragment.plainField "title" [] (.nonNull (.named "String")),
          Fragment.plainField "author" [] (.nonNull (.named "Author")) ]),
      .type ⟨none, "Author", [], .interface []
        [ Fragment.plainField "name" [] (.nonNull (.named "String")),
          Fragment.plainField "books" [] (.nonNull (.list (.nonNull (.named "Book")))) ]⟩ ]

def catalogueDescriptor : Descriptor :=
  { typeName := "Catalogue"
    idName := "id"
    idType := .nonNull (.named (.scalar "ID"))
    fields := [⟨"featured", .nonNull (.named (.object "Book"))⟩] }

/-- There are three types, so expansions are nested three deep at most. -/
theorem nested_calls_end_catalogue :
    let descriptors := [("Catalogue", catalogueDescriptor)]
    let basis := Basis.ofDocument catalogue {} none descriptors
    let types := basis.types.map (·.name)
    Assembly.describeRoot catalogue none "Catalogue" = .ok catalogueDescriptor ∧
    (∀ entry ∈ descriptors, entry.1 ∈ types) ∧
    ∃ calls ends after,
      Runs basis [] (basis.rootSources catalogueDescriptor) ⟨[], []⟩ calls ends after ∧
      calls.depth ≤ 3 := by
  intro descriptors basis types
  have hdescribed : Assembly.describeRoot catalogue none "Catalogue" = .ok catalogueDescriptor := by
    decide
  have hroot : catalogueDescriptor.typeName ∈ types :=
    typeName_mem_of_describeRoot hdescribed {} none descriptors
  have hkeys : ∀ entry ∈ descriptors, entry.1 ∈ types := by decide
  obtain ⟨calls, ends, after, hruns, -, -, -, hdepth⟩ :=
    (nested_calls_end catalogue {} none descriptors).1 catalogueDescriptor ⟨[], []⟩
  exact ⟨hdescribed, hkeys, calls, ends, after, hruns, hdepth hroot hkeys⟩

end RecordApi
