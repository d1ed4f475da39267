import RecordApi.Proofs.Derivation.InputGraph

/-!
# The traversal of the graph of input types

The derivation of one input type goes depth first over its fields. It answers the name of the input
type whatever has been derived before, adds the input types that it meets, each in its final form,
and fails just at a starved one.
-/

namespace RecordApi

open RecordApi.Language Relation

variable {basis : Basis} {mode : InputMode} {active : List String} {α β : Type}
  {starts starts₁ starts₂ : InputPair → Prop} {good : α → Prop} {fine : β → Prop}

/-- What a derivation leaves behind when it starts from a state. -/
def Derive.outcome (x : Derive α) (before : Derived) : Except Failure α × Derived :=
  (ExceptT.run x).run before

/-- The derivation answers well and adds what it meets from the starting pairs, or it stops at a
starved one. -/
def Derives (basis : Basis) (active : List String) (starts : InputPair → Prop) (x : Derive α)
    (good : α → Prop) : Prop :=
  ∀ before, match x.outcome before with
    | (.ok a, after) => good a ∧ ∃ added, Grown basis active starts before added after
    | (.error failure, _) => Stuck basis starts failure

theorem Derive.outcome_pure (a : α) (before : Derived) :
    (pure a : Derive α).outcome before = (.ok a, before) := rfl

theorem Derive.outcome_get (before : Derived) :
    (get : Derive Derived).outcome before = (.ok before, before) := rfl

theorem Derive.outcome_bind (x : Derive α) (f : α → Derive β) (before : Derived) :
    (x >>= f).outcome before =
      match x.outcome before with
      | (.ok a, after) => (f a).outcome after
      | (.error failure, after) => (.error failure, after) := by
  unfold outcome
  rw [ExceptT.run_bind, StateT.run_bind]
  rcases hx : StateT.run (ExceptT.run x) before with ⟨_ | _, _⟩ <;> rfl

theorem Stuck.mono {more : InputPair → Prop} {failure : Failure} (h : Stuck basis starts failure)
    (hmore : ∀ p, starts p → more p) : Stuck basis more failure := by
  obtain ⟨p, hp, hrest⟩ := h
  exact ⟨p, hp.mono hmore, hrest⟩

theorem Derives.pure {a : α} (h : good a) (hstarts : ∀ p, ¬ starts p) :
    Derives basis active starts (pure a) good := by
  intro before
  exact ⟨h, [], .refl basis active before fun p hp => absurd hp (hstarts p)⟩

theorem Derives.bind {x : Derive α} {f : α → Derive β} (hx : Derives basis active starts₁ x good)
    (hf : ∀ a, good a → Derives basis active starts₂ (f a) fine) :
    Derives basis active (fun p => starts₁ p ∨ starts₂ p) (x >>= f) fine := by
  intro before
  have hfirst := hx before
  rw [Derive.outcome_bind]
  rcases houtcome : x.outcome before with ⟨failure | a, middle⟩
  · rw [houtcome] at hfirst
    exact hfirst.mono fun _ => .inl
  · rw [houtcome] at hfirst
    obtain ⟨ha, added₁, hgrown₁⟩ := hfirst
    have hsecond := hf a ha middle
    dsimp only
    rcases houtcome' : (f a).outcome middle with ⟨failure | b, after⟩
    · rw [houtcome'] at hsecond
      exact hsecond.mono fun _ => .inr
    · rw [houtcome'] at hsecond
      obtain ⟨hb, added₂, hgrown₂⟩ := hsecond
      exact ⟨hb, added₁ ++ added₂, hgrown₁.trans hgrown₂⟩

theorem Derives.congr {x : Derive α} (h : Derives basis active starts₁ x good)
    (hstarts : ∀ p, starts₁ p ↔ starts₂ p) : Derives basis active starts₂ x good := by
  rwa [show starts₁ = starts₂ from funext fun p => propext (hstarts p)] at h

theorem Derives.map {x : Derive α} {f : α → β} (hx : Derives basis active starts x good)
    (hf : ∀ a, good a → fine (f a)) : Derives basis active starts (do return f (← x)) fine :=
  (hx.bind fun a ha => .pure (hf a ha) fun _ => not_false).congr fun _ => by
    rw [or_false]

namespace Derive

/-! ## Fields -/

/-- The input field for a data field, if nested input types are derived. -/
theorem derives_inputField {nested : String → List DataField → Derive String} (field : DataField)
    (hnested : ∀ name fields, basis.nestedFields? name = some fields →
      Derives basis active (· = ⟨name, mode⟩) (nested name fields) (· = mode.inputName name)) :
    Derives basis active (basis.Targets mode [field]) (inputField basis mode nested field)
      (· = basis.inputEntry mode field) := by
  unfold inputField Basis.inputEntry
  cases hbase : field.type.base with
  | scalar name => exact .pure rfl (by simp [Basis.Targets, hbase])
  | enum name => exact .pure rfl (by simp [Basis.Targets, hbase])
  | object name =>
      dsimp only
      cases hfields : basis.nestedFields? name with
      | none =>
          refine .pure rfl ?_
          rintro ⟨typeName, _⟩ ⟨-, hsome, f, hf, hp⟩
          simp_all
      | some fields =>
          refine ((hnested name fields hfields).map fun answer hanswer => ?_).congr fun p => ?_
          · rw [hanswer]
            rfl
          · obtain ⟨typeName, mode'⟩ := p
            constructor
            · rintro ⟨⟩
              exact ⟨rfl, by simp [hfields], field, by simp, hbase⟩
            · rintro ⟨hmode, -, f, hf, hp⟩
              simp_all

/-- The input fields for data fields, if nested input types are derived. -/
theorem derives_inputFields {nested : String → List DataField → Derive String}
    (fields : List DataField)
    (hnested : ∀ name fields, basis.nestedFields? name = some fields →
      Derives basis active (· = ⟨name, mode⟩) (nested name fields) (· = mode.inputName name)) :
    Derives basis active (basis.Targets mode fields) (inputFields basis mode nested fields)
      (· = fields.filterMap (basis.inputEntry mode)) := by
  induction fields with
  | nil => exact .pure rfl (by simp [Basis.Targets])
  | cons field rest ih =>
      refine ((derives_inputField field hnested).bind fun first hfirst =>
        ih.map fun more hmore => ?_).congr fun p => ?_
      · rw [hfirst, hmore, List.filterMap_cons]
        cases basis.inputEntry mode field <;> rfl
      · simp only [Basis.Targets, List.mem_cons, List.not_mem_nil, or_false]
        constructor
        · rintro (⟨hmode, hsome, f, hf, hp⟩ | ⟨hmode, hsome, f, hf, hp⟩)
          · exact ⟨hmode, hsome, f, .inl hf, hp⟩
          · exact ⟨hmode, hsome, f, .inr hf, hp⟩
        · rintro ⟨hmode, hsome, f, hf | hf, hp⟩
          · exact .inl ⟨hmode, hsome, f, hf, hp⟩
          · exact .inr ⟨hmode, hsome, f, hf, hp⟩

/-! ## Input types -/

theorem outcome_input (bound : Nat) (typeName : String) (fields : List DataField)
    (before : Derived) :
    (input basis mode bound active typeName fields).outcome before =
      if mode.inputName typeName ∈ basis.declared ∨ mode.inputName typeName ∈ before.names ∨
          mode.inputName typeName ∈ active then
        (.ok (mode.inputName typeName), before)
      else
        match bound with
        | 0 => (.ok (mode.inputName typeName), before)
        | bound + 1 =>
          match (inputFields basis mode (input basis mode bound (mode.inputName typeName :: active))
              fields).outcome before with
          | (.error failure, after) => (.error failure, after)
          | (.ok inputs, after) =>
            if inputs = [] then (.error (.emptyInput (mode.inputName typeName) typeName), after)
            else
              (.ok (mode.inputName typeName),
                ⟨after.names ++ [mode.inputName typeName],
                  after.inputs ++ [inputType (mode.inputName typeName) inputs]⟩) := by
  by_cases hdeclared : mode.inputName typeName ∈ basis.declared
  · rw [if_pos (.inl hdeclared)]
    unfold input
    simp [hdeclared, outcome_pure]
  · by_cases hknown : mode.inputName typeName ∈ before.names ∨ mode.inputName typeName ∈ active
    · rw [if_pos (.inr hknown)]
      unfold input
      simp [hdeclared, outcome_bind, outcome_get, hknown, outcome_pure]
    · rw [if_neg (not_or.mpr ⟨hdeclared, hknown⟩)]
      unfold input
      simp only [hdeclared, outcome_bind, outcome_get, hknown, List.contains_iff_mem,
        Bool.or_eq_true, if_false]
      cases bound with
      | zero => rfl
      | succ bound =>
          dsimp only
          rw [outcome_bind]
          rcases (inputFields basis mode
            (input basis mode bound (mode.inputName typeName :: active)) fields).outcome before with
            ⟨failure | inputs, after⟩
          · rfl
          · cases inputs <;> rfl

/-- Whether the bound allows for every name beside those that are active. -/
structure Room (names : List String) (bound : Nat) (active : List String) : Prop where
  distinct : active.Nodup
  known : ∀ name ∈ active, name ∈ names
  enough : names.length ≤ active.length + bound

theorem Room.deeper {names active : List String} {bound : Nat} (h : Room names bound active)
    {name : String} (hname : name ∈ names) (hfresh : name ∉ active) :
    ∃ more, bound = more + 1 ∧ Room names more (name :: active) := by
  have hknown : ∀ other ∈ name :: active, other ∈ names := by
    simpa using ⟨hname, h.known⟩
  have hdistinct : (name :: active).Nodup := List.nodup_cons.mpr ⟨hfresh, h.distinct⟩
  have hlength := hdistinct.length_le_of_subset hknown
  have henough := h.enough
  rw [List.length_cons] at hlength
  refine ⟨bound - 1, by omega, hdistinct, hknown, ?_⟩
  rw [List.length_cons]
  omega

/-- Whether the bound allows for every known type beside those that are active. -/
structure Allows (basis : Basis) (bound : Nat) (types : List String) : Prop where
  distinct : types.Nodup
  known : ∀ name ∈ types, name ∈ basis.knownNames
  enough : basis.knownNames.length ≤ types.length + bound

theorem Allows.deeper {bound : Nat} {types : List String} (h : Allows basis bound types)
    {name : String} (hname : name ∈ basis.knownNames) (hfresh : name ∉ types) :
    ∃ more, bound = more + 1 ∧ Allows basis more (name :: types) := by
  have hroom : Room basis.knownNames bound types := ⟨h.distinct, h.known, h.enough⟩
  obtain ⟨more, hbound, hmore⟩ := hroom.deeper hname hfresh
  exact ⟨more, hbound, hmore.distinct, hmore.known, hmore.enough⟩

/-- One step of the traversal, from what it does below. -/
theorem derives_input_step {bound : Nat} {types : List String} {typeName : String}
    {fields : List DataField} (hfields : basis.nestedFields? typeName = some fields)
    (hallows : Allows basis bound types)
    (hbelow : ∀ more, bound = more + 1 → ∀ types name fields,
      basis.nestedFields? name = some fields → Allows basis more types →
        Derives basis (types.map mode.inputName) (· = ⟨name, mode⟩)
          (input basis mode more (types.map mode.inputName) name fields)
          (· = mode.inputName name)) :
    Derives basis (types.map mode.inputName) (· = ⟨typeName, mode⟩)
      (input basis mode bound (types.map mode.inputName) typeName fields)
      (· = mode.inputName typeName) := by
  intro before
  rw [outcome_input]
  by_cases hmet : mode.inputName typeName ∈ basis.declared ∨
      mode.inputName typeName ∈ before.names ∨
      mode.inputName typeName ∈ types.map mode.inputName
  · rw [if_pos hmet]
    exact ⟨rfl, [], .refl basis _ before (by rintro p rfl; exact hmet)⟩
  · rw [if_neg hmet]
    obtain ⟨hdeclared, hbefore, hactive⟩ : mode.inputName typeName ∉ basis.declared ∧
        mode.inputName typeName ∉ before.names ∧
        mode.inputName typeName ∉ types.map mode.inputName := by
      simpa only [not_or] using hmet
    have hname : typeName ∈ basis.knownNames := Basis.mem_knownNames (by simp [hfields])
    have hfresh : typeName ∉ types := fun h => hactive (List.mem_map_of_mem h)
    obtain ⟨more, rfl, hmore⟩ := hallows.deeper hname hfresh
    have hnested : Derives basis (mode.inputName typeName :: types.map mode.inputName)
        (basis.Targets mode fields)
        (inputFields basis mode
          (input basis mode more (mode.inputName typeName :: types.map mode.inputName)) fields)
        (· = fields.filterMap (basis.inputEntry mode)) :=
      derives_inputFields fields fun name nestedFields hnestedFields =>
        hbelow more rfl (typeName :: types) name nestedFields hnestedFields hmore
    have hfollows (p : InputPair) : basis.Targets mode fields p ↔
        basis.Follows ⟨typeName, mode⟩ p := by
      simp [Basis.Follows, InputPair.inputName, hdeclared, hfields]
    have hentries : fields.filterMap (basis.inputEntry mode) =
        basis.inputEntries ⟨typeName, mode⟩ := by
      simp [Basis.inputEntries, hfields]
    have houtcome := (hnested.congr hfollows) before
    dsimp only
    rcases hrun : (inputFields basis mode (input basis mode more
        (mode.inputName typeName :: types.map mode.inputName)) fields).outcome before with
      ⟨failure | inputs, after⟩
    · rw [hrun] at houtcome
      obtain ⟨p, hp, hstuck⟩ := houtcome
      exact ⟨p, hp.head, hstuck⟩
    · rw [hrun] at houtcome
      obtain ⟨hinputs, added, hgrown⟩ := houtcome
      dsimp only
      rw [hinputs, hentries]
      by_cases hstarved : basis.inputEntries ⟨typeName, mode⟩ = []
      · rw [if_pos hstarved]
        exact ⟨⟨typeName, mode⟩, ⟨_, rfl, .refl⟩, hdeclared, hstarved, rfl⟩
      · rw [if_neg hstarved]
        exact ⟨rfl, added ++ [⟨typeName, mode⟩],
          hgrown.emit ⟨hbefore, hactive, hdeclared⟩ hstarved⟩

/-- The derivation of one input type. The induction is on the bound, which the types that are being
derived never use up. -/
theorem derives_input (bound : Nat) (types : List String) (typeName : String)
    (fields : List DataField) (hfields : basis.nestedFields? typeName = some fields)
    (hallows : Allows basis bound types) :
    Derives basis (types.map mode.inputName) (· = ⟨typeName, mode⟩)
      (input basis mode bound (types.map mode.inputName) typeName fields)
      (· = mode.inputName typeName) := by
  induction bound generalizing types typeName fields with
  | zero => exact derives_input_step hfields hallows fun more h => by simp at h
  | succ bound ih => exact derives_input_step hfields hallows fun more h => by cases h; exact ih

end Derive

end RecordApi
