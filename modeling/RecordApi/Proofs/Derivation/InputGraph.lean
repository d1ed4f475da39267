import RecordApi.Derivation.Inputs
import Mathlib.Logic.Relation

/-!
# The graph of input types

An input type stands for a type and a mode. The types of its fields lead to further input types of
the same mode, unless the consumer declares it. What a derivation has added is a list of pairs, and
a derivation is finished when everything that the added pairs lead to has been met.
-/

namespace RecordApi

open RecordApi.Language Relation

/-- A type, and what its input type is for. -/
structure InputPair where
  typeName : String
  mode : InputMode
deriving DecidableEq, Repr

/-- The name of the input type of a pair. -/
def InputPair.inputName (p : InputPair) : String :=
  p.mode.inputName p.typeName

/-- What an input type is derived from: a type, what the input type is for, and the fields that it
has. -/
structure InputSource where
  typeName : String
  mode : InputMode
  fields : List DataField

/-- The name of the input type of a source. -/
def InputSource.inputName (s : InputSource) : String :=
  s.mode.inputName s.typeName

theorem InputMode.inputName_injective {mode : InputMode} {a b : String}
    (h : mode.inputName a = mode.inputName b) : a = b := by
  cases mode <;> simpa [InputMode.inputName] using h

namespace Basis

variable (basis : Basis)

/-- The input field for a data field, unless the type of the field has no input types. -/
def inputEntry (mode : InputMode) (field : DataField) : Option (String × TypeRef) :=
  match field.type.base with
  | .object name =>
    (basis.nestedFields? name).map fun _ =>
      (field.name, mode.fieldType (field.type.rename fun _ => .object (mode.inputName name)))
  | _ => some (field.name, mode.fieldType field.type)

theorem inputEntry_eq_some {basis : Basis} {mode : InputMode} {field : DataField} {name : String}
    {ref : TypeRef} (h : basis.inputEntry mode field = some (name, ref)) :
    name = field.name ∧
      ((∃ target, field.type.base = .object target ∧ (basis.nestedFields? target).isSome ∧
          ref = mode.fieldType (field.type.rename fun _ => .object (mode.inputName target))) ∨
        (∀ target, field.type.base ≠ .object target) ∧ ref = mode.fieldType field.type) := by
  unfold inputEntry at h
  split at h
  · next target hbase =>
      obtain ⟨fields, hfields, hentry⟩ := Option.map_eq_some_iff.mp h
      obtain ⟨rfl, rfl⟩ := Prod.mk.inj hentry
      exact ⟨rfl, .inl ⟨target, hbase, by simp [hfields], rfl⟩⟩
  · next hbase =>
      obtain ⟨rfl, rfl⟩ := Prod.mk.inj (Option.some.inj h)
      exact ⟨rfl, .inr ⟨hbase, rfl⟩⟩

/-- The input type of a source. -/
def inputFrom (s : InputSource) : TypeDef :=
  Derive.inputType s.inputName (s.fields.filterMap (basis.inputEntry s.mode))

@[simp] theorem inputFrom_name (s : InputSource) : (basis.inputFrom s).name = s.inputName := rfl

/-- Whether input fields for data fields refer to an input type of a name: that of an object that
one of the data fields holds. -/
def Refers (mode : InputMode) (fields : List DataField) (name : String) : Prop :=
  ∃ f ∈ fields, ∃ target, f.type.base = .object target ∧
    (basis.nestedFields? target).isSome ∧ name = mode.inputName target

/-- The input fields of a pair. -/
def inputEntries (p : InputPair) : List (String × TypeRef) :=
  ((basis.nestedFields? p.typeName).getD []).filterMap (basis.inputEntry p.mode)

/-- The input type of a pair. -/
def inputOf (p : InputPair) : TypeDef :=
  Derive.inputType p.inputName (basis.inputEntries p)

@[simp] theorem inputOf_name (p : InputPair) : (basis.inputOf p).name = p.inputName := rfl

/-- Whether a pair is of the mode and its type is that of a field. -/
def Targets (mode : InputMode) (fields : List DataField) (q : InputPair) : Prop :=
  q.mode = mode ∧ (basis.nestedFields? q.typeName).isSome ∧
    ∃ f ∈ fields, f.type.base = .object q.typeName

/-- Whether the derivation of one pair leads to another. -/
def Follows (p q : InputPair) : Prop :=
  p.inputName ∉ basis.declared ∧
    ∃ fields, basis.nestedFields? p.typeName = some fields ∧ basis.Targets p.mode fields q

/-- Whether a pair is met by a derivation from the starting ones. -/
def Reaches (starts : InputPair → Prop) (p : InputPair) : Prop :=
  ∃ s, starts s ∧ ReflTransGen basis.Follows s p

/-- Whether a pair is met from the starting ones past no known input type. -/
def ReachesPast (known : List String) (starts : InputPair → Prop) (p : InputPair) : Prop :=
  ∃ s, starts s ∧ ReflTransGen (fun q r => q.inputName ∉ known ∧ basis.Follows q r) s p

/-- Whether no field of a pair has an input type. -/
def Starved (p : InputPair) : Prop :=
  basis.inputEntries p = []

theorem Reaches.mono {basis : Basis} {starts more : InputPair → Prop} {p : InputPair}
    (h : basis.Reaches starts p) (hmore : ∀ s, starts s → more s) : basis.Reaches more p := by
  obtain ⟨s, hs, hsp⟩ := h
  exact ⟨s, hmore s hs, hsp⟩

/-- What follows a pair reaches nothing that the pair itself does not reach. -/
theorem Reaches.head {basis : Basis} {p q : InputPair} (h : basis.Reaches (basis.Follows p) q) :
    basis.Reaches (· = p) q := by
  obtain ⟨s, hs, hsq⟩ := h
  exact ⟨p, rfl, .head hs hsq⟩

theorem ReachesPast.reaches {basis : Basis} {known : List String} {starts : InputPair → Prop}
    {p : InputPair} (h : basis.ReachesPast known starts p) : basis.Reaches starts p := by
  obtain ⟨s, hs, hsp⟩ := h
  exact ⟨s, hs, ReflTransGen.mono (fun _ _ hstep => hstep.2) _ _ hsp⟩

theorem ReachesPast.mono {basis : Basis} {known fewer : List String}
    {starts more : InputPair → Prop} {p : InputPair} (h : basis.ReachesPast known starts p)
    (hknown : ∀ name ∈ fewer, name ∈ known) (hmore : ∀ s, starts s → more s) :
    basis.ReachesPast fewer more p := by
  obtain ⟨s, hs, hsp⟩ := h
  refine ⟨s, hmore s hs, ReflTransGen.mono ?_ _ _ hsp⟩
  rintro q r ⟨hunknown, hfollows⟩
  exact ⟨fun hmem => hunknown (hknown _ hmem), hfollows⟩

theorem ReachesPast.head {basis : Basis} {known : List String} {p q : InputPair}
    (h : basis.ReachesPast known (basis.Follows p) q) (hp : p.inputName ∉ known) :
    basis.ReachesPast known (· = p) q := by
  obtain ⟨s, hs, hsq⟩ := h
  exact ⟨p, rfl, .head ⟨hp, hs⟩ hsq⟩

theorem nestedFields?_isSome_of_reaches {basis : Basis} {starts : InputPair → Prop}
    {p : InputPair} (hstarts : ∀ s, starts s → (basis.nestedFields? s.typeName).isSome)
    (h : basis.Reaches starts p) : (basis.nestedFields? p.typeName).isSome := by
  obtain ⟨s, hs, hsp⟩ := h
  rcases hsp.cases_tail with rfl | ⟨q, -, hlast⟩
  · exact hstarts p hs
  · obtain ⟨-, _, -, -, hsome, -⟩ := hlast
    exact hsome

/-- The names of all types that input types may be derived from. -/
def knownNames : List String :=
  basis.types.map (·.name) ++ basis.descriptors.map Prod.fst

theorem mem_knownNames {basis : Basis} {name : String} (h : (basis.nestedFields? name).isSome) :
    name ∈ basis.knownNames := by
  unfold nestedFields? at h
  split at h
  · next descriptor hlookup =>
      obtain ⟨front, rest, hsplit, -⟩ := List.lookup_eq_some_iff.mp hlookup
      exact List.mem_append_right _ (by simp [hsplit])
  · rw [Option.isSome_map] at h
    obtain ⟨d, hd⟩ := Option.isSome_iff_exists.mp h
    have hname : d.name = name := by simpa using List.find?_some hd
    have hmem : d ∈ basis.types := List.mem_reverse.mp (List.mem_of_find?_eq_some hd)
    exact List.mem_append_left _ (hname ▸ List.mem_map_of_mem hmem)

end Basis

/-! ## Runs of a derivation -/

/-- The pairs that a derivation has added, from the starting ones, while the input types of the
active names are being derived. -/
structure Grown (basis : Basis) (active : List String) (starts : InputPair → Prop)
    (before : Derived) (added : List InputPair) (after : Derived) : Prop where
  names : after.names = before.names ++ added.map InputPair.inputName
  inputs : after.inputs = before.inputs ++ added.map basis.inputOf
  distinct : (added.map InputPair.inputName).Nodup
  fresh : ∀ p ∈ added,
    p.inputName ∉ before.names ∧ p.inputName ∉ active ∧ p.inputName ∉ basis.declared
  fed : ∀ p ∈ added, ¬ basis.Starved p
  reached : ∀ p ∈ added, basis.ReachesPast before.names starts p
  met : ∀ p, (starts p ∨ ∃ q ∈ added, basis.Follows q p) →
    p.inputName ∈ basis.declared ∨ p.inputName ∈ after.names ∨ p.inputName ∈ active

/-- A derivation stops at a pair that is reached and starved. -/
def Stuck (basis : Basis) (starts : InputPair → Prop) (failure : Failure) : Prop :=
  ∃ p, basis.Reaches starts p ∧ p.inputName ∉ basis.declared ∧ basis.Starved p ∧
    failure = .emptyInput p.inputName p.typeName

variable {basis : Basis} {active : List String} {starts starts₁ starts₂ : InputPair → Prop}
  {before middle after : Derived} {added added₁ added₂ : List InputPair}

theorem Grown.refl (basis : Basis) (active : List String) (before : Derived)
    (h : ∀ p, starts p → p.inputName ∈ basis.declared ∨ p.inputName ∈ before.names ∨
      p.inputName ∈ active) :
    Grown basis active starts before [] before where
  names := by simp
  inputs := by simp
  distinct := by simp
  fresh := by simp
  fed := by simp
  reached := by simp
  met := by simpa using h

theorem Grown.congr (h : Grown basis active starts₁ before added after)
    (hstarts : ∀ p, starts₁ p ↔ starts₂ p) : Grown basis active starts₂ before added after := by
  rwa [show starts₁ = starts₂ from funext fun p => propext (hstarts p)] at h

/-- What a derivation adds does not depend on the definitions that were derived before. -/
theorem Grown.rebase (h : Grown basis active starts before added after) (inputs : List TypeDef) :
    Grown basis active starts ⟨before.names, inputs⟩ added
      ⟨before.names ++ added.map InputPair.inputName, inputs ++ added.map basis.inputOf⟩ :=
  { h with
    names := rfl
    inputs := rfl
    met := by simpa only [h.names] using h.met }

/-- One derivation after another. -/
theorem Grown.trans (h₁ : Grown basis active starts₁ before added₁ middle)
    (h₂ : Grown basis active starts₂ middle added₂ after) :
    Grown basis active (fun p => starts₁ p ∨ starts₂ p) before (added₁ ++ added₂) after where
  names := by simp [h₂.names, h₁.names]
  inputs := by simp [h₂.inputs, h₁.inputs]
  distinct := by
    rw [List.map_append, List.nodup_append]
    refine ⟨h₁.distinct, h₂.distinct, ?_⟩
    rintro _ hname _ hq rfl
    obtain ⟨q, hq, hname'⟩ := List.mem_map.mp hq
    refine (h₂.fresh q hq).1 ?_
    rw [hname', h₁.names]
    exact List.mem_append_right _ hname
  fresh := by
    intro p hp
    rcases List.mem_append.mp hp with hp | hp
    · exact h₁.fresh p hp
    · refine ⟨fun hname => (h₂.fresh p hp).1 ?_, (h₂.fresh p hp).2⟩
      rw [h₁.names]
      exact List.mem_append_left _ hname
  fed := by
    intro p hp
    rcases List.mem_append.mp hp with hp | hp
    · exact h₁.fed p hp
    · exact h₂.fed p hp
  reached := by
    intro p hp
    rcases List.mem_append.mp hp with hp | hp
    · exact (h₁.reached p hp).mono (fun _ => id) fun _ => .inl
    · refine (h₂.reached p hp).mono (fun name hname => ?_) fun _ => .inr
      rw [h₁.names]
      exact List.mem_append_left _ hname
  met := by
    have hearlier (p : InputPair) (h : starts₁ p ∨ ∃ q ∈ added₁, basis.Follows q p) :
        p.inputName ∈ basis.declared ∨ p.inputName ∈ after.names ∨ p.inputName ∈ active := by
      rcases h₁.met p h with hmet | hmet | hmet
      · exact .inl hmet
      · refine .inr (.inl ?_)
        rw [h₂.names]
        exact List.mem_append_left _ hmet
      · exact .inr (.inr hmet)
    rintro p ((hp | hp) | ⟨q, hq, hqp⟩)
    · exact hearlier p (.inl hp)
    · exact h₂.met p (.inl hp)
    · rcases List.mem_append.mp hq with hq | hq
      · exact hearlier p (.inr ⟨q, hq, hqp⟩)
      · exact h₂.met p (.inr ⟨q, hq, hqp⟩)

/-- A pair whose fields have been derived is added itself. -/
theorem Grown.emit {p : InputPair}
    (h : Grown basis (p.inputName :: active) (basis.Follows p) before added after)
    (hfresh : p.inputName ∉ before.names ∧ p.inputName ∉ active ∧ p.inputName ∉ basis.declared)
    (hfed : ¬ basis.Starved p) :
    Grown basis active (· = p) before (added ++ [p])
      ⟨after.names ++ [p.inputName], after.inputs ++ [basis.inputOf p]⟩ where
  names := by simp [h.names]
  inputs := by simp [h.inputs]
  distinct := by
    rw [List.map_append, List.nodup_append]
    refine ⟨h.distinct, by simp, ?_⟩
    rintro _ hname _ hp rfl
    obtain ⟨q, hq, hname'⟩ := List.mem_map.mp hname
    simp only [List.map_cons, List.map_nil, List.mem_singleton] at hp
    exact (h.fresh q hq).2.1 (by simp [hname', hp])
  fresh := by
    intro q hq
    rcases List.mem_append.mp hq with hq | hq
    · obtain ⟨hbefore, hactive, hdeclared⟩ := h.fresh q hq
      exact ⟨hbefore, fun hmem => hactive (List.mem_cons_of_mem _ hmem), hdeclared⟩
    · rwa [List.mem_singleton.mp hq]
  fed := by
    intro q hq
    rcases List.mem_append.mp hq with hq | hq
    · exact h.fed q hq
    · rwa [List.mem_singleton.mp hq]
  reached := by
    intro q hq
    rcases List.mem_append.mp hq with hq | hq
    · exact (h.reached q hq).head hfresh.1
    · exact ⟨p, rfl, by rw [List.mem_singleton.mp hq]⟩
  met := by
    have hlater (q : InputPair) (hq : basis.Follows p q ∨ ∃ r ∈ added, basis.Follows r q) :
        q.inputName ∈ basis.declared ∨ q.inputName ∈ after.names ++ [p.inputName] ∨
          q.inputName ∈ active := by
      rcases h.met q hq with hmet | hmet | hmet
      · exact .inl hmet
      · exact .inr (.inl (List.mem_append_left _ hmet))
      · rcases List.mem_cons.mp hmet with hmet | hmet
        · exact .inr (.inl (by simp [hmet]))
        · exact .inr (.inr hmet)
    rintro q (rfl | ⟨r, hr, hrq⟩)
    · exact .inr (.inl (by simp))
    · rcases List.mem_append.mp hr with hr | hr
      · exact hlater q (.inr ⟨r, hr, hrq⟩)
      · rw [List.mem_singleton.mp hr] at hrq
        exact hlater q (.inl hrq)

/-- Where input names tell pairs apart, all pairs that are reached and not declared have been
added. The induction is on the path to the pair, whose inner pairs are not declared either. -/
theorem Grown.mem_added (h : Grown basis [] starts ⟨[], []⟩ added after)
    (hnames : ∀ p q, basis.Reaches starts p → basis.Reaches starts q →
      p.inputName = q.inputName → p = q)
    {p : InputPair} (hp : basis.Reaches starts p) (hdeclared : p.inputName ∉ basis.declared) :
    p ∈ added := by
  have hmember (q : InputPair) (hq : basis.Reaches starts q)
      (hmet : starts q ∨ ∃ r ∈ added, basis.Follows r q) (hq' : q.inputName ∉ basis.declared) :
      q ∈ added := by
    have hknown : q.inputName ∈ after.names := by simpa [hq'] using h.met q hmet
    rw [h.names, List.nil_append] at hknown
    obtain ⟨r, hr, hsame⟩ := List.mem_map.mp hknown
    rwa [← hnames r q (h.reached r hr).reaches hq hsame]
  obtain ⟨start, hstart, hpath⟩ := hp
  induction hpath with
  | refl => exact hmember start ⟨start, hstart, .refl⟩ (.inl hstart) hdeclared
  | @tail q r hpath hlast ih =>
      exact hmember r ⟨start, hstart, hpath.tail hlast⟩ (.inr ⟨q, ih hlast.1, hlast⟩) hdeclared

/-- The pairs of names, in both modes. -/
def pairsOf (names : List String) : List InputPair :=
  names.flatMap fun name => [⟨name, .create⟩, ⟨name, .update⟩]

theorem mem_pairsOf {names : List String} {p : InputPair} :
    p ∈ pairsOf names ↔ p.typeName ∈ names := by
  obtain ⟨typeName, mode⟩ := p
  cases mode <;> simp [pairsOf]

/-- What is added by derivations from starting pairs in turn, each of which knows the names that
the earlier ones have added. -/
inductive Stages (basis : Basis) : List String → List InputPair → List InputPair → Prop
  | nil {known : List String} : Stages basis known [] []
  | cons {known : List String} {start : InputPair} {starts added more : List InputPair}
      {after : Derived} : Grown basis [] (· = start) ⟨known, []⟩ added after →
      Stages basis (known ++ added.map InputPair.inputName) starts more →
      Stages basis known (start :: starts) (added ++ more)

theorem Stages.append {known : List String} {starts others added more : List InputPair}
    (h : Stages basis known starts added)
    (hmore : Stages basis (known ++ added.map InputPair.inputName) others more) :
    Stages basis known (starts ++ others) (added ++ more) := by
  induction h with
  | nil => simpa using hmore
  | @cons known start starts added₁ added₂ after hgrown _ ih =>
      rw [List.append_assoc]
      exact .cons hgrown (ih (by simpa using hmore))

/-- All stages together are one derivation from all starting pairs. -/
theorem Stages.grown {known : List String} {starts added : List InputPair}
    (h : Stages basis known starts added) :
    Grown basis [] (· ∈ starts) ⟨known, []⟩ added
      ⟨known ++ added.map InputPair.inputName, added.map basis.inputOf⟩ := by
  induction h with
  | @nil known => simpa using Grown.refl basis [] ⟨known, []⟩ (by simp)
  | @cons known start starts added₁ added₂ after hgrown _ ih =>
      have hall := (hgrown.rebase []).trans (ih.rebase (added₁.map basis.inputOf))
      simpa using hall

end RecordApi
