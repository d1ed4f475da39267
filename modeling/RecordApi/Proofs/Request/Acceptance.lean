import Mathlib.Tactic.Choose
import RecordApi.Proofs.Derivation.Sources
import RecordApi.Proofs.Request.Coercion

/-!
# Values that are accepted

A value is accepted by a type if no faults are written down when it is brought to the type. Every
scalar, every enumeration with values and every list accepts a value, and an input type accepts a
record that gives each field that is marked against null a value which the type of the field
accepts.
-/

namespace RecordApi.Request

open RecordApi.Language

/-! ## Coercing without faults -/

section Quiet

variable {α β γ : Type}

/-- Whether no faults are written down. -/
def Quiet (coercing : Coercing α) : Prop :=
  ∀ faults, (coercing.run faults).2 = faults

variable {first : Coercing α} {next : α → Coercing β} {items : List γ}

theorem quiet_pure (a : α) : Quiet (pure a : Coercing α) :=
  fun _ => rfl

theorem Quiet.bind (hfirst : Quiet first) (hnext : ∀ a, Quiet (next a)) :
    Quiet (first >>= next) :=
  fun faults => (hnext _ _).trans (hfirst faults)

theorem quiet_noteReading (path : List PathStep) (value : Datum) {outcome : Except String Datum}
    {d : Datum} (h : outcome = .ok d) : Quiet (noteReading path value outcome) := by
  rw [h]
  exact quiet_pure d

theorem quiet_filterMapM {step : γ → Coercing (Option α)} (h : ∀ x ∈ items, Quiet (step x)) :
    Quiet (items.filterMapM step) := by
  induction items with
  | nil => exact quiet_pure []
  | cons x rest ih =>
      obtain ⟨hfirst, hrest⟩ := List.forall_mem_cons.mp h
      rw [List.filterMapM_cons]
      refine hfirst.bind fun found => ?_
      cases found with
      | none => exact ih hrest
      | some a => exact (ih hrest).bind fun _ => quiet_pure _

theorem quiet_forIn {step : γ → α → Coercing (ForInStep α)}
    (h : ∀ x ∈ items, ∀ a, Quiet (step x a)) (a : α) : Quiet (forIn items a step) := by
  induction items generalizing a with
  | nil => exact quiet_pure a
  | cons x rest ih =>
      obtain ⟨hfirst, hrest⟩ := List.forall_mem_cons.mp h
      rw [List.forIn_cons]
      refine (hfirst a).bind fun outcome => ?_
      cases outcome with
      | done b => exact quiet_pure b
      | yield b => exact ih hrest b

end Quiet

/-! ## Accepted values -/

variable {schema : Schema} {name : String} {slots : List InputSlot} {entries : Datum.Entries}

/-- Whether a value is brought to a type without faults, wherever it lies and however deep. -/
def Accepted (schema : Schema) (type : TypeExpr) (d : Datum) : Prop :=
  ∀ depth path, Quiet (coerceInput schema depth type path d)

theorem accepted_nonNull {inner : TypeExpr} {d : Datum} (hd : d ≠ .null)
    (h : Accepted schema inner d) : Accepted schema (.nonNull inner) d := by
  intro depth path
  cases depth with
  | zero => exact quiet_pure _
  | succ depth =>
      rw [coerceInput_nonNull depth inner path hd]
      exact h depth path

theorem accepted_nil (item : TypeExpr) : Accepted schema (.list item) (.list []) := by
  intro depth path
  cases depth with
  | zero => exact quiet_pure _
  | succ depth => exact quiet_pure _

/-- A value that is accepted by each scalar of a name. -/
def scalarSample (name : String) : Datum :=
  match name with
  | "Int" => .int 0
  | "Float" => .real (.finite false 0)
  | "Boolean" => .bool false
  | _ => .text ""

theorem scalarSample_ne_null (name : String) : scalarSample name ≠ .null := by
  unfold scalarSample
  split <;> nofun

theorem exists_scalarInput (name : String) : ∃ d, scalarInput name (scalarSample name) = .ok d := by
  unfold scalarSample
  split
  · exact ⟨_, rfl⟩
  · exact ⟨_, rfl⟩
  · exact ⟨_, rfl⟩
  · unfold scalarInput
    split <;> first
      | exact ⟨_, rfl⟩
      | contradiction

/-- Scalars accept values. -/
theorem exists_accepted_scalar {link : Option String}
    (hshape : schema.shape? (.named name) = some (.scalar link)) :
    ∃ d, d ≠ .null ∧ Accepted schema (.named name) d := by
  obtain ⟨read, hread⟩ := exists_scalarInput name
  refine ⟨scalarSample name, scalarSample_ne_null name, fun depth path => ?_⟩
  cases depth with
  | zero => exact quiet_pure _
  | succ depth =>
      have hquiet := quiet_noteReading path (scalarSample name) hread
      revert hquiet
      cases hsample : scalarSample name with
      | null => exact absurd hsample (scalarSample_ne_null name)
      | _ =>
          simp only [coerceInput, hshape]
          exact id

/-- Enumerations with values accept them. -/
theorem exists_accepted_enum {options : List EnumOption}
    (hshape : schema.shape? (.named name) = some (.enum options)) (hne : options ≠ []) :
    ∃ d, d ≠ .null ∧ Accepted schema (.named name) d := by
  obtain ⟨option, rest, rfl⟩ := List.exists_cons_of_ne_nil hne
  refine ⟨.text option.name, nofun, fun depth path => ?_⟩
  cases depth with
  | zero => exact quiet_pure _
  | succ depth =>
      simp only [coerceInput, hshape]
      exact quiet_noteReading path _ (if_pos (by simp))

theorem quiet_noteUnknown (name : String) (path : List PathStep) {known : List String}
    (h : ∀ entry ∈ entries, entry.1 ∈ known) : Quiet (noteUnknown name path entries known) := by
  refine Quiet.bind (quiet_forIn (fun entry hentry _ => ?_) _) fun _ => quiet_pure _
  have hknown := List.contains_iff_mem.mpr (h entry hentry)
  simp only [hknown]
  exact quiet_pure _

/-- An input type accepts a record that gives each field that is marked against null a value which
the type of the field accepts, and nothing else. -/
theorem accepted_record (hshape : schema.shape? (.named name) = some (.input slots))
    (hknown : ∀ entry ∈ entries, entry.1 ∈ slots.map (·.name))
    (hgiven : ∀ slot ∈ slots, match entries.lookup slot.name with
      | some d => Accepted schema slot.type d
      | none => slot.type.isNonNull = false) :
    Accepted schema (.named name) (.record entries) := by
  intro depth path
  cases depth with
  | zero => exact quiet_pure _
  | succ depth =>
      rw [coerceInput_record hshape]
      refine (quiet_filterMapM fun slot hslot => ?_).bind fun _ =>
        (quiet_noteUnknown name path hknown).bind fun _ => quiet_pure _
      have hslot := hgiven slot hslot
      unfold coerceSlot
      cases hlookup : entries.lookup slot.name with
      | some d =>
          rw [hlookup] at hslot
          exact (hslot depth _).bind fun _ => quiet_pure _
      | none =>
          rw [hlookup] at hslot
          simp only [hslot]
          cases slot.default <;> exact quiet_pure _

/-- An input type without two fields of one name accepts a record if each field that is marked
against null accepts a value. -/
theorem exists_accepted_record (hshape : schema.shape? (.named name) = some (.input slots))
    (hsame : ∀ slot ∈ slots, ∀ other ∈ slots, other.name = slot.name → other = slot)
    (hvalues : ∀ slot ∈ slots, slot.type.isNonNull → ∃ d, Accepted schema slot.type d) :
    ∃ entries, Accepted schema (.named name) (.record entries) := by
  choose! value hvalue using hvalues
  let required := slots.filter (·.type.isNonNull)
  refine ⟨required.map fun slot => (slot.name, value slot), accepted_record hshape ?_ ?_⟩
  · intro entry hentry
    obtain ⟨slot, hslot, rfl⟩ := List.mem_map.mp hentry
    exact List.mem_map_of_mem (List.mem_filter.mp hslot).1
  · intro slot hslot
    rw [lookup_map_key InputSlot.name value]
    cases hfind : required.find? (·.name == slot.name) with
    | none =>
        by_contra hrequired
        have hmem : slot ∈ required := List.mem_filter.mpr ⟨hslot, by simpa using hrequired⟩
        exact absurd (List.find?_eq_none.mp hfind slot hmem) (by simp)
    | some other =>
        obtain ⟨hother, hrequired⟩ := List.mem_filter.mp (List.mem_of_find?_eq_some hfind)
        have hname := List.find?_some hfind
        obtain rfl := hsame slot hslot other hother (beq_iff_eq.mp hname)
        exact hvalue other hother hrequired

/-- What a type accepts can be sent as the value of a variable of the type. -/
theorem exists_variableValues {v : VariableDef} {d : Datum} (hd : d ≠ .null)
    (h : Accepted schema v.type d) :
    ∃ value, variableValues schema [v] [(v.name.text, d)] = .ok [(v.name.text, value)] := by
  have hgiven : d.isNull = false := by
    cases d with
    | null => exact absurd rfl hd
    | _ => rfl
  have hquiet := h (typeDepth v.type + (dataDepth d + 1) * (slotDepth schema + 1)) [] []
  rcases hrun : (coerceInput schema (typeDepth v.type + (dataDepth d + 1) * (slotDepth schema + 1))
    v.type [] d).run [] with ⟨value, faults⟩
  rw [hrun] at hquiet
  obtain rfl : faults = [] := hquiet
  have hvalue : variableValue schema [(v.name.text, d)] v = (some value, []) := by
    simp [variableValue, hgiven, hrun]
  exact ⟨value, by simp [variableValues, hvalue]⟩

end RecordApi.Request
