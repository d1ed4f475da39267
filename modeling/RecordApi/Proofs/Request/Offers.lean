import RecordApi.Proofs.Derivation.Sources
import RecordApi.Proofs.Request.Literals
import RecordApi.Validation.Selection

/-!
# Arguments that are accepted

A request offers a field literals, with variables in them, and values for these variables. The field
accepts them if every variable has a type and a place that go together and all of them have values.
What an accepted argument holds at an input type fills the fields of the type.
-/

namespace RecordApi.Request

open RecordApi.Language Validation

/-- What a request offers a field. -/
structure Offer where
  /-- The variables of the request. -/
  parameters : List VariableDef
  /-- The values that are given for the variables. -/
  given : Datum.Entries
  /-- The arguments as they are written. -/
  literals : List Argument

/-- Whether a field accepts an offer with the given arguments. The rules on variables hold where the
arguments are written, the variables have values, and so have the arguments. -/
structure Accepts (schema : Schema) (field : OutputField) (offer : Offer)
    (arguments : Datum.Entries) : Prop where
  distinct : (offer.parameters.map (·.name.text)).Nodup
  known : ∀ v ∈ offer.parameters, v.type.isWritten ∧ schema.isOf TypeShape.isInput v.type
  fitting : ∀ use ∈ usesAmong (each (argumentVisits (Scope.narrow schema)) offer.literals
      { field := some field }),
    ∀ v ∈ offer.parameters, v.name.text = use.name → ∀ type, use.type = some type →
      isAllowedUse schema v type use.hasDefault
  values : ∃ bindings, variableValues schema offer.parameters offer.given = .ok bindings ∧
    argumentValues schema bindings field.arguments offer.literals = .ok arguments

/-! ## Variables -/

section Variables

variable {schema : Schema} {given : Datum.Entries} {v : VariableDef} {d : Datum}

/-- Where the value of a variable comes from: its default, or what is given for it. -/
theorem variableValue_eq_some (h : variableValue schema given v = (some d, [])) :
    (∃ value, v.default = some value ∧ Literal.read (shapes schema) [] v.type value = some d) ∨
      ∃ x, (x = .null → v.type.isNonNull = false) ∧
        (coerceInput schema (typeDepth v.type + (dataDepth x + 1) * (slotDepth schema + 1)) v.type
          [] x).run [] = (d, []) := by
  unfold variableValue at h
  split at h
  · left
    split at h
    · next value hdefault => exact ⟨value, hdefault, (Prod.mk.inj h).1⟩
    · split at h <;> cases (Prod.mk.inj h).1
  · next x _ =>
      right
      split at h
      · cases (Prod.mk.inj h).1
      · next hmark =>
          refine ⟨x, fun hx => by simpa [hx, Datum.isNull] using hmark, ?_⟩
          obtain ⟨hvalue, hfaults⟩ := Prod.mk.inj h
          exact Prod.ext (Option.some.inj hvalue) (List.map_eq_nil_iff.mp hfaults)

/-- The value of a variable is admitted by its type. -/
theorem variableValue_admits (hknown : v.type.isWritten ∧ schema.isOf TypeShape.isInput v.type)
    (h : variableValue schema given v = (some d, [])) : v.type.Admits d := by
  rcases variableValue_eq_some h with ⟨value, -, hread⟩ | ⟨x, -, hcoerced⟩
  · have hscope : ({ inputs := [some v.type] } : Scope).input = some v.type := rfl
    exact Literal.read_admits value hknown.1 hknown.2 hscope (fun use _ => use.admitted_nil)
      hread
  · have hclean : Clean (coerceInput schema (typeDepth v.type + (dataDepth x + 1) *
        (slotDepth schema + 1)) v.type [] x) _ := clean_coerceInput (Nat.le_add_right _ _) [] x
    have hgood := hclean.good []
    rw [hcoerced] at hgood
    exact (hgood rfl).1

theorem le_foldl_max {start x : Nat} {xs : List Nat} (h : x ≤ start ∨ x ∈ xs) :
    x ≤ xs.foldl max start := by
  induction xs generalizing start with
  | nil => simpa using h
  | cons y rest ih =>
      rw [List.foldl_cons]
      apply ih
      rcases h with h | h
      · exact .inl (Nat.le_trans h (Nat.le_max_left _ _))
      · rcases List.mem_cons.mp h with rfl | h
        · exact .inl (Nat.le_max_right _ _)
        · exact .inr h

theorem typeDepth_le_slotDepth {name : String} {slots : List InputSlot}
    (hshape : schema.shape? (.named name) = some (.input slots)) {slot : InputSlot}
    (hslot : slot ∈ slots) : typeDepth slot.type ≤ slotDepth schema := by
  obtain ⟨type, htype, hinput⟩ := Option.map_eq_some_iff.mp hshape
  refine le_foldl_max (.inr (List.mem_flatMap.mpr ⟨type, List.mem_of_find?_eq_some htype, ?_⟩))
  rw [hinput]
  exact List.mem_map_of_mem hslot

/-- The value of a variable of an input type fills the fields of the type. -/
theorem variableValue_fills {name : String} {slots : List InputSlot}
    (hshape : schema.shape? (.named name) = some (.input slots))
    (hdefaults : ∀ slot ∈ slots, slot.default = none)
    (hslots : ∀ slot ∈ slots, slot.type.isWritten ∧ schema.isOf TypeShape.isInput slot.type)
    (hbase : v.type = .named name ∨ v.type = .nonNull (.named name)) (hd : d ≠ .null)
    (h : variableValue schema given v = (some d, [])) :
    ∃ filled, d = .record filled ∧ Fills slots filled := by
  rcases variableValue_eq_some h with ⟨value, -, hread⟩ | ⟨x, hx, hcoerced⟩
  · have hscope : ({ inputs := [some v.type] } : Scope).input = some v.type := rfl
    refine Literal.fills_of_read hshape hshape hdefaults hslots hbase ?_ hscope
      (fun use _ => use.admitted_nil) hd hread
    rintro pos other rfl
    simp [Literal.read] at hread
  · have hgiven : x ≠ .null := by
      rintro rfl
      rcases hbase with hbase | hbase
      · rw [hbase] at hcoerced
        exact hd (Prod.mk.inj hcoerced).1.symm
      · exact absurd (hx rfl) (by simp [hbase, TypeExpr.isNonNull])
    -- The layers of the type are used up when the record is reached.
    have hdepth : ∀ slot ∈ slots,
        typeDepth slot.type ≤ (dataDepth x + 1) * (slotDepth schema + 1) := by
      intro slot hslot
      have hle := typeDepth_le_slotDepth hshape hslot
      exact Nat.le_trans (Nat.le_succ_of_le hle) (Nat.le_mul_of_pos_left _ (Nat.succ_pos _))
    have hclean := clean_coerceInput_record hshape hdefaults hdepth [] hgiven
    have hgood := hclean.good []
    have hrun : (coerceInput schema ((dataDepth x + 1) * (slotDepth schema + 1) + 1)
        (.named name) [] x).run [] = (d, []) := by
      rw [← hcoerced]
      rcases hbase with hbase | hbase
      · rw [hbase, typeDepth, Nat.add_comm]
      · rw [hbase, typeDepth, typeDepth, Nat.add_assoc, Nat.add_comm 1,
          coerceInput_nonNull _ _ _ hgiven, Nat.add_comm]
    rw [hrun] at hgood
    exact hgood rfl

/-- Where all variables have values, each value is that of a variable, without faults. -/
theorem exists_variable {parameters : List VariableDef} {bindings : VariableValues}
    (h : variableValues schema parameters given = .ok bindings) {name : String}
    (hlookup : bindings.lookup name = some d) :
    ∃ v ∈ parameters, v.name.text = name ∧ variableValue schema given v = (some d, []) := by
  unfold variableValues at h
  dsimp only at h
  split at h
  · next hfaults =>
      obtain rfl := Except.ok.inj h
      obtain ⟨outcome, houtcome, hvalue⟩ :=
        List.mem_filterMap.mp (Association.mem_of_lookup hlookup)
      obtain ⟨v, hv, rfl⟩ := List.mem_map.mp houtcome
      obtain ⟨x, hx, hnamed⟩ := Option.map_eq_some_iff.mp hvalue
      obtain ⟨rfl, rfl⟩ := Prod.mk.inj hnamed
      rw [List.isEmpty_iff, List.flatMap_eq_nil_iff] at hfaults
      exact ⟨v, hv, rfl, Prod.ext hx (hfaults _ (List.mem_map_of_mem hv))⟩
  · split at h <;> cases h

end Variables

/-- Where a variable may be used, its values are admitted, but for null itself. -/
theorem admits_of_isAllowedUse {schema : Schema} {v : VariableDef} {type : TypeExpr}
    {hasDefault : Bool} (h : isAllowedUse schema v type hasDefault) {d : Datum}
    (hadmits : v.type.Admits d) : type.nullable.Admits d := by
  unfold isAllowedUse at h
  split at h
  · exact (TypeExpr.admits_iff.mp (Schema.admits_of_isSubtype h hadmits)).2
  · rw [Bool.and_eq_true] at h
    exact Schema.admits_of_isSubtype h.2 hadmits
  · exact (TypeExpr.admits_iff.mp (Schema.admits_of_isSubtype h hadmits)).2

/-- A variable that may be used for a value of a named type is of a type below it. -/
theorem isSubtype_of_isAllowedUse {schema : Schema} {v : VariableDef} {name : String}
    {hasDefault : Bool} (h : isAllowedUse schema v (.nonNull (.named name)) hasDefault) :
    schema.isSubtype v.type (.named name) := by
  unfold isAllowedUse at h
  split at h
  · next inner sub hinner hsub =>
      obtain rfl := TypeExpr.nonNull.inj hinner
      rw [hsub, Schema.isSubtype] at h
      rw [hsub]
      simpa [Schema.isSubtype] using h
  · next inner _ hinner _ =>
      obtain rfl := TypeExpr.nonNull.inj hinner
      exact (Bool.and_eq_true _ _ ▸ h).2
  · next hnone _ => exact absurd rfl (hnone _)

/-- Only an input type itself is below it. -/
theorem eq_of_isSubtype_input {schema : Schema} {name : String} {slots : List InputSlot}
    (hshape : schema.shape? (.named name) = some (.input slots)) {type : TypeExpr}
    (hwritten : type.isWritten) (h : schema.isSubtype type (.named name)) :
    type = .named name ∨ type = .nonNull (.named name) := by
  have hnamed {other : String} (h : schema.isSubtype (.named other) (.named name)) :
      other = name := by
    rw [Schema.isSubtype, Bool.or_eq_true, beq_iff_eq] at h
    rcases h with h | h
    · exact h
    · rw [Schema.isBelow, hshape] at h
      cases h
  cases type with
  | named other => exact .inl (congrArg _ (hnamed h))
  | list item => simp [Schema.isSubtype] at h
  | nonNull inner =>
      cases inner with
      | named other => exact .inr (congrArg _ (congrArg _ (hnamed h)))
      | list item => simp [Schema.isSubtype] at h
      | nonNull more => simp [TypeExpr.isWritten, TypeExpr.isNonNull] at hwritten

/-! ## Arguments -/

section Arguments

variable {schema : Schema} {field : OutputField} {offer : Offer} {arguments : Datum.Entries}

/-- Without variables, a field accepts whatever its arguments can be read from. -/
theorem accepts_literals {literals : List Argument}
    (h : argumentValues schema [] field.arguments literals = .ok arguments) :
    Accepts schema field ⟨[], [], literals⟩ arguments where
  distinct := List.nodup_nil
  known := nofun
  fitting := fun _ _ => nofun
  values := ⟨[], rfl, h⟩

/-- The values of variables are admitted wherever an accepted offer uses them. -/
theorem Accepts.admitted (haccepts : Accepts schema field offer arguments)
    {bindings : VariableValues}
    (hbindings : variableValues schema offer.parameters offer.given = .ok bindings) :
    ∀ use ∈ usesAmong (each (argumentVisits (Scope.narrow schema)) offer.literals
      { field := some field }), use.Admitted bindings := by
  intro use huse type d htype hlookup
  obtain ⟨v, hv, hname, hvalue⟩ := exists_variable hbindings hlookup
  exact admits_of_isAllowedUse (haccepts.fitting use huse v hv hname type htype)
    (variableValue_admits (haccepts.known v hv) hvalue)

/-- The value of a required argument is read from what is written for it. -/
theorem argumentValue_eq_ok {bindings : VariableValues} {literals : List Argument}
    {slot : InputSlot} (hmark : slot.type.isNonNull) (hdefault : slot.default = none)
    {found : Option Datum} (h : argumentValue schema bindings literals slot = .ok found) :
    ∃ a ∈ literals, a.name.text = slot.name ∧ ∃ d, found = some d ∧
      Literal.read (shapes schema) bindings slot.type a.value = some d := by
  unfold argumentValue at h
  simp only [hdefault, hmark, if_true] at h
  split at h
  · cases h
  · next a ha =>
      refine ⟨a, List.mem_reverse.mp (List.mem_of_find?_eq_some ha),
        by simpa using List.find?_some ha, ?_⟩
      cases hread : Literal.read (shapes schema) bindings slot.type a.value with
      | none =>
          simp only [hread] at h
          repeat' split at h
          all_goals cases h
      | some d =>
          refine ⟨d, ?_, rfl⟩
          simp only [hread] at h
          repeat' split at h
          all_goals cases h
          all_goals rfl

/-- Under distinct names, each name has the value of its own slot. -/
theorem lookup_slots {slots : List InputSlot} (hdistinct : (slots.map (·.name)).Nodup)
    (value : InputSlot → Option Datum) {slot : InputSlot} (hslot : slot ∈ slots) :
    (slots.filterMap fun slot => (value slot).map fun d => (slot.name, d)).lookup slot.name =
      value slot := by
  induction slots with
  | nil => cases hslot
  | cons first rest ih =>
      obtain ⟨hnew, hrest⟩ := List.nodup_cons.mp hdistinct
      have hnone : (rest.filterMap fun slot => (value slot).map fun d => (slot.name, d)).lookup
          first.name = none := by
        apply Association.lookup_eq_none
        intro hmem
        obtain ⟨entry, hentry, hname⟩ := List.mem_map.mp hmem
        obtain ⟨other, hother, hvalue⟩ := List.mem_filterMap.mp hentry
        obtain ⟨d, -, rfl⟩ := Option.map_eq_some_iff.mp hvalue
        exact hnew (List.mem_map.mpr ⟨other, hother, hname⟩)
      rw [List.filterMap_cons]
      rcases List.mem_cons.mp hslot with rfl | hmem
      · cases hvalue : value slot with
        | none => exact hnone
        | some d => simp
      · have hother : slot.name ≠ first.name :=
          fun hsame => hnew (List.mem_map.mpr ⟨slot, hmem, hsame⟩)
        cases hvalue : value first with
        | none => exact ih hrest hmem
        | some d => simpa [Association.lookup_cons, hother] using ih hrest hmem

/-- The arguments of a field are the values of its slots. -/
theorem lookup_argumentValues {bindings : VariableValues} {slots : List InputSlot}
    {literals : List Argument} (hdistinct : (slots.map (·.name)).Nodup)
    (h : argumentValues schema bindings slots literals = .ok arguments) {slot : InputSlot}
    (hslot : slot ∈ slots) :
    argumentValue schema bindings literals slot = .ok (arguments.lookup slot.name) := by
  obtain ⟨values, hvalues, hpure⟩ := bind_eq_ok.mp h
  obtain rfl := Except.ok.inj hpure
  rw [mapM_eq_ok] at hvalues
  let value (slot : InputSlot) : Option Datum :=
    ((argumentValue schema bindings literals slot).toOption).join
  have heach {slot : InputSlot} (hslot : slot ∈ slots) :
      argumentValue schema bindings literals slot = .ok (value slot) := by
    have hmem := List.mem_map_of_mem (f := fun slot : InputSlot => do
      return (slot.name, ← argumentValue schema bindings literals slot)) hslot
    rw [hvalues] at hmem
    obtain ⟨named, -, hnamed⟩ := List.mem_map.mp hmem
    obtain ⟨found, hfound, -⟩ := bind_eq_ok.mp hnamed.symm
    simp only [value, hfound]
    rfl
  have hall : values = slots.map fun slot => (slot.name, value slot) := by
    apply (List.map_inj_right fun _ _ => Except.ok.inj).mp
    rw [← hvalues, List.map_map]
    exact List.map_congr_left fun slot hslot => by rw [heach hslot]; rfl
  rw [heach hslot, hall, List.filterMap_map]
  exact congrArg _ (lookup_slots hdistinct value hslot).symm

/-- The data that a field accepts fills the fields of the input type that it takes. -/
theorem Accepts.fills (haccepts : Accepts schema field offer arguments)
    (hdistinct : (field.arguments.map (·.name)).Nodup) {slot : InputSlot}
    (hslot : slot ∈ field.arguments) (hdefault : slot.default = none) {name : String}
    (htype : slot.type = .nonNull (.named name)) (hwritten : slot.type.isWritten)
    {slots : List InputSlot}
    (hshape : schema.shape? (.named name) = some (.input slots))
    (hdefaults : ∀ slot ∈ slots, slot.default = none)
    (hslots : ∀ slot ∈ slots, slot.type.isWritten ∧ schema.isOf TypeShape.isInput slot.type) :
    ∃ filled, arguments.lookup slot.name = some (.record filled) ∧ Fills slots filled := by
  obtain ⟨bindings, hbindings, harguments⟩ := haccepts.values
  have hadmitted := haccepts.admitted hbindings
  have hvalue := lookup_argumentValues hdistinct harguments hslot
  obtain ⟨a, ha, haname, d, hd, hread⟩ :=
    argumentValue_eq_ok (by rw [htype]; rfl) hdefault hvalue
  have hfind : field.arguments.find? (·.name == a.name.text) = some slot :=
    (find?_eq_some_of_nodup hdistinct).mpr ⟨hslot, haname.symm⟩
  have hinput : schema.isOf TypeShape.isInput slot.type := by
    rw [Schema.isOf, htype]
    change (schema.shape? (.named name)).any _ = true
    rw [hshape]
    rfl
  let scope := Scope.narrow schema (.argument a) { field := some field }
  have hscope : scope.input = some slot.type := by
    simp only [scope, Scope.narrow, hfind, Option.map_some]
    exact Scope.input_intoValue hinput _ _
  have hinside : ∀ use ∈ usesAmong (valueVisits (Scope.narrow schema) a.value scope),
      use ∈ usesAmong (each (argumentVisits (Scope.narrow schema)) offer.literals
        { field := some field }) :=
    fun use huse => mem_usesAmong_each ha (mem_usesAmong_around huse)
  have huses := fun use huse => hadmitted use (hinside use huse)
  have hne : d ≠ .null :=
    (TypeExpr.admits_iff.mp (Literal.read_admits a.value hwritten hinput hscope huses hread)).1
      (by rw [htype]; rfl)
  have hfills : ∃ filled, d = .record filled ∧ Fills slots filled := by
    by_cases hvariable : ∃ pos other, a.value = .variable pos other
    · obtain ⟨pos, other, hvariable⟩ := hvariable
      rw [hvariable] at hread hinside
      have huse := hinside _ (mem_usesAmong_variable _ pos other scope rfl)
      have hlookup : bindings.lookup other = some d := by
        rw [Literal.read] at hread
        split at hread
        · split at hread
          · cases hread
          · exact absurd (Option.some.inj hread).symm hne
        · exact hread
      obtain ⟨v, hv, hname, hvalue⟩ := exists_variable hbindings hlookup
      have hallowed := haccepts.fitting _ huse v hv hname slot.type hscope
      have hbase : v.type = .named name ∨ v.type = .nonNull (.named name) :=
        eq_of_isSubtype_input hshape (haccepts.known v hv).1
          (isSubtype_of_isAllowedUse (htype ▸ hallowed))
      exact variableValue_fills hshape hdefaults hslots hbase hne hvalue
    · refine Literal.fills_of_read hshape hshape hdefaults hslots (.inr htype) ?_ hscope huses hne
        hread
      exact fun pos other hvalue => hvariable ⟨pos, other, hvalue⟩
  obtain ⟨filled, rfl, hfills⟩ := hfills
  exact ⟨filled, hd, hfills⟩

end Arguments

end RecordApi.Request
