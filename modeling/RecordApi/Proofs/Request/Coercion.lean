import RecordApi.Proofs.Request.Marks
import RecordApi.Request.Variables

/-!
# Values brought to types

Bringing a value to a type adds faults and takes none away. Without new faults, what comes out is
admitted by the type, if the depth is at least that of the type; and a record at an input type fills
the fields of the type, so the required ones among them have values.
-/

namespace RecordApi.Request

open RecordApi.Language

/-! ## Faults that are written down -/

section Faults

variable {α β : Type}

/-- Whether faults are added only. -/
def Grows (coercing : Coercing α) : Prop :=
  ∀ faults, faults <+: (coercing.run faults).2

/-- Whether faults are added only, and what comes of it without faults is as it should be. -/
structure Clean (coercing : Coercing α) (good : α → Prop) : Prop where
  grows : Grows coercing
  good : ∀ faults, (coercing.run faults).2 = faults → good (coercing.run faults).1

variable {first : Coercing α} {next : α → Coercing β} {good : α → Prop} {fine : β → Prop}

theorem grows_pure (a : α) : Grows (pure a : Coercing α) :=
  fun faults => List.prefix_refl faults

theorem Grows.bind (hfirst : Grows first) (hnext : ∀ a, Grows (next a)) :
    Grows (first >>= next) :=
  fun faults => (hfirst faults).trans (hnext _ _)

theorem clean_pure {a : α} (h : good a) : Clean (pure a) good :=
  ⟨grows_pure a, fun _ _ => h⟩

theorem Clean.bind (hfirst : Clean first good) (hgrows : ∀ a, Grows (next a))
    (hnext : ∀ a, good a → Clean (next a) fine) : Clean (first >>= next) fine where
  grows := hfirst.grows.bind hgrows
  good := by
    intro faults hsame
    have hrest := hgrows (first.run faults).1 (first.run faults).2
    change ((next (first.run faults).1).run (first.run faults).2).2 = faults at hsame
    rw [hsame] at hrest
    have hstill : (first.run faults).2 = faults :=
      hrest.eq_of_length_le (hfirst.grows faults).length_le
    exact (hnext _ (hfirst.good faults hstill)).good _ (hsame.trans hstill.symm)

theorem Clean.mono (h : Clean first good) {other : α → Prop} (himp : ∀ a, good a → other a) :
    Clean first other :=
  ⟨h.grows, fun faults hsame => himp _ (h.good faults hsame)⟩

theorem clean_noteFault (path : List PathStep) (value : Datum) (message : String) :
    Clean (noteFault path value message) fun _ => False where
  grows := fun faults => List.prefix_append _ _
  good := by
    intro faults hsame
    change faults ++ _ = faults at hsame
    simp at hsame

theorem clean_noteReading (path : List PathStep) (value : Datum) (outcome : Except String Datum) :
    Clean (noteReading path value outcome) fun d => outcome = .ok d := by
  cases outcome with
  | ok d => exact clean_pure rfl
  | error message =>
      exact (clean_noteFault path value message).bind (fun _ => grows_pure _) fun _ h => h.elim

variable {γ : Type} {items : List γ}

theorem grows_mapM {step : γ → Coercing α} (h : ∀ x, Grows (step x)) : Grows (items.mapM step) := by
  induction items with
  | nil => exact grows_pure []
  | cons x rest ih =>
      rw [List.mapM_cons]
      exact (h x).bind fun _ => ih.bind fun _ => grows_pure _

theorem clean_mapM {step : γ → Coercing α} (h : ∀ x, Clean (step x) good) :
    Clean (items.mapM step) fun answers => ∀ a ∈ answers, good a := by
  induction items with
  | nil => exact clean_pure nofun
  | cons x rest ih =>
      rw [List.mapM_cons]
      refine (h x).bind (fun _ => ih.grows.bind fun _ => grows_pure _) fun a ha =>
        ih.bind (fun _ => grows_pure _) fun more hmore => clean_pure ?_
      exact List.forall_mem_cons.mpr ⟨ha, hmore⟩

theorem grows_filterMapM {step : γ → Coercing (Option α)} (h : ∀ x, Grows (step x)) :
    Grows (items.filterMapM step) := by
  induction items with
  | nil => exact grows_pure []
  | cons x rest ih =>
      rw [List.filterMapM_cons]
      refine (h x).bind fun found => ?_
      cases found with
      | none => exact ih
      | some a => exact ih.bind fun _ => grows_pure _

/-- What a filter without faults answers: each answer is one to an item, and each item has an answer
or needs none. -/
theorem clean_filterMapM {step : γ → Coercing (Option α)} {answers : γ → Option α → Prop}
    (h : ∀ x ∈ items, Clean (step x) (answers x)) :
    Clean (items.filterMapM step) fun found =>
      (∀ a ∈ found, ∃ x ∈ items, answers x (some a)) ∧
        ∀ x ∈ items, (∃ a ∈ found, answers x (some a)) ∨ answers x none := by
  induction items with
  | nil => exact clean_pure ⟨nofun, nofun⟩
  | cons x rest ih =>
      obtain ⟨hfirst, hrest⟩ := List.forall_mem_cons.mp h
      have ih := ih hrest
      rw [List.filterMapM_cons]
      refine hfirst.bind (fun found => ?_) fun found hx => ?_
      · cases found with
        | none => exact ih.grows
        | some a => exact ih.grows.bind fun _ => grows_pure _
      cases found with
      | none =>
          refine ih.mono fun found hfound => ⟨fun a ha => ?_, ?_⟩
          · obtain ⟨y, hy, hanswers⟩ := hfound.1 a ha
            exact ⟨y, List.mem_cons_of_mem x hy, hanswers⟩
          · exact List.forall_mem_cons.mpr ⟨.inr hx, hfound.2⟩
      | some a =>
          refine ih.bind (fun _ => grows_pure _) fun found hfound =>
            clean_pure ⟨List.forall_mem_cons.mpr ⟨⟨x, List.mem_cons_self, hx⟩, fun b hb => ?_⟩,
              List.forall_mem_cons.mpr ⟨.inl ⟨a, List.mem_cons_self, hx⟩, fun y hy => ?_⟩⟩
          · obtain ⟨y, hy, hanswers⟩ := hfound.1 b hb
            exact ⟨y, List.mem_cons_of_mem x hy, hanswers⟩
          · refine (hfound.2 y hy).imp_left ?_
            rintro ⟨b, hb, hanswers⟩
            exact ⟨b, List.mem_cons_of_mem a hb, hanswers⟩

theorem grows_forIn {step : γ → α → Coercing (ForInStep α)} (h : ∀ x a, Grows (step x a)) (a : α) :
    Grows (forIn items a step) := by
  induction items generalizing a with
  | nil => exact grows_pure a
  | cons x rest ih =>
      rw [List.forIn_cons]
      refine (h x a).bind fun outcome => ?_
      cases outcome with
      | done b => exact grows_pure b
      | yield b => exact ih b

end Faults

/-! ## Values at types -/

/-- The value of a field of an input type that a record gives, or its default. -/
def coerceSlot (schema : Schema) (depth : Nat) (path : List PathStep)
    (entries : List (String × Datum)) (slot : InputSlot) : Coercing (Option (String × Datum)) := do
  match entries.lookup slot.name with
  | some value =>
    let coerced ← coerceInput schema depth slot.type (.key slot.name :: path) value
    return some (slot.name, coerced)
  | none =>
    match slot.default with
    | some value => return some (slot.name, value)
    | none =>
      if slot.type.isNonNull then
        noteFault path (.record entries) ("Field '" ++ slot.name ++ "' of required type '" ++
          slot.type.text ++ "' was not provided.")
      return none

/-- Writes down the entries of a record that an input type has no fields for. -/
def noteUnknown (name : String) (path : List PathStep) (entries : List (String × Datum))
    (known : List String) : Coercing Unit := do
  for (key, _) in entries do
    if !known.contains key then
      noteFault path (.record entries) ("Field '" ++ key ++ "' is not defined by type '" ++ name ++
        "'." ++ Text.didYouMean (Text.similarNames key known))

theorem grows_noteUnknown (name : String) (path : List PathStep) (entries : List (String × Datum))
    (known : List String) : Grows (noteUnknown name path entries known) := by
  refine Grows.bind (grows_forIn (fun entry _ => ?_) _) fun _ => grows_pure _
  obtain ⟨key, value⟩ := entry
  dsimp only
  split
  · exact (clean_noteFault _ _ _).grows.bind fun _ => grows_pure _
  · exact grows_pure _

variable {schema : Schema} {name : String} {slots : List InputSlot}

theorem coerceInput_record (hshape : schema.shape? (.named name) = some (.input slots))
    (depth : Nat) (path : List PathStep) (entries : List (String × Datum)) :
    coerceInput schema (depth + 1) (.named name) path (.record entries) = do
      let filled ← slots.filterMapM (coerceSlot schema depth path entries)
      noteUnknown name path entries (slots.map (·.name))
      return .record filled := by
  simp only [coerceInput, hshape]
  rfl

theorem grows_coerceSlot {depth : Nat}
    (h : ∀ type path d, Grows (coerceInput schema depth type path d)) (path : List PathStep)
    (entries : List (String × Datum)) (slot : InputSlot) :
    Grows (coerceSlot schema depth path entries slot) := by
  unfold coerceSlot
  split
  · exact (h _ _ _).bind fun _ => grows_pure _
  · split
    · exact grows_pure _
    · split
      · exact (clean_noteFault _ _ _).grows.bind fun _ => grows_pure _
      · exact grows_pure _

/-- Whatever a value is brought to, faults are added only. -/
theorem grows_coerceInput (schema : Schema) (depth : Nat) (type : TypeExpr) (path : List PathStep)
    (d : Datum) : Grows (coerceInput schema depth type path d) := by
  induction depth generalizing type path d with
  | zero => exact grows_pure _
  | succ depth ih =>
      have hnoted (value : Datum) (message : String) :
          Grows (do noteFault path value message; return Datum.null) :=
        (clean_noteFault _ _ _).grows.bind fun _ => grows_pure _
      cases type with
      | nonNull inner => cases d <;> first | exact hnoted _ _ | exact ih _ _ _
      | list item =>
          cases d <;> first
            | exact grows_pure _
            | exact (grows_mapM fun _ => ih _ _ _).bind fun _ => grows_pure _
            | exact (ih _ _ _).bind fun _ => grows_pure _
      | named name =>
          cases hshape : schema.shape? (.named name) with
          | none =>
              cases d <;> simp only [coerceInput, hshape] <;> first
                | exact grows_pure _
                | exact (clean_noteReading _ _ _).grows
          | some shape =>
              cases shape with
              | input slots =>
                  cases d with
                  | null => exact grows_pure _
                  | record entries =>
                      rw [coerceInput_record hshape]
                      refine (grows_filterMapM fun slot => ?_).bind fun _ =>
                        (grows_noteUnknown _ _ _ _).bind fun _ => grows_pure _
                      exact grows_coerceSlot ih path entries slot
                  | _ =>
                      simp only [coerceInput, hshape]
                      exact hnoted _ _
              | _ =>
                  cases d <;> simp only [coerceInput, hshape] <;> first
                    | exact grows_pure _
                    | exact (clean_noteReading _ _ _).grows

/-- A value that is brought to a named type is null just if it was before. -/
theorem clean_coerceInput_named (depth : Nat) (path : List PathStep) {d : Datum} (hd : d ≠ .null) :
    Clean (coerceInput schema (depth + 1) (.named name) path d) fun v => v ≠ .null := by
  have hscalar : Clean (noteReading path d (scalarInput name d)) fun v => v ≠ .null :=
    (clean_noteReading _ _ _).mono fun _ => scalarInput_ne_null hd
  cases hshape : schema.shape? (.named name) with
  | none =>
      cases d <;> simp only [coerceInput, hshape] <;> first
        | exact hscalar
        | exact absurd rfl hd
  | some shape =>
      cases shape with
      | input slots =>
          cases d with
          | null => exact absurd rfl hd
          | record entries =>
              rw [coerceInput_record hshape]
              have hslots : Grows (slots.filterMapM (coerceSlot schema depth path entries)) :=
                grows_filterMapM fun _ => grows_coerceSlot (grows_coerceInput schema depth) _ _ _
              exact ⟨hslots.bind fun _ => (grows_noteUnknown _ _ _ _).bind fun _ => grows_pure _,
                fun _ _ => nofun⟩
          | _ =>
              simp only [coerceInput, hshape]
              exact (clean_noteFault _ _ _).bind (fun _ => grows_pure _) fun _ h => h.elim
      | enum options =>
          have henum : Clean (noteReading path d (enumInput name (options.map (·.name)) d))
              fun v => v ≠ .null :=
            (clean_noteReading _ _ _).mono fun _ => enumInput_ne_null
          cases d <;> simp only [coerceInput, hshape] <;> first
            | exact henum
            | exact absurd rfl hd
      | _ =>
          cases d <;> simp only [coerceInput, hshape] <;> first
            | exact hscalar
            | exact absurd rfl hd

theorem coerceInput_nonNull (depth : Nat) (inner : TypeExpr) (path : List PathStep) {d : Datum}
    (hd : d ≠ .null) : coerceInput schema (depth + 1) (.nonNull inner) path d =
      coerceInput schema depth inner path d := by
  cases d <;> first | rfl | exact absurd rfl hd

/-- What comes of a value without faults is admitted by its type. -/
theorem clean_coerceInput {depth : Nat} {type : TypeExpr} (hdepth : typeDepth type ≤ depth)
    (path : List PathStep) (d : Datum) :
    Clean (coerceInput schema depth type path d) fun v =>
      type.Admits v ∧ (d ≠ .null → v ≠ .null) := by
  induction type generalizing depth path d with
  | named name =>
      obtain ⟨depth, rfl⟩ : ∃ more, depth = more + 1 := Nat.exists_eq_add_one.mpr hdepth
      by_cases hd : d = .null
      · subst hd
        exact clean_pure ⟨trivial, fun h => absurd rfl h⟩
      · exact (clean_coerceInput_named depth path hd).mono fun v hv => ⟨trivial, fun _ => hv⟩
  | list item ih =>
      rw [typeDepth, Nat.add_comm] at hdepth
      obtain ⟨depth, rfl⟩ : ∃ more, depth = more + 1 :=
        Nat.exists_eq_add_one.mpr (Nat.lt_of_lt_of_le (Nat.succ_pos _) hdepth)
      have hitem : typeDepth item ≤ depth := Nat.le_of_succ_le_succ hdepth
      have halone (d : Datum) : Clean (do return .list [← coerceInput schema depth item path d])
          fun v => (TypeExpr.list item).Admits v ∧ (d ≠ .null → v ≠ .null) := by
        refine (ih hitem path d).bind (fun _ => grows_pure _) fun v hv =>
          clean_pure ⟨?_, fun _ => nofun⟩
        exact TypeExpr.admits_list rfl fun x hx => List.mem_singleton.mp hx ▸ hv.1
      cases d with
      | null => exact clean_pure ⟨TypeExpr.admits_null rfl, fun h => absurd rfl h⟩
      | list items =>
          refine Clean.bind (@clean_mapM _ item.Admits _ _ _ ?_) (fun _ => grows_pure _)
            fun answers h => clean_pure ⟨TypeExpr.admits_list rfl h, fun _ => nofun⟩
          rintro ⟨d, index⟩
          exact (ih hitem _ d).mono fun v hv => hv.1
      | _ => exact halone _
  | nonNull inner ih =>
      rw [typeDepth, Nat.add_comm] at hdepth
      obtain ⟨depth, rfl⟩ : ∃ more, depth = more + 1 :=
        Nat.exists_eq_add_one.mpr (Nat.lt_of_lt_of_le (Nat.succ_pos _) hdepth)
      by_cases hd : d = .null
      · subst hd
        exact (clean_noteFault _ _ _).bind (fun _ => grows_pure _) fun _ h => h.elim
      · rw [coerceInput_nonNull depth inner path hd]
        exact (ih (Nat.le_of_succ_le_succ hdepth) path d).mono fun v hv =>
          ⟨⟨hv.2 hd, hv.1⟩, hv.2⟩

/-! ## Records at input types -/

/-- Whether entries fill the fields of an input type: each belongs to a field and is admitted by its
type, and no field that is marked against null is left out. -/
structure Fills (slots : List InputSlot) (entries : Datum.Entries) : Prop where
  admits : ∀ entry ∈ entries, ∃ slot ∈ slots, slot.name = entry.1 ∧ slot.type.Admits entry.2
  complete : ∀ slot ∈ slots, slot.type.isNonNull → slot.name ∈ entries.map Prod.fst

theorem clean_coerceSlot {depth : Nat} {slot : InputSlot} (hdefault : slot.default = none)
    (hdepth : typeDepth slot.type ≤ depth) (path : List PathStep)
    (entries : List (String × Datum)) :
    Clean (coerceSlot schema depth path entries slot) fun found =>
      (∀ entry, found = some entry → slot.name = entry.1 ∧ slot.type.Admits entry.2) ∧
        (found = none → slot.type.isNonNull = false) := by
  unfold coerceSlot
  split
  · refine (clean_coerceInput hdepth _ _).bind (fun _ => grows_pure _) fun v hv =>
      clean_pure ⟨?_, nofun⟩
    rintro _ ⟨⟩
    exact ⟨rfl, hv.1⟩
  · rw [hdefault]
    dsimp only
    split
    · exact (clean_noteFault _ _ _).bind (fun _ => grows_pure _) fun _ h => h.elim
    · next hmark => exact clean_pure ⟨nofun, fun _ => by simpa using hmark⟩

/-- A record without faults fills the fields of its input type. -/
theorem clean_coerceInput_record (hshape : schema.shape? (.named name) = some (.input slots))
    (hdefaults : ∀ slot ∈ slots, slot.default = none) {depth : Nat}
    (hdepth : ∀ slot ∈ slots, typeDepth slot.type ≤ depth) (path : List PathStep) {d : Datum}
    (hd : d ≠ .null) :
    Clean (coerceInput schema (depth + 1) (.named name) path d) fun v =>
      ∃ filled, v = .record filled ∧ Fills slots filled := by
  cases d with
  | null => exact absurd rfl hd
  | record entries =>
      rw [coerceInput_record hshape]
      have hslots (slot : InputSlot) (hslot : slot ∈ slots) :=
        @clean_coerceSlot schema _ _ (hdefaults slot hslot) (hdepth slot hslot) path entries
      refine (clean_filterMapM hslots).bind
        (fun _ => (grows_noteUnknown _ _ _ _).bind fun _ => grows_pure _) fun filled h =>
          ⟨(grows_noteUnknown _ _ _ _).bind fun _ => grows_pure _, fun _ _ => ⟨filled, rfl, ?_⟩⟩
      obtain ⟨hof, hfor⟩ := h
      constructor
      · intro entry hentry
        obtain ⟨slot, hslot, hadmits, -⟩ := hof entry hentry
        exact ⟨slot, hslot, hadmits entry rfl⟩
      · intro slot hslot hmark
        rcases hfor slot hslot with ⟨entry, hentry, hadmits, -⟩ | ⟨-, hnone⟩
        · exact (hadmits entry rfl).1 ▸ List.mem_map_of_mem hentry
        · exact absurd hmark (by simp [hnone rfl])
  | _ =>
      simp only [coerceInput, hshape]
      exact (clean_noteFault _ _ _).bind (fun _ => grows_pure _) fun _ h => h.elim

end RecordApi.Request
