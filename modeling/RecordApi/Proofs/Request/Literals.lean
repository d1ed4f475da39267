import RecordApi.Proofs.Request.Coercion
import RecordApi.Validation.Fragments

/-!
# Literals at types

What a literal stands for at a type is admitted by the type, if the values of its variables are
admitted where they stand; where a variable itself is null, reading it looks at the mark. An object
at an input type fills the fields of the type.
-/

namespace RecordApi

open RecordApi.Language Validation

/-! ## Uses of variables -/

/-- Whether the value of a variable is admitted where the variable stands, but for null itself. -/
def Validation.VariableUse.Admitted (bindings : VariableValues) (use : VariableUse) : Prop :=
  ∀ type d, use.type = some type → bindings.lookup use.name = some d → type.nullable.Admits d

theorem Validation.VariableUse.admitted_nil (use : VariableUse) : use.Admitted [] :=
  fun _ _ _ hlookup => by cases hlookup

namespace Validation

theorem usesAmong_append (first second : List (Visit Scope)) :
    usesAmong (first ++ second) = usesAmong first ++ usesAmong second :=
  List.filterMap_append

/-- The uses inside a part are among the uses around it. -/
theorem mem_usesAmong_around {narrow : Narrowing Scope} {part : Part}
    {inside : Scope → List (Visit Scope)} {scope : Scope} {use : VariableUse}
    (h : use ∈ usesAmong (inside (narrow part scope))) :
    use ∈ usesAmong (around narrow part inside scope) := by
  have hsplit : around narrow part inside scope =
      [⟨true, part, narrow part scope⟩] ++ inside (narrow part scope) ++
        [⟨false, part, narrow part scope⟩] := rfl
  rw [hsplit, usesAmong_append, usesAmong_append]
  exact List.mem_append_left _ (List.mem_append_right _ h)

theorem mem_usesAmong_each {α : Type} {visits : α → Scope → List (Visit Scope)} {things : List α}
    {thing : α} (hthing : thing ∈ things) {scope : Scope} {use : VariableUse}
    (h : use ∈ usesAmong (visits thing scope)) : use ∈ usesAmong (each visits things scope) := by
  obtain ⟨visit, hvisit, huse⟩ := List.mem_filterMap.mp h
  exact List.mem_filterMap.mpr ⟨visit, List.mem_flatMap.mpr ⟨thing, hthing, hvisit⟩, huse⟩

theorem mem_usesAmong_variable (narrow : Narrowing Scope) (pos : Pos) (name : String)
    (scope : Scope) (h : narrow (.value (.variable pos name)) scope = scope) :
    ⟨pos, name, scope.input, scope.hasDefault⟩ ∈
      usesAmong (valueVisits narrow (.variable pos name) scope) := by
  simp [valueVisits, alone, around, usesAmong, h]

theorem Scope.input_intoValue {schema : Schema} {type : TypeExpr}
    (h : schema.isOf TypeShape.isInput type) (hasDefault : Bool) (scope : Scope) :
    (Scope.intoValue schema (some type) hasDefault scope).input = some type := by
  simp [Scope.intoValue, Scope.input, Option.filter, h]

/-- The uses in a field of an object, at the type that the field has. -/
theorem mem_usesAmong_valueField {narrow : Narrowing Scope} {fields : List (Name × Value)}
    {scope : Scope} {name : Name} {value : Value} (hfield : (name, value) ∈ fields)
    {use : VariableUse}
    (h : use ∈ usesAmong (valueVisits narrow value (narrow (.valueField name value) scope))) :
    use ∈ usesAmong (valueFieldVisits narrow fields scope) := by
  induction fields with
  | nil => cases hfield
  | cons field rest ih =>
      obtain ⟨other, otherValue⟩ := field
      rw [valueFieldVisits, usesAmong_append, List.mem_append]
      rcases List.mem_cons.mp hfield with hsame | hrest
      · obtain ⟨rfl, rfl⟩ := Prod.mk.inj hsame
        exact .inl (mem_usesAmong_around h)
      · exact .inr (ih hrest)

end Validation

/-! ## Literals -/

namespace Literal

variable {schema : Schema} {shapes : ShapeLookup} {bindings : VariableValues}

theorem admits_of_not_list {type : TypeExpr} (hwritten : type.isWritten)
    (hlist : ∀ item, type.nullable ≠ .list item) {d : Datum} (hd : d ≠ .null) : type.Admits d := by
  cases type with
  | named name => trivial
  | list item => exact absurd rfl (hlist item)
  | nonNull inner =>
      cases inner with
      | named name => exact ⟨hd, trivial⟩
      | list item => exact absurd rfl (hlist item)
      | nonNull more => simp [TypeExpr.isWritten, TypeExpr.isNonNull] at hwritten

/-- Null stands for itself where it may stand. -/
theorem admits_of_unmarked {type : TypeExpr} {d : Datum}
    (h : (if type.isNonNull then none else some .null) = some d) : type.Admits d := by
  split at h
  · cases h
  · next hmark =>
      obtain rfl := Option.some.inj h
      exact TypeExpr.admits_null (by simpa using hmark)

/-- A variable stands for its value, which is null only where null may stand. -/
theorem read_admits_variable {pos : Pos} {name : String} {type : TypeExpr}
    (huse : ∀ d, bindings.lookup name = some d → type.nullable.Admits d) {d : Datum}
    (h : read shapes bindings type (.variable pos name) = some d) : type.Admits d := by
  rw [read] at h
  split at h
  · exact admits_of_unmarked h
  · next hother =>
      refine TypeExpr.admits_iff.mpr ⟨fun _ hnull => ?_, huse d h⟩
      exact hother (hnull ▸ h)

theorem admits_map_wrap {type : TypeExpr} {found : Option Datum} {d : Datum}
    (hfound : ∀ x, found = some x → x ≠ .null) (h : found.map (wrap type) = some d) :
    type.Admits d := by
  obtain ⟨x, hx, rfl⟩ := Option.map_eq_some_iff.mp h
  exact admits_wrap (hfound x hx) type

theorem fillSlots_ne_null {given : List (String × Option (Option Datum))} {slots : List InputSlot}
    {d : Datum} (h : fillSlots given slots = some d) : d ≠ .null := by
  obtain ⟨filled, -, h⟩ := Option.bind_eq_some_iff.mp h
  cases h
  exact nofun

theorem item_of_list {type item : TypeExpr} (h : type.nullable = .list item)
    (hwritten : type.isWritten) (hinput : schema.isOf TypeShape.isInput type) :
    item.isWritten ∧ schema.isOf TypeShape.isInput item := by
  have hbase : schema.isOf TypeShape.isInput item = schema.isOf TypeShape.isInput type := by
    cases type <;>
      simp_all [TypeExpr.nullable, TypeExpr.baseName, Schema.isOf, Schema.shape?]
  refine ⟨?_, hbase.trans hinput⟩
  cases type <;> simp_all [TypeExpr.nullable, TypeExpr.isWritten]

mutual

/-- What a literal stands for is admitted by its type. -/
theorem read_admits (value : Value) {type : TypeExpr} (hwritten : type.isWritten)
    (hinput : schema.isOf TypeShape.isInput type) {scope : Scope}
    (hscope : scope.input = some type)
    (huses : ∀ use ∈ usesAmong (valueVisits (Scope.narrow schema) value scope),
      use.Admitted bindings)
    {d : Datum} (h : read shapes bindings type value = some d) : type.Admits d := by
  cases value with
  | null pos =>
      rw [read] at h
      exact admits_of_unmarked h
  | list pos items =>
      rw [read] at h
      split at h
      · next item hitem =>
          obtain ⟨answers, hanswers, rfl⟩ := Option.map_eq_some_iff.mp h
          obtain ⟨hitemWritten, hitemInput⟩ := item_of_list hitem hwritten hinput
          have hinner : (Scope.narrow schema (.value (.list pos items)) scope).input =
              some item := by
            have hof : scope.input.map Scope.itemType = some item := by
              rw [hscope, Option.map_some, Scope.itemType, hitem]
            rw [Scope.narrow, hof]
            exact Scope.input_intoValue hitemInput _ _
          exact TypeExpr.admits_list hitem
            (readItems_admits items hitemWritten hitemInput hinner
              (fun use huse => huses use (mem_usesAmong_around huse)) hanswers)
      · next hlist =>
          exact admits_of_not_list hwritten hlist (readLeaf?_ne_null (by simp [Stands]) h)
  | object pos fields =>
      rw [read] at h
      split at h
      · exact admits_map_wrap (fun x => fillSlots_ne_null) h
      · exact admits_map_wrap (fun x => readLeaf?_ne_null (by simp [Stands])) h
  | _ =>
      first
        | -- A variable stands for what its use is admitted for.
          exact read_admits_variable
            (fun d hd => huses _ (mem_usesAmong_variable _ _ _ scope rfl) type d hscope hd) h
        | simp only [read] at h
          exact admits_map_wrap (fun x => readLeaf?_ne_null (by simp [Stands])) h

theorem readItems_admits (items : List Value) {type : TypeExpr} (hwritten : type.isWritten)
    (hinput : schema.isOf TypeShape.isInput type) {scope : Scope}
    (hscope : scope.input = some type)
    (huses : ∀ use ∈ usesAmong (itemVisits (Scope.narrow schema) items scope),
      use.Admitted bindings)
    {answers : List Datum} (h : readItems shapes bindings type items = some answers) :
    ∀ d ∈ answers, type.Admits d := by
  cases items with
  | nil =>
      rw [readItems] at h
      cases h
      exact nofun
  | cons item rest =>
      rw [readItems] at h
      rw [itemVisits, usesAmong_append] at huses
      obtain ⟨hfirst, hrest⟩ := List.forall_mem_append.mp huses
      split at h
      · next d more hd hmore =>
          obtain rfl := Option.some.inj h
          refine List.forall_mem_cons.mpr
            ⟨?_, readItems_admits rest hwritten hinput hscope hrest hmore⟩
          split at hd
          · exact admits_of_unmarked hd
          · exact read_admits item hwritten hinput hscope hfirst hd
      · cases h

end

/-! ## Objects at input types -/

variable {slots : List InputSlot}

/-- What is read of a field of an object, is read at the type of the field's namesake. -/
theorem exists_field_of_read {fields : List (Name × Value)} {name : String}
    {found : Option Datum}
    (h : (name, some found) ∈ readFields shapes bindings slots fields) :
    ∃ field ∈ fields, field.1.text = name ∧ ∃ slot,
      slots.find? (·.name == field.1.text) = some slot ∧
        found = read shapes bindings slot.type field.2 := by
  induction fields with
  | nil => cases h
  | cons field rest ih =>
      obtain ⟨other, value⟩ := field
      rw [readFields] at h
      rcases List.mem_cons.mp h with hsame | hrest
      · obtain ⟨rfl, hfound⟩ := Prod.mk.inj hsame
        split at hfound
        · cases hfound
        · obtain ⟨slot, hslot, rfl⟩ := Option.map_eq_some_iff.mp hfound.symm
          exact ⟨_, List.mem_cons_self, rfl, slot, hslot, rfl⟩
      · obtain ⟨field, hfield, hread⟩ := ih hrest
        exact ⟨field, List.mem_cons_of_mem _ hfield, hread⟩

/-- A field of an input type that has no default is filled by what is given for it. -/
theorem fillSlot_eq_some {given : List (String × Option (Option Datum))} {slot : InputSlot}
    (hdefault : slot.default = none) {found : Option Datum}
    (h : fillSlot given slot = some found) :
    (∃ d, found = some d ∧ (slot.name, some (some d)) ∈ given) ∨
      found = none ∧ slot.type.isNonNull = false := by
  unfold fillSlot at h
  split at h
  · next value hlookup =>
      obtain ⟨d, rfl, rfl⟩ := Option.map_eq_some_iff.mp h
      exact .inl ⟨d, rfl, Association.mem_of_lookup hlookup⟩
  · rw [hdefault] at h
    dsimp only at h
    split at h
    · cases h
    · next hmark =>
        obtain rfl := Option.some.inj h
        exact .inr ⟨rfl, by simpa using hmark⟩

/-- Answers to all items are there just if each item has one. -/
theorem mapM_eq_some {α β : Type} {f : α → Option β} {xs : List α} {ys : List β} :
    xs.mapM f = some ys ↔ xs.map f = ys.map some := by
  induction xs generalizing ys with
  | nil => cases ys <;> simp
  | cons x rest ih =>
      rw [List.mapM_cons, List.map_cons, Option.bind_eq_bind, Option.bind_eq_some_iff]
      constructor
      · rintro ⟨y, hy, h⟩
        obtain ⟨more, hmore, hys⟩ := Option.bind_eq_some_iff.mp h
        obtain rfl := Option.some.inj hys
        rw [hy, ih.mp hmore, List.map_cons]
      · intro h
        cases ys with
        | nil => cases h
        | cons y more =>
            obtain ⟨hy, hmore⟩ := List.cons.inj h
            exact ⟨y, hy, Option.bind_eq_some_iff.mpr ⟨more, ih.mpr hmore, rfl⟩⟩

theorem fills_of_fillSlots {given : List (String × Option (Option Datum))}
    (hdefaults : ∀ slot ∈ slots, slot.default = none)
    (hgiven : ∀ name d, (name, some (some d)) ∈ given →
      ∃ slot ∈ slots, slot.name = name ∧ slot.type.Admits d)
    {d : Datum} (h : fillSlots given slots = some d) :
    ∃ filled, d = .record filled ∧ Request.Fills slots filled := by
  obtain ⟨found, hfound, hrecord⟩ := Option.bind_eq_some_iff.mp h
  obtain rfl := Option.some.inj hrecord
  rw [mapM_eq_some] at hfound
  refine ⟨_, rfl, fun entry hentry => ?_, fun slot hslot hmark => ?_⟩
  · obtain ⟨named, hnamed, hvalue⟩ := List.mem_filterMap.mp hentry
    have hmem : some named ∈ found.map some := List.mem_map_of_mem hnamed
    rw [← hfound] at hmem
    obtain ⟨slot, hslot, hfill⟩ := List.mem_map.mp hmem
    obtain ⟨value, hslotFill, rfl⟩ := Option.map_eq_some_iff.mp hfill
    obtain ⟨d, rfl, rfl⟩ := Option.map_eq_some_iff.mp hvalue
    rcases fillSlot_eq_some (hdefaults slot hslot) hslotFill with ⟨_, ⟨⟩, hmem⟩ | ⟨hnone, -⟩
    · exact hgiven slot.name d hmem
    · cases hnone
  · have hmem := List.mem_map_of_mem (f := fun slot =>
      (fillSlot given slot).map fun value => (slot.name, value)) hslot
    rw [hfound] at hmem
    obtain ⟨named, hnamed, hfill⟩ := List.mem_map.mp hmem
    obtain ⟨value, hslotFill, rfl⟩ := Option.map_eq_some_iff.mp hfill.symm
    rcases fillSlot_eq_some (hdefaults slot hslot) hslotFill with ⟨d, rfl, -⟩ | ⟨-, hunmarked⟩
    · exact List.mem_map.mpr ⟨(slot.name, d), List.mem_filterMap.mpr ⟨_, hnamed, rfl⟩, rfl⟩
    · rw [hmark] at hunmarked
      cases hunmarked

/-- An object at an input type fills the fields of the type. -/
theorem fills_of_read {name : String} (hname : schema.shape? (.named name) = some (.input slots))
    (hshape : shapes name = some (.input slots))
    (hdefaults : ∀ slot ∈ slots, slot.default = none)
    (hslots : ∀ slot ∈ slots, slot.type.isWritten ∧ schema.isOf TypeShape.isInput slot.type)
    {type : TypeExpr} (hbase : type = .named name ∨ type = .nonNull (.named name)) {value : Value}
    (hvariable : ∀ pos name, value ≠ .variable pos name) {scope : Scope}
    (hscope : scope.input = some type)
    (huses : ∀ use ∈ usesAmong (valueVisits (Scope.narrow schema) value scope),
      use.Admitted bindings)
    {d : Datum} (hd : d ≠ .null) (h : read shapes bindings type value = some d) :
    ∃ filled, d = .record filled ∧ Request.Fills slots filled := by
  have hbaseName : type.baseName = name := by rcases hbase with rfl | rfl <;> rfl
  have hnone (value : Value) : readLeaf? shapes bindings type.baseName value = none := by
    rw [readLeaf?, hbaseName, hshape]
  cases value with
  | null pos =>
      rw [read] at h
      split at h
      · cases h
      · exact absurd (Option.some.inj h).symm hd
  | list pos items =>
      rw [read] at h
      split at h
      · next item hitem => rcases hbase with rfl | rfl <;> cases hitem
      · rw [hnone] at h
        cases h
  | object pos fields =>
      rw [read, hbaseName, hshape] at h
      obtain ⟨record, hfill, rfl⟩ := Option.map_eq_some_iff.mp h
      have hgiven : ∀ name d,
          (name, some (some d)) ∈ (readFields shapes bindings slots fields).reverse →
            ∃ slot ∈ slots, slot.name = name ∧ slot.type.Admits d := by
        intro name d hmem
        obtain ⟨field, hfield, rfl, slot, hfind, hread⟩ :=
          exists_field_of_read (List.mem_reverse.mp hmem)
        have hslot := List.mem_of_find?_eq_some hfind
        obtain ⟨hwritten, hinput⟩ := hslots slot hslot
        have hinner : (Scope.narrow schema (.valueField field.1 field.2) scope).input =
            some slot.type := by
          have hof : (scope.input.bind fun type => (schema.slotsOf type.baseName).find?
              (·.name == field.1.text)) = some slot := by
            rw [hscope, Option.bind_some, hbaseName, Schema.slotsOf, hname]
            exact hfind
          rw [Scope.narrow, hof]
          exact Scope.input_intoValue hinput _ _
        refine ⟨slot, hslot, by simpa using List.find?_some hfind,
          read_admits field.2 hwritten hinput hinner (fun use huse => huses use ?_) hread.symm⟩
        exact mem_usesAmong_around (mem_usesAmong_valueField hfield huse)
      obtain ⟨filled, rfl, hfills⟩ := fills_of_fillSlots hdefaults hgiven hfill
      exact ⟨filled, by rcases hbase with rfl | rfl <;> rfl, hfills⟩
  | _ =>
      first
        | exact absurd rfl (hvariable _ _)
        | simp only [read, hnone] at h
          cases h

end Literal

end RecordApi
