import RecordApi.Proofs.Language.Written
import RecordApi.Request.Leaf

/-!
# Marks against null

A type admits a value if no null stands where the type is marked against it, in the value itself or
in the items of lists. Whatever a given value or a literal is read as, it is not null unless it is
given as null. What a subtype admits, its supertype admits.
-/

namespace RecordApi

open RecordApi.Language

namespace Language.TypeExpr

/-- Whether no null stands where a type is marked against it. A value that is no list stands for
itself at a list type; what lies below the innermost name has types of its own. -/
def Admits : TypeExpr → Datum → Prop
  | named _, _ => True
  | list item, d => ∀ items, d = .list items → ∀ x ∈ items, item.Admits x
  | nonNull inner, d => d ≠ .null ∧ inner.Admits d

theorem admits_null {type : TypeExpr} (h : type.isNonNull = false) : type.Admits .null := by
  cases type with
  | named name => trivial
  | list item => exact fun items hitems => nomatch hitems
  | nonNull inner => cases h

/-- A type adds its outermost mark to what it admits without it. -/
theorem admits_iff {type : TypeExpr} {d : Datum} :
    type.Admits d ↔ (type.isNonNull → d ≠ .null) ∧ type.nullable.Admits d := by
  cases type <;> simp [Admits, isNonNull, nullable]

/-- Any type admits a value that is neither null nor a list. -/
theorem admits_of_single {d : Datum} (hnull : d ≠ .null) (hlist : ∀ items, d ≠ .list items)
    (type : TypeExpr) : type.Admits d := by
  induction type with
  | named name => trivial
  | list item ih => exact fun items hitems => absurd hitems (hlist items)
  | nonNull inner ih => exact ⟨hnull, ih⟩

/-- A list is admitted by the items alone. -/
theorem admits_list {type item : TypeExpr} (h : type.nullable = .list item) {items : List Datum}
    (hitems : ∀ x ∈ items, item.Admits x) : type.Admits (.list items) := by
  refine admits_iff.mpr ⟨fun _ => nofun, ?_⟩
  rw [h]
  rintro _ ⟨⟩
  exact hitems

end Language.TypeExpr

open Language.TypeExpr

/-- What a type admits, is admitted by every type above it. -/
theorem Schema.admits_of_isSubtype {schema : Schema} {sub super : TypeExpr} {d : Datum}
    (h : schema.isSubtype sub super) (hsub : sub.Admits d) : super.Admits d := by
  induction super generalizing sub d with
  | named name => trivial
  | list item ih =>
      induction sub with
      | named name => simp [Schema.isSubtype] at h
      | list sub _ => exact fun items hitems x hx => ih h (hsub items hitems x hx)
      | nonNull sub ihsub => exact ihsub h hsub.2
  | nonNull inner ih =>
      cases sub with
      | nonNull sub => exact ⟨hsub.1, ih h hsub.2⟩
      | named name => simp [Schema.isSubtype] at h
      | list sub => simp [Schema.isSubtype] at h

/-! ## What is read at a type -/

namespace Literal

theorem wrap_ne_null {d : Datum} (hd : d ≠ .null) (type : TypeExpr) : wrap type d ≠ .null := by
  induction type with
  | named name => exact hd
  | list item ih => exact nofun
  | nonNull inner ih => exact ih

theorem admits_wrap {d : Datum} (hd : d ≠ .null) (type : TypeExpr) : type.Admits (wrap type d) := by
  induction type with
  | named name => trivial
  | list item ih =>
      rintro _ ⟨⟩ x hx
      exact List.mem_singleton.mp hx ▸ ih
  | nonNull inner ih => exact ⟨wrap_ne_null hd inner, ih⟩

/-- Whether a literal stands for something by itself: it is neither a variable nor null. -/
def Stands (value : Value) : Prop :=
  (∀ pos name, value ≠ .variable pos name) ∧ ∀ pos, value ≠ .null pos

theorem plain_ne_null {bindings : VariableValues} {value : Value} (hstands : Stands value) :
    Datum.ofOption (plain bindings value) ≠ .null := by
  cases value <;> simp_all [Stands, plain, Datum.ofOption]

theorem readScalar_ne_null {bindings : VariableValues} {name : String} {value : Value} {d : Datum}
    (hstands : Stands value) (h : readScalar bindings name value = .ok d) : d ≠ .null := by
  have hplain : Datum.ofOption (plain bindings value) ≠ .null := plain_ne_null hstands
  unfold readScalar at h
  split at h
  case h_1 =>
    split at h
    · cases h
      simp
    · cases h
  all_goals cases h
  all_goals first | exact hplain | simp

theorem readEnum_ne_null {typeName : String} {options : List String} {value : Value} {d : Datum}
    (h : readEnum typeName options value = .ok d) : d ≠ .null := by
  unfold readEnum at h
  cases value with
  | enum pos name =>
      dsimp only at h
      split at h
      · cases h
        exact nofun
      · cases h
  | _ => cases h

theorem readLeaf?_ne_null {shapes : ShapeLookup} {bindings : VariableValues} {typeName : String}
    {value : Value} {d : Datum} (hstands : Stands value)
    (h : readLeaf? shapes bindings typeName value = some d) : d ≠ .null := by
  have hok {outcome : Except String Datum} (h : outcome.toOption = some d) : outcome = .ok d := by
    cases outcome with
    | error message => cases h
    | ok x => exact congrArg _ (Option.some.inj h)
  unfold readLeaf? at h
  split at h
  · exact readScalar_ne_null hstands (hok h)
  · exact readEnum_ne_null (hok h)
  · cases h

end Literal

namespace Request

theorem scalarInput_ne_null {typeName : String} {d answer : Datum} (hd : d ≠ .null)
    (h : scalarInput typeName d = .ok answer) : answer ≠ .null := by
  unfold scalarInput at h
  repeat' split at h
  all_goals cases h
  all_goals first | exact hd | simp

theorem enumInput_ne_null {typeName : String} {options : List String} {d answer : Datum}
    (h : enumInput typeName options d = .ok answer) : answer ≠ .null := by
  unfold enumInput at h
  split at h
  · split at h
    · cases h
      exact nofun
    · cases h
  · cases h

end Request

end RecordApi
