import RecordApi.Proofs.Language.ReadTypes
import RecordApi.TypeRef

/-!
# Type references as texts

Derived definitions are written as texts and read back, so every type in them goes through a text.
What comes back is the same type under the same wrappers, and its innermost name is resolved by the
same table.
-/

namespace RecordApi

open RecordApi.Language

/-- What stands around the name of a type. -/
inductive Wrapper where
  | list
  | nonNull
deriving DecidableEq, Repr

namespace TypeRef

variable {kinds : KindTable} {ref other : TypeRef}

/-- The wrappers around the innermost name, the outermost first. -/
def wrappers : TypeRef → List Wrapper
  | named _ => []
  | list item => .list :: item.wrappers
  | nonNull inner => .nonNull :: inner.wrappers

/-- Whether a type is one that the table gives for a type in a document: a valid name that it
resolves, in lists and marks against null of which none stands directly on another. -/
inductive Proper (kinds : KindTable) : TypeRef → Prop
  | named {name : String} : isName name.toList → Proper kinds (.named (kinds.resolve name))
  | list {item : TypeRef} : Proper kinds item → Proper kinds (.list item)
  | nonNull {inner : TypeRef} : Proper kinds inner → (∀ again, inner ≠ .nonNull again) →
      Proper kinds (.nonNull inner)

/-- A type is told by its wrappers and its innermost name. -/
theorem eq_of_wrappers (hwrappers : ref.wrappers = other.wrappers) (hbase : ref.base = other.base) :
    ref = other := by
  induction ref generalizing other with
  | named base =>
      cases other with
      | named => exact congrArg TypeRef.named hbase
      | _ => cases hwrappers
  | list item ih =>
      cases other with
      | list => exact congrArg TypeRef.list (ih (List.cons.inj hwrappers).2 hbase)
      | _ => cases hwrappers
  | nonNull inner ih =>
      cases other with
      | nonNull => exact congrArg TypeRef.nonNull (ih (List.cons.inj hwrappers).2 hbase)
      | _ => cases hwrappers

@[simp] theorem wrappers_rename (f : NamedRef → NamedRef) (ref : TypeRef) :
    (ref.rename f).wrappers = ref.wrappers := by
  induction ref with
  | named base => rfl
  | list item ih => exact congrArg (_ :: ·) ih
  | nonNull inner ih => exact congrArg (_ :: ·) ih

@[simp] theorem wrappers_ofExpr_toExpr (kinds : KindTable) (ref : TypeRef) :
    (ofExpr kinds ref.toExpr).wrappers = ref.wrappers := by
  induction ref with
  | named base => rfl
  | list item ih => exact congrArg (_ :: ·) ih
  | nonNull inner ih => exact congrArg (_ :: ·) ih

/-- Resolved again, the innermost name is what the table gives for it. -/
@[simp] theorem base_ofExpr_toExpr (kinds : KindTable) (ref : TypeRef) :
    (ofExpr kinds ref.toExpr).base = kinds.resolve ref.base.name := by
  induction ref with
  | named base => rfl
  | list item ih => exact ih
  | nonNull inner ih => exact ih

/-! ## Proper types -/

theorem Proper.isName (h : ref.Proper kinds) : Language.isName ref.base.name.toList := by
  induction h with
  | named hname => simpa [base] using hname
  | list _ ih => exact ih
  | nonNull _ _ ih => exact ih

theorem Proper.resolve (h : ref.Proper kinds) : kinds.resolve ref.base.name = ref.base := by
  induction h with
  | named => simp [base]
  | list _ ih => exact ih
  | nonNull _ _ ih => exact ih

/-- A proper type resolves to itself. -/
theorem Proper.ofExpr_toExpr (h : ref.Proper kinds) : ofExpr kinds ref.toExpr = ref :=
  eq_of_wrappers (wrappers_ofExpr_toExpr kinds ref)
    ((base_ofExpr_toExpr kinds ref).trans h.resolve)

/-- A proper type can be written under any name. -/
theorem Proper.isWritten_rename (h : ref.Proper kinds) {f : NamedRef → NamedRef}
    (hf : Language.isName (f ref.base).name.toList) : (ref.rename f).toExpr.isWritten := by
  induction h with
  | named => exact hf
  | list _ ih => exact ih hf
  | @nonNull inner _ hmark ih =>
      have hplain : (inner.rename f).toExpr.isNonNull = false := by
        cases inner with
        | nonNull again => exact absurd rfl (hmark again)
        | _ => rfl
      simp only [rename, toExpr, TypeExpr.isWritten, hplain, Bool.not_false, Bool.true_and]
      exact ih hf

theorem Proper.isWritten (h : ref.Proper kinds) : ref.toExpr.isWritten := by
  have hsame : ref.rename id = ref := eq_of_wrappers (wrappers_rename id ref) (base_rename id ref)
  have hwritten := h.isWritten_rename (f := id) h.isName
  rwa [hsame] at hwritten

/-- The type of a written type is proper. -/
theorem proper_ofExpr (kinds : KindTable) {type : TypeExpr} (h : type.isWritten) :
    (ofExpr kinds type).Proper kinds := by
  induction type with
  | named name => exact .named h
  | list item ih => exact .list (ih h)
  | nonNull inner ih =>
      simp only [TypeExpr.isWritten, Bool.and_eq_true, Bool.not_eq_true'] at h
      refine .nonNull (ih h.2) fun again hagain => ?_
      cases inner <;> simp [ofExpr, TypeExpr.isNonNull] at h hagain

/-! ## Texts -/

/-- What is read back from the text of a type whose innermost name has been replaced. -/
theorem Proper.readType_rename (h : ref.Proper kinds) {f : NamedRef → NamedRef}
    (hf : Language.isName (f ref.base).name.toList) :
    readType (ref.rename f).render = .ok (ref.rename f).toExpr :=
  readType_text (h.isWritten_rename hf)

/-- Types and their texts, for every table of kinds:

* a proper type is read back from its text and resolved to itself;
* the text of a resolved type is its written form; if it has been read from a text, it is proper,
  and its written form is what is left of that text when nothing stands between the lexemes;
* a proper type whose innermost name has been replaced is read back with its wrappers in their
  places and the new name resolved by the table, if and only if the new name is a valid one. -/
theorem types_read_back (kinds : KindTable) :
    (∀ ref : TypeRef, ref.Proper kinds →
      ∃ type, readType ref.render = .ok type ∧ ofExpr kinds type = ref) ∧
    (∀ type : TypeExpr, (ofExpr kinds type).render = type.text) ∧
    (∀ text type, readType text = .ok type → (ofExpr kinds type).Proper kinds ∧
      (ofExpr kinds type).render.toList = (lexemesOf text).flatMap Lexeme.letters) ∧
    ∀ (ref : TypeRef) (f : NamedRef → NamedRef), ref.Proper kinds →
      ((∃ type, readType (ref.rename f).render = .ok type ∧
          (ofExpr kinds type).wrappers = ref.wrappers ∧
          (ofExpr kinds type).base = kinds.resolve (f ref.base).name) ↔
        Language.isName (f ref.base).name.toList) := by
  have hrender (type : TypeExpr) : (ofExpr kinds type).render = type.text := by
    rw [render, toExpr_ofExpr]
  refine ⟨fun ref h => ?_, hrender, fun text type h => ?_, fun ref f h => ⟨?_, fun hf => ?_⟩⟩
  · exact ⟨ref.toExpr, readType_text h.isWritten, h.ofExpr_toExpr⟩
  · obtain ⟨hwritten, hlexemes⟩ := readType_eq_ok_iff.mp h
    refine ⟨proper_ofExpr kinds hwritten, ?_⟩
    rw [hrender, TypeExpr.toList_text, hlexemes]
    simp [Lexeme.letters]
  · rintro ⟨type, hread, -, hbase⟩
    have hname := (proper_ofExpr kinds (readType_eq_ok_iff.mp hread).1).isName
    rwa [hbase, KindTable.name_resolve] at hname
  · exact ⟨(ref.rename f).toExpr, h.readType_rename hf, by simp, by simp⟩

/-- A list of tags, none of them missing, and the list of their inputs. -/
theorem types_read_back_tags :
    let kinds : KindTable := [("Tag", .object)]
    let ref : TypeRef := .nonNull (.list (.nonNull (.named (.object "Tag"))))
    let input : NamedRef → NamedRef := fun r => .object (r.name ++ "Input")
    (∃ type, readType ref.render = .ok type ∧ ofExpr kinds type = ref) ∧
    (ofExpr kinds (.list (.named "Tag"))).render.toList =
      (lexemesOf " [ # tags\n Tag, ]").flatMap Lexeme.letters ∧
    ∃ type, readType (ref.rename input).render = .ok type ∧
      (ofExpr kinds type).wrappers = ref.wrappers ∧
      (ofExpr kinds type).base = .scalar "TagInput" := by
  intro kinds ref input
  have hname : Language.isName "Tag".toList := by decide
  have hproper : ref.Proper kinds := .nonNull (.list (.nonNull (.named hname) nofun)) nofun
  have hread : readType " [ # tags\n Tag, ]" = .ok (.list (.named "Tag")) :=
    readType_eq_ok_iff.mpr ⟨by decide, by decide⟩
  obtain ⟨hback, -, hparsed, hrenamed⟩ := types_read_back kinds
  exact ⟨hback ref hproper, (hparsed _ _ hread).2, (hrenamed ref input hproper).mpr (by decide)⟩

end TypeRef

end RecordApi
