import RecordApi.Proofs.Number.WrittenIntegers
import RecordApi.Proofs.Time.WrittenTexts
import RecordApi.Table.Coercion

/-!
# Values that are sent as texts

A value that has been written as a text is what the text is coerced to for a column of its type. A
text that is no value of the type is left as it is, so coercing once more changes nothing.
-/

namespace RecordApi.Table

open Number Time

namespace ColumnType

/-- No text is read as a text again. -/
theorem read?_ne_text (type : ColumnType) (s t : String) : type.read? s ≠ some (.text t) := by
  cases type <;> simp [read?]

/-- A text that is left as it is does not read as a value of the type. -/
theorem read?_of_coerce_eq_text {type : ColumnType} {id : Datum} {s : String}
    (h : coerce (some type) id = .text s) : type.read? s = none := by
  cases id with
  | text t =>
      have hread : (type.read? t).getD (.text t) = .text s := h
      cases ht : type.read? t with
      | none =>
          rw [ht] at hread
          cases hread
          exact ht
      | some value =>
          rw [ht, Option.getD_some] at hread
          exact absurd (hread ▸ ht) (type.read?_ne_text t s)
  | _ => cases h

end ColumnType

theorem coerce_of_read {type : ColumnType} {s : String} {value : Datum}
    (h : type.read? s = some value) : coerce (some type) (.text s) = value := by
  show (type.read? s).getD (.text s) = value
  rw [h, Option.getD_some]

/-- Coercing once more changes nothing. -/
theorem coerce_coerce (type : Option ColumnType) (value : Datum) :
    coerce type (coerce type value) = coerce type value := by
  cases type with
  | none => rfl
  | some type =>
      cases hvalue : coerce (some type) value with
      | text s =>
          show (type.read? s).getD (.text s) = .text s
          rw [ColumnType.read?_of_coerce_eq_text hvalue, Option.getD_none]
      | _ => rfl

/-- The lower case and the capitalized word for a truth value. -/
def wordsFor (b : Bool) : List String :=
  if b then ["true", "True"] else ["false", "False"]

theorem coerce_word (b : Bool) :
    ∀ word ∈ wordsFor b, coerce (some .boolean) (.text word) = .bool b := by
  have hread (b : Bool) : ∀ word ∈ wordsFor b, readBool? word.toList = some b := by
    cases b <;> decide
  intro word hword
  exact coerce_of_read (congrArg (Option.map Datum.bool) (hread b word hword))

theorem coerce_integer {type : ColumnType} (htype : type.isInteger = true) {n : Int}
    (hn : Writable n.natAbs) : coerce (some type) (.text (toString n)) = .int n := by
  have hread : (readInt? (toString n).toList).map Datum.int = some (.int n) := by
    rw [readInt?_toString hn, Option.map_some]
  cases type with
  | integer | bigInteger => exact coerce_of_read hread
  | _ => cases htype

/-- A date and time for a column without time zone loses its offset, so it must have none. -/
theorem coerce_isoText {t : DateTime} (hvalid : t.isValid = true) (hminutes : t.InMinutes)
    {zoned : Bool} (hzone : zoned = false → t.offset = none) {text : String}
    (htext : t.IsIsoText text) : coerce (some (.dateTime zoned)) (.text text) = .dateTime t := by
  have hkept : (if zoned then t else t.dropOffset) = t := by
    cases zoned with
    | true => rfl
    | false => rw [if_neg Bool.false_ne_true, DateTime.dropOffset, ← hzone rfl]
  refine coerce_of_read ?_
  rw [ColumnType.read?, readDateTime?_of_isIsoText hvalid hminutes htext, Option.map_some, hkept]

/-- What has been written as a text is coerced back:

* an integer from its decimal text, for columns of integers, if it can be written;
* a truth value from its word, in lower case or capitalized;
* a date and time without offset from its ISO texts, for every column of such values;
* one with an offset of whole minutes from them, for a column with time zone.

And coercing once more changes nothing, for every value and every column. -/
theorem coerce_undoes_writing :
    (∀ (type : ColumnType) (n : Int), type.isInteger = true → Writable n.natAbs →
      coerce (some type) (.text (toString n)) = .int n) ∧
    (∀ b, ∀ word ∈ wordsFor b, coerce (some .boolean) (.text word) = .bool b) ∧
    (∀ (t : DateTime) (zoned : Bool) (text : String), t.isValid = true → t.offset = none →
      t.IsIsoText text → coerce (some (.dateTime zoned)) (.text text) = .dateTime t) ∧
    (∀ (t : DateTime) (minutes : Int) (text : String), t.isValid = true →
      t.offset = some (60000000 * minutes) → t.IsIsoText text →
      coerce (some (.dateTime true)) (.text text) = .dateTime t) ∧
    ∀ (type : Option ColumnType) (value : Datum),
      coerce type (coerce type value) = coerce type value := by
  refine ⟨fun _ _ htype hn => coerce_integer htype hn, coerce_word, ?_, ?_, coerce_coerce⟩
  · intro t zoned text hvalid hnone htext
    have hminutes : t.InMinutes := fun offset hoffset => by
      rw [hnone] at hoffset
      cases hoffset
    exact coerce_isoText hvalid hminutes (fun _ => hnone) htext
  · intro t minutes text hvalid hoffset htext
    have hminutes : t.InMinutes := fun offset hsome => by
      rw [hoffset] at hsome
      exact ⟨minutes, (Option.some.inj hsome).symm⟩
    exact coerce_isoText hvalid hminutes (fun h => by cases h) htext

/-- The last microsecond of a leap day in a zone behind universal time, and a number of more than
one word. -/
theorem coerce_undoes_writing_leapDay :
    coerce (some .bigInteger) (.text (toString (-98765432109876543210 : Int))) =
      .int (-98765432109876543210) ∧
    coerce (some (.dateTime true)) (.text "2024-02-29T23:59:59.999999-03:30") =
      .dateTime ⟨2024, 2, 29, 23, 59, 59, 999999, some (60000000 * -210)⟩ := by
  refine ⟨coerce_undoes_writing.1 .bigInteger _ rfl (by decide),
    coerce_undoes_writing.2.2.2.1 _ (-210) _ (by decide) rfl (.inl ?_)⟩
  decide

end RecordApi.Table
