import RecordApi.Proofs.Number.Exactness
import RecordApi.Proofs.Table.CellOrder
import RecordApi.Proofs.Table.Comparands

/-!
# Values that are kept

A column gives a value of its type back as it keeps it. Texts, integers and truth values come back
as they are. A number loses the sign of zero, and in a column of decimals all places behind those
that are kept; a date and time loses its offset; what is no number is kept as nothing.

A value identifies a row by its cell. What the key column gives back for it identifies the same row,
unless the key column keeps fewer places than the value has.
-/

namespace RecordApi

open Number Std

namespace Number.Double

theorem isExact_unsignedZero (x : Double) : x.unsignedZero.isExact = x.isExact := by
  cases x with
  | finite negative units => cases units <;> rfl
  | _ => rfl

/-- Whether a number has no more than so many places, so that it is read back from its text with
them. -/
def keepsPlaces (places : Nat) (x : Double) : Bool :=
  (readDouble? (x.unsignedZero.fixed places).toList).map unsignedZero == some x.unsignedZero

end Number.Double

namespace Table

namespace Cell

/-- The cell that a value stands for by itself; nothing for what has none. -/
def ofValue (value : Datum) : Cell :=
  (ofValue? value).getD null

theorem ofValue_int {n : Int} (h : fitsWord n = true) : ofValue (.int n) = integer n := by
  simp [ofValue, ofValue?, h]

theorem ofValue_decimal {s : String} {x : Double} (h : readDouble? s.toList = some x) :
    ofValue (.decimal s) = ofDouble x := by
  simp [ofValue, ofValue?, h]

theorem ofDouble_of_ne {x : Double} (h : x ≠ .nan) : ofDouble x = real x := by
  cases x with
  | nan => exact absurd rfl h
  | _ => rfl

theorem compare_of_place {a b : Cell} {p : Double.Place} (ha : a.place? = some p)
    (hb : b.place? = some p) : a.compare b = .eq := by
  have hself : p.compare p = .eq := by cases p <;> simp [Double.Place.compare]
  cases a with
  | null | text => cases ha
  | _ =>
    cases b with
    | null | text => cases hb
    | _ => simp [Cell.compare, ha, hb, hself]

/-- A number is kept as an integer if it is one, and otherwise as it is. -/
theorem compact_real (x : Double) :
    (∃ n, x.toInt? = some n ∧ (real x).compact = integer n) ∨
      (real x).compact = real x ∧ x.unsignedZero = x := by
  cases x with
  | nan => exact .inr ⟨rfl, rfl⟩
  | infinite negative => exact .inr ⟨rfl, rfl⟩
  | finite negative units =>
      cases units with
      | zero =>
          have hzero : (Double.finite negative 0).toInt? = some 0 := by
            cases negative <;> simp [Double.toInt?, Double.signedUnits]
          refine .inl ⟨0, hzero, ?_⟩
          simp [compact, hzero, leastWord, mostWord]
      | succ units =>
          cases hwhole : (Double.finite negative (units + 1)).toInt? with
          | none => exact .inr ⟨by simp [compact, hwhole], rfl⟩
          | some n =>
              by_cases hword : leastWord < n && n < mostWord
              · exact .inl ⟨n, rfl, by simp only [compact, hwhole]; rw [if_pos hword]⟩
              · exact .inr ⟨by simp only [compact, hwhole]; rw [if_neg hword], rfl⟩

theorem compare_self (cell : Cell) : cell.compare cell = .eq :=
  ReflCmp.compare_self

theorem compare_compact (x : Double) : (real x).compact.compare (real x) = .eq := by
  rcases compact_real x with ⟨n, hn, hcompact⟩ | ⟨hcompact, -⟩
  · rw [hcompact]
    exact compare_of_place rfl (Double.place?_of_toInt? hn)
  · rw [hcompact, compare_self]

theorem compare_unsignedZero (x : Double) : (real x.unsignedZero).compare (real x) = .eq := by
  cases hplace : x.place? with
  | none =>
      have hunsigned : x.unsignedZero = x := by
        cases x with
        | nan => rfl
        | infinite negative => rfl
        | finite negative units => cases hplace
      rw [hunsigned, compare_self]
  | some p =>
      exact compare_of_place ((Double.place?_unsignedZero x).trans hplace) hplace

end Cell

namespace ColumnType

/-- The values of a type that a column can keep. -/
inductive Owned : ColumnType → Datum → Prop where
  | int {type : ColumnType} {n : Int} (htype : type.isInteger = true) (hword : fitsWord n = true) :
      Owned type (.int n)
  | real {x : Double} (hexact : x.isExact = true) : Owned float (.real x)
  | numeric {places : Nat} {x : Double} (hexact : x.isExact = true) :
      Owned (numeric places) (.real x)
  | decimal {places : Nat} {s : String} {x : Double} (hread : readDouble? s.toList = some x)
      (hexact : x.isExact = true) : Owned (numeric places) (.decimal s)
  | text {type : ColumnType} {s : String} (htype : type.affinity = .text) : Owned type (.text s)
  | bool {b : Bool} : Owned boolean (.bool b)
  | dateTime {zoned : Bool} {t : Time.DateTime} (hvalid : t.isValid = true) :
      Owned (dateTime zoned) (.dateTime t)

/-- The values that a column can be given: the missing one and those of its type. -/
def Takes (type : ColumnType) (value : Datum) : Prop :=
  value = .null ∨ type.Owned value

/-- The decimal of a number with so many places. What is no number has none. -/
def fixedDecimal (places : Nat) : Double → Datum
  | .nan => .null
  | x => .decimal (x.unsignedZero.fixed places)

/-- What a column gives back for a value of its type. -/
def kept : ColumnType → Datum → Datum
  | float, .real .nan => .null
  | float, .real x => .real x.unsignedZero
  | numeric places, .real x => fixedDecimal places x
  | numeric places, .decimal s => ((readDouble? s.toList).map (fixedDecimal places)).getD .null
  | dateTime _, .dateTime t => .dateTime t.dropOffset
  | _, value => value

theorem fixedDecimal_of_ne (places : Nat) {x : Double} (h : x ≠ .nan) :
    fixedDecimal places x = .decimal (x.unsignedZero.fixed places) := by
  cases x with
  | nan => exact absurd rfl h
  | _ => rfl

theorem kept_real_of_ne {x : Double} (h : x ≠ .nan) :
    float.kept (.real x) = .real x.unsignedZero := by
  cases x with
  | nan => exact absurd rfl h
  | _ => rfl

theorem cases_isInteger {type : ColumnType} (h : type.isInteger = true) :
    type = integer ∨ type = bigInteger := by
  cases type <;> simp_all [isInteger]

theorem cases_affinity_text {type : ColumnType} (h : type.affinity = .text) :
    type = string ∨ type = text := by
  cases type <;> simp_all [affinity]

theorem comparand?_of_owned {type : ColumnType} {value : Datum} (h : type.Owned value) :
    type.comparand? value = some (Cell.ofValue value) := by
  cases h with
  | int htype hword =>
      rcases cases_isInteger htype with rfl | rfl <;>
        simp [comparand?, admits, Cell.ofValue, Cell.ofValue?, hword]
  | real => rfl
  | numeric => rfl
  | decimal hread => simp [comparand?, admits, Cell.ofValue, Cell.ofValue?, hread]
  | text htype => rcases cases_affinity_text htype with rfl | rfl <;> rfl
  | bool => rfl
  | dateTime => rfl

/-- A value that a column can be given has a form, which has a cell. -/
theorem form_of_takes {type : ColumnType} {value : Datum} (h : type.Takes value) :
    ∃ form, type.form value = .ok form ∧ Cell.ofDatum form = .ok (Cell.ofValue value) := by
  rcases h with rfl | h
  · exact ⟨.null, by cases type <;> rfl, rfl⟩
  · cases h with
    | @int _ n htype hword =>
        refine ⟨.int n, by rcases cases_isInteger htype with rfl | rfl <;> rfl, ?_⟩
        rw [Cell.ofValue_int hword, Cell.ofDatum, if_pos hword]
    | @real x => exact ⟨.real x, rfl, Cell.ofDatum_real x⟩
    | @numeric _ x => exact ⟨.real x, rfl, Cell.ofDatum_real x⟩
    | @decimal places s x hread =>
        have hdouble : double? (.decimal s) = some x := hread
        refine ⟨.real x, ?_, ?_⟩
        · rw [form, hdouble]
          simp
        · rw [Cell.ofDatum_real, Cell.ofValue_decimal hread]
    | @text _ s htype =>
        exact ⟨.text s, by rcases cases_affinity_text htype with rfl | rfl <;> rfl, rfl⟩
    | @bool b => exact ⟨.bool b, rfl, rfl⟩
    | @dateTime _ t => exact ⟨.text t.storedText, rfl, rfl⟩

/-- A number is stored as the integer that it is, or as it is. -/
theorem value_stored_numeric (places : Nat) {x : Double} (hexact : x.isExact = true) :
    (numeric places).value (Affinity.numeric.stored (Cell.ofDouble x)) = fixedDecimal places x := by
  by_cases hnan : x = .nan
  · rw [hnan]
    rfl
  · have hstored : Affinity.numeric.stored (Cell.real x) = (Cell.real x).compact := rfl
    rw [Cell.ofDouble_of_ne hnan, hstored, fixedDecimal_of_ne places hnan]
    rcases Cell.compact_real x with ⟨n, hn, hcompact⟩ | ⟨hcompact, hunsigned⟩
    · rw [hcompact, ← Double.ofInt_of_toInt? hexact hn]
      rfl
    · rw [hcompact, hunsigned]
      rfl

/-- In a column of numbers with a fraction the integer becomes a number with a fraction again. -/
theorem stored_real {x : Double} (hexact : x.isExact = true) :
    Affinity.real.stored (Cell.real x) = .real x.unsignedZero := by
  have hstored : Affinity.real.stored (Cell.real x) = (Cell.real x).compact.widened := rfl
  rw [hstored]
  rcases Cell.compact_real x with ⟨n, hn, hcompact⟩ | ⟨hcompact, hunsigned⟩
  · rw [hcompact, ← Double.ofInt_of_toInt? hexact hn]
    rfl
  · rw [hcompact, hunsigned]
    rfl

theorem value_stored_real {x : Double} (hexact : x.isExact = true) :
    float.value (Affinity.real.stored (Cell.ofDouble x)) = float.kept (.real x) := by
  by_cases hnan : x = .nan
  · rw [hnan]
    rfl
  · rw [Cell.ofDouble_of_ne hnan, stored_real hexact, kept_real_of_ne hnan]
    rfl

/-- What is stored for a value is what the column gives back. -/
theorem value_stored {type : ColumnType} {value : Datum} (h : type.Takes value) :
    type.value (type.affinity.stored (Cell.ofValue value)) = type.kept value := by
  rcases h with rfl | h
  · cases type <;> rfl
  · cases h with
    | @int _ n htype hword =>
        rw [Cell.ofValue_int hword]
        rcases cases_isInteger htype with rfl | rfl <;> rfl
    | real hexact => exact value_stored_real hexact
    | numeric hexact => exact value_stored_numeric _ hexact
    | @decimal places s x hread hexact =>
        have hkept : (numeric places).kept (.decimal s) = fixedDecimal places x := by
          simp [kept, hread]
        rw [Cell.ofValue_decimal hread, hkept]
        exact value_stored_numeric places hexact
    | text htype => rcases cases_affinity_text htype with rfl | rfl <;> rfl
    | @bool b => cases b <;> rfl
    | @dateTime zoned t hvalid =>
        have hstored : (dateTime zoned).affinity.stored (Cell.ofValue (.dateTime t)) =
            .text t.storedText := by
          show (Cell.text t.storedText).numbered.compact = _
          rw [numbered_storedText]
          rfl
        rw [hstored]
        simp [ColumnType.value, Time.readDateTime?_storedText hvalid, kept]

theorem compare_stored_numeric (x : Double) :
    (Affinity.numeric.stored (Cell.ofDouble x)).compare (Cell.ofDouble x) = .eq := by
  by_cases hnan : x = .nan
  · rw [hnan]
    rfl
  · rw [Cell.ofDouble_of_ne hnan]
    exact Cell.compare_compact x

/-- What is stored for a value is alike to its cell. -/
theorem compare_stored {type : ColumnType} {value : Datum} (h : type.Takes value) :
    (type.affinity.stored (Cell.ofValue value)).compare (Cell.ofValue value) = .eq := by
  rcases h with rfl | h
  · cases type <;> rfl
  · cases h with
    | @int _ n htype hword =>
        rw [Cell.ofValue_int hword]
        rcases cases_isInteger htype with rfl | rfl <;> exact Cell.compare_self (.integer n)
    | @real x hexact =>
        have hcell : Cell.ofValue (.real x) = Cell.ofDouble x := rfl
        rw [hcell]
        by_cases hnan : x = .nan
        · rw [hnan]
          rfl
        · rw [Cell.ofDouble_of_ne hnan]
          show (Affinity.real.stored (Cell.real x)).compare (.real x) = .eq
          rw [stored_real hexact]
          exact Cell.compare_unsignedZero x
    | @numeric places x => exact compare_stored_numeric x
    | @decimal places s x hread =>
        rw [Cell.ofValue_decimal hread]
        exact compare_stored_numeric x
    | @text _ s htype =>
        rcases cases_affinity_text htype with rfl | rfl <;> exact Cell.compare_self (.text s)
    | @bool b => exact Cell.compare_self (.integer (if b then 1 else 0))
    | @dateTime zoned t =>
        show ((Cell.text t.storedText).numbered.compact).compare (.text t.storedText) = .eq
        rw [numbered_storedText]
        exact Cell.compare_self (.text t.storedText)

/-- What is read back is missing just if nothing is stored. -/
theorem value_eq_null {type : ColumnType} {cell : Cell} :
    type.value cell = .null ↔ cell = .null := by
  constructor
  · intro h
    cases cell with
    | null => rfl
    | integer n => cases type <;> cases h
    | real x => cases type <;> cases h
    | text s =>
        cases type with
        | dateTime zoned =>
            cases hread : Time.readDateTime? s <;> simp [ColumnType.value, hread] at h
        | _ => cases h
  · rintro rfl
    cases type <;> rfl

/-- A value identifies a cell of a key column: it is of the column's type, its cell is not nothing,
and the column keeps as many places as it has. -/
structure Identifies (type : ColumnType) (value : Datum) (cell : Cell) : Prop where
  owned : type.Owned value
  cell_eq : Cell.ofValue value = cell
  present : cell ≠ .null
  places : ∀ places x, type = numeric places → cell = .real x → x.keepsPlaces places = true

/-- The decimal of a number that has no more places identifies the same row. -/
theorem identifies_fixedDecimal {places : Nat} {x : Double} (hexact : x.isExact = true)
    (hnan : x ≠ .nan) (hkeeps : x.keepsPlaces places = true) :
    ∃ again, (numeric places).Identifies (fixedDecimal places x) again ∧
      again.compare (.real x) = .eq := by
  have hread : (readDouble? (x.unsignedZero.fixed places).toList).map Double.unsignedZero =
      some x.unsignedZero := by
    simpa [Double.keepsPlaces] using hkeeps
  obtain ⟨y, hy, hyx⟩ := Option.map_eq_some_iff.mp hread
  have hyExact : y.isExact = true := by
    rw [← Double.isExact_unsignedZero, hyx, Double.isExact_unsignedZero, hexact]
  have hyNan : y ≠ .nan := by
    rintro rfl
    apply hnan
    cases x with
    | nan => rfl
    | infinite negative => cases hyx
    | finite negative units => cases units <;> cases hyx
  have hcell : Cell.ofValue (.decimal (x.unsignedZero.fixed places)) = .real y := by
    rw [Cell.ofValue_decimal hy, Cell.ofDouble_of_ne hyNan]
  rw [fixedDecimal_of_ne places hnan]
  refine ⟨.real y, ⟨.decimal hy hyExact, hcell, by simp, ?_⟩, ?_⟩
  · intro places' z hplaces hz
    cases hplaces
    cases hz
    simpa [Double.keepsPlaces, hyx] using hkeeps
  · have hback := Cell.compare_unsignedZero y
    rw [hyx] at hback
    exact TransCmp.eq_trans (OrientedCmp.eq_symm hback) (Cell.compare_unsignedZero x)

/-- A number without the sign of zero identifies the same row. -/
theorem identifies_unsignedZero {x : Double} (hexact : x.isExact = true) (hnan : x ≠ .nan) :
    ∃ again, float.Identifies (.real x.unsignedZero) again ∧ again.compare (.real x) = .eq := by
  have hcell : Cell.ofValue (.real x.unsignedZero) = .real x.unsignedZero := by
    cases x with
    | nan => exact absurd rfl hnan
    | infinite negative => rfl
    | finite negative units => cases units <;> rfl
  refine ⟨_, ⟨.real ?_, hcell, by simp, by simp⟩, Cell.compare_unsignedZero x⟩
  rw [Double.isExact_unsignedZero, hexact]

/-- What a key column gives back for an identifier identifies the same row. -/
theorem Identifies.kept {type : ColumnType} {value : Datum} {cell : Cell}
    (h : type.Identifies value cell) :
    ∃ again, type.Identifies (type.kept value) again ∧ again.compare cell = .eq := by
  obtain ⟨howned, rfl, hpresent, hplaces⟩ := h
  cases howned with
  | @int _ n htype hword =>
      have hkept : type.kept (.int n) = .int n := by
        rcases cases_isInteger htype with rfl | rfl <;> rfl
      rw [hkept]
      exact ⟨_, ⟨.int htype hword, rfl, hpresent, hplaces⟩, Cell.compare_self _⟩
  | @real x hexact =>
      have hnan : x ≠ .nan := fun hnan => hpresent (by rw [hnan]; rfl)
      have hcell : Cell.ofValue (.real x) = .real x := Cell.ofDouble_of_ne hnan
      rw [kept_real_of_ne hnan, hcell]
      exact identifies_unsignedZero hexact hnan
  | @numeric places x hexact =>
      have hnan : x ≠ .nan := fun hnan => hpresent (by rw [hnan]; rfl)
      have hcell : Cell.ofValue (.real x) = .real x := Cell.ofDouble_of_ne hnan
      rw [hcell] at hplaces ⊢
      exact identifies_fixedDecimal hexact hnan (hplaces places x rfl rfl)
  | @decimal places s x hread hexact =>
      have hnan : x ≠ .nan := fun hnan => hpresent (by rw [Cell.ofValue_decimal hread, hnan]; rfl)
      have hcell : Cell.ofValue (.decimal s) = .real x := by
        rw [Cell.ofValue_decimal hread, Cell.ofDouble_of_ne hnan]
      have hkept : (numeric places).kept (.decimal s) = fixedDecimal places x := by
        simp [ColumnType.kept, hread]
      rw [hcell] at hplaces ⊢
      rw [hkept]
      exact identifies_fixedDecimal hexact hnan (hplaces places x rfl rfl)
  | @text _ s htype =>
      have hkept : type.kept (.text s) = .text s := by
        rcases cases_affinity_text htype with rfl | rfl <;> rfl
      rw [hkept]
      exact ⟨_, ⟨.text htype, rfl, hpresent, hplaces⟩, Cell.compare_self _⟩
  | @bool b => exact ⟨_, ⟨.bool, rfl, hpresent, hplaces⟩, Cell.compare_self _⟩
  | @dateTime zoned t hvalid =>
      exact ⟨_, ⟨.dateTime (Time.isValid_dropOffset hvalid), rfl, hpresent, by simp⟩,
        Cell.compare_self _⟩

end ColumnType

end Table

end RecordApi
