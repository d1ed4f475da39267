import Mathlib.Algebra.Ring.Nat
import Mathlib.Data.List.Induction
import RecordApi.Number.Reading

/-!
# Integers read back

An integer is read back from its decimal text, as long as it has no more digits than an integer may
be written with. Conversely so many digits never write an integer that has more of them.
-/

namespace RecordApi.Number

/-- A number that has no more digits than an integer may be written with. -/
def Writable (n : Nat) : Prop :=
  (Nat.toDigits 10 n).length ≤ mostIntDigits

instance (n : Nat) : Decidable (Writable n) :=
  inferInstanceAs (Decidable (_ ≤ _))

/-! ## Digits -/

theorem toNat_of_isDigit {c : Char} (h : c.isDigit = true) : 48 ≤ c.toNat ∧ c.toNat ≤ 57 := by
  simpa [Char.isDigit, UInt32.le_iff_toNat_le] using h

theorem digitValue?_of_isDigit {c : Char} (h : c.isDigit = true) :
    Text.digitValue? c = some (c.toNat - 48) := by
  have hrange := toNat_of_isDigit h
  have hfirst : (decide (48 ≤ c.toNat) && decide (c.toNat ≤ 48 + 9)) = true := by
    simp only [Bool.and_eq_true, decide_eq_true_eq]
    omega
  rw [Text.digitValue?, Text.digitZeros, List.find?_cons, hfirst]
  rfl

/-- Digits that take up a whole text are all read. -/
theorem takeDigits_of_isDigit {digits : List Char} (h : ∀ c ∈ digits, c.isDigit = true)
    (afterDigit : Bool) :
    takeDigits afterDigit digits = (digits.map fun c => c.toNat - 48, []) := by
  induction digits generalizing afterDigit with
  | nil => rfl
  | cons c digits ih =>
      have hc := digitValue?_of_isDigit (h c List.mem_cons_self)
      have hrest := ih (fun d hd => h d (List.mem_cons_of_mem c hd)) true
      simp only [takeDigits, hc, hrest, List.map_cons]

theorem ofDigits_map (digits : List Char) :
    ofDigits (digits.map fun c => c.toNat - 48) = Nat.ofDigitChars 10 digits 0 := by
  rw [ofDigits, List.foldl_map, Nat.ofDigitChars_eq_foldl]
  rfl

theorem ofDigits_toDigits (n : Nat) :
    ofDigits ((Nat.toDigits 10 n).map fun c => c.toNat - 48) = n := by
  rw [ofDigits_map, Nat.ofDigitChars_ten_toDigits]

theorem ofDigits_append_singleton (ds : List Nat) (d : Nat) :
    ofDigits (ds ++ [d]) = 10 * ofDigits ds + d := by
  simp [ofDigits]

theorem ofDigits_lt {ds : List Nat} (h : ∀ d ∈ ds, d < 10) : ofDigits ds < 10 ^ ds.length := by
  induction ds using List.reverseRecOn with
  | nil => decide
  | append_singleton ds d ih =>
      have hds := ih fun e he => h e (List.mem_append_left _ he)
      have hd : d < 10 := h d (List.mem_append_right _ List.mem_cons_self)
      rw [ofDigits_append_singleton, List.length_append, List.length_singleton, Nat.pow_succ]
      omega

/-- Few enough digits write a number that has few enough digits. -/
theorem writable_ofDigits {ds : List Nat} (h : ∀ d ∈ ds, d < 10)
    (hlength : ds.length ≤ mostIntDigits) : Writable (ofDigits ds) := by
  have hbound : ofDigits ds < 10 ^ mostIntDigits :=
    Nat.lt_of_lt_of_le (ofDigits_lt h) (Nat.pow_le_pow_right (by decide) hlength)
  exact (Nat.length_toDigits_le_iff (by decide) (by decide)).mpr hbound

/-! ## Integers -/

theorem isNumberSpace_of_isDigit {c : Char} (h : c.isDigit = true) : isNumberSpace c = false := by
  have hrange := toNat_of_isDigit h
  simp [isNumberSpace, Text.isSpace, Text.inRanges, Text.spaceRanges]
  omega

/-- A text with no white space at either end is left as it is. -/
theorem trimNumber_eq_self {cs : List Char} (h : ∀ c ∈ cs, isNumberSpace c = false) :
    trimNumber cs = cs := by
  have hhead : cs.dropWhile isNumberSpace = cs := by
    cases cs with
    | nil => rfl
    | cons c cs => rw [List.dropWhile_cons_of_neg (by simp [h c List.mem_cons_self])]
  have hlast : cs.reverse.dropWhile isNumberSpace = cs.reverse := by
    cases hreverse : cs.reverse with
    | nil => rfl
    | cons c more =>
        have hc : c ∈ cs := List.mem_reverse.mp (hreverse ▸ List.mem_cons_self)
        rw [List.dropWhile_cons_of_neg (by simp [h c hc])]
  rw [trimNumber, hhead, hlast, List.reverse_reverse]

theorem isDigit_of_mem_toDigits {n : Nat} {c : Char} (h : c ∈ Nat.toDigits 10 n) :
    c.isDigit = true :=
  Nat.isDigit_of_mem_toDigits (by decide) (by decide) h

theorem takeDigits_toDigits (n : Nat) :
    takeDigits false (Nat.toDigits 10 n) = ((Nat.toDigits 10 n).map fun c => c.toNat - 48, []) :=
  takeDigits_of_isDigit (fun _ => isDigit_of_mem_toDigits) false

/-- The digits of a number, behind a sign that has been read, are the number of that sign. -/
theorem readInt?_of_takeSign {cs : List Char} {negative : Bool} {n : Nat}
    (hspace : ∀ c ∈ cs, isNumberSpace c = false)
    (hsign : takeSign cs = (negative, Nat.toDigits 10 n)) (hn : Writable n) :
    readInt? cs = some (if negative then -(n : Int) else n) := by
  have hne : (Nat.toDigits 10 n).map (fun c => c.toNat - 48) ≠ [] := by
    simp [Nat.toDigits_ne_nil]
  obtain ⟨d, ds, hdigits⟩ := List.exists_cons_of_ne_nil hne
  have hlength : ¬ mostIntDigits < (d :: ds).length := by
    rw [← hdigits, List.length_map]
    exact Nat.not_lt.mpr hn
  simp only [readInt?, trimNumber_eq_self hspace, hsign, takeDigits_toDigits, hdigits]
  rw [if_neg hlength, ← hdigits, ofDigits_toDigits]

theorem takeSign_of_isDigit {c : Char} (h : c.isDigit = true) (cs : List Char) :
    takeSign (c :: cs) = (false, c :: cs) := by
  have hrange := toNat_of_isDigit h
  refine takeSign.eq_3 _ (fun _ hcs => ?_) (fun _ hcs => ?_)
  all_goals
    obtain ⟨rfl, -⟩ := List.cons.inj hcs
    exact absurd hrange (by decide)

/-- An integer is read back from its decimal text. -/
theorem readInt?_toString {n : Int} (h : Writable n.natAbs) :
    readInt? (toString n).toList = some n := by
  have hspace {m : Nat} : ∀ c ∈ Nat.toDigits 10 m, isNumberSpace c = false :=
    fun _ hc => isNumberSpace_of_isDigit (isDigit_of_mem_toDigits hc)
  cases n with
  | ofNat m =>
      have htext : (toString (Int.ofNat m)).toList = Nat.toDigits 10 m := Nat.toList_repr
      have hsign : takeSign (Nat.toDigits 10 m) = (false, Nat.toDigits 10 m) := by
        have hne : Nat.toDigits 10 m ≠ [] := Nat.toDigits_ne_nil
        obtain ⟨c, cs, hdigits⟩ := List.exists_cons_of_ne_nil hne
        rw [hdigits]
        exact takeSign_of_isDigit (isDigit_of_mem_toDigits (hdigits ▸ List.mem_cons_self)) cs
      rw [htext]
      exact readInt?_of_takeSign hspace hsign h
  | negSucc m =>
      have htext : (toString (Int.negSucc m)).toList = '-' :: Nat.toDigits 10 (m + 1) := by
        have hdigits : (m + 1).repr.toList = Nat.toDigits 10 (m + 1) := Nat.toList_repr
        rw [← hdigits]
        exact String.toList_append
      have hchars : ∀ c ∈ '-' :: Nat.toDigits 10 (m + 1), isNumberSpace c = false := by
        intro c hc
        rcases List.mem_cons.mp hc with rfl | hc
        · decide
        · exact hspace c hc
      rw [htext]
      exact readInt?_of_takeSign (n := m + 1) hchars rfl h

end RecordApi.Number
