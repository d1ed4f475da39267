import RecordApi.Number.Double

/-!
# Whole doubles

A double that is a whole number is what the number is rounded to, so it can be kept as an integer
and widened again. Only the sign of zero is lost.
-/

namespace RecordApi.Number.Double

/-- Whether the double of that form exists: its size is within the range and a multiple of the
distance between neighbours there. -/
def isExact : Double → Bool
  | finite _ units => units % Nat.pow 2 (spacing units) == 0 && decide (units < overflow)
  | _ => true

/-- The double with no sign in front of zero. -/
def unsignedZero : Double → Double
  | finite _ 0 => finite false 0
  | x => x

theorem two_pow_pos (exponent : Nat) : 0 < Nat.pow 2 exponent :=
  Nat.pow_pos (by decide)

theorem unitsPerOne_pos : 0 < unitsPerOne := by
  delta unitsPerOne
  apply two_pow_pos

theorem roundDiv_mul (count : Nat) {step : Nat} (hstep : 0 < step) :
    roundDiv (count * step) step = count := by
  have hrest : count * step % step = 0 := Nat.mul_mod_left count step
  have hquotient : count * step / step = count := Nat.mul_div_cancel count hstep
  simp [roundDiv, hrest, hquotient, hstep]

/-- A whole number of units that makes a double is rounded to itself. -/
theorem ofFraction_exact {negative : Bool} {count : Nat}
    (h : (finite negative (count * unitsPerOne)).isExact = true) (sign : Bool) :
    ofFraction sign count 1 = finite sign (count * unitsPerOne) := by
  simp only [isExact, Bool.and_eq_true, beq_iff_eq, decide_eq_true_eq] at h
  obtain ⟨hstep, hrange⟩ := h
  have hpos := two_pow_pos (spacing (count * unitsPerOne))
  obtain ⟨k, hk⟩ := Nat.dvd_of_mod_eq_zero hstep
  have hround : roundDiv (count * unitsPerOne) (Nat.pow 2 (spacing (count * unitsPerOne))) *
      Nat.pow 2 (spacing (count * unitsPerOne)) = count * unitsPerOne := by
    have hmul : count * unitsPerOne = k * Nat.pow 2 (spacing (count * unitsPerOne)) :=
      hk.trans (Nat.mul_comm _ _)
    generalize Nat.pow 2 (spacing (count * unitsPerOne)) = step at hpos hmul
    rw [hmul, roundDiv_mul k hpos]
  simp only [ofFraction, Nat.div_one, Nat.one_mul, hround]
  rw [if_neg (Nat.not_le.mpr hrange)]

theorem toInt?_eq_some {negative : Bool} {units : Nat} {n : Int}
    (h : (finite negative units).toInt? = some n) :
    ∃ count, units = count * unitsPerOne ∧ n = signedUnits negative count := by
  simp only [toInt?] at h
  split at h
  · next hwhole =>
    refine ⟨units / unitsPerOne, ?_, (Option.some.inj h).symm⟩
    exact (Nat.div_mul_cancel (Nat.dvd_of_mod_eq_zero hwhole)).symm
  · cases h

theorem signedUnits_mul (negative : Bool) (count unit : Nat) :
    signedUnits negative (count * unit) = signedUnits negative count * unit := by
  cases negative with
  | false => exact Int.natCast_mul count unit
  | true =>
      calc signedUnits true (count * unit)
          = -((count : Int) * unit) := congrArg Neg.neg (Int.natCast_mul count unit)
        _ = signedUnits true count * unit := (Int.neg_mul (count : Int) unit).symm

/-- A double that is a whole number stands at the place of that number. -/
theorem place?_of_toInt? {x : Double} {n : Int} (h : x.toInt? = some n) :
    x.place? = some (placeOfInt n) := by
  cases x with
  | finite negative units =>
      obtain ⟨count, hunits, hn⟩ := toInt?_eq_some h
      rw [place?, placeOfInt, hunits, hn, signedUnits_mul]
  | _ => cases h

/-- A double that is a whole number is the one that the number is rounded to. -/
theorem ofInt_of_toInt? {x : Double} {n : Int} (hx : x.isExact = true) (h : x.toInt? = some n) :
    ofInt n = x.unsignedZero := by
  cases x with
  | finite negative units =>
      obtain ⟨count, hunits, hn⟩ := toInt?_eq_some h
      have hcount : n.natAbs = count := by
        rw [hn]
        cases negative <;> simp [signedUnits]
      rw [hunits] at hx
      rw [ofInt, hcount, ofFraction_exact hx, ← hunits]
      cases units with
      | zero =>
          have hzero : count = 0 :=
            (Nat.mul_eq_zero.mp hunits.symm).resolve_right (Nat.ne_of_gt unitsPerOne_pos)
          have hsign : decide (n < 0) = false := by
            rw [hn, hzero]
            cases negative <;> rfl
          rw [hsign, unsignedZero]
      | succ units =>
          have hpos : 0 < count := by
            rcases Nat.eq_zero_or_pos count with hzero | hpos
            · rw [hzero, Nat.zero_mul] at hunits
              cases hunits
            · exact hpos
          have hsign : decide (n < 0) = negative := by
            rw [hn]
            cases negative <;> simp [signedUnits, hpos]
          rw [hsign, unsignedZero]
          simp
  | _ => cases h

theorem place?_unsignedZero (x : Double) : x.unsignedZero.place? = x.place? := by
  cases x with
  | finite negative units =>
      cases units with
      | zero => cases negative <;> rfl
      | succ units => rfl
  | _ => rfl

end RecordApi.Number.Double
