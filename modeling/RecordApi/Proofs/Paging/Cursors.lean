import RecordApi.Paging.Window
import RecordApi.Proofs.Number.WrittenIntegers

/-!
# Cursors read back

A text is read as a cursor if it writes the mark and decimal digits behind it, and the digits are
not too many. All other texts are refused. So a cursor names the offset that it was made for, as
long as the offset can be written, and every offset that has been read has a cursor that names it.
-/

namespace RecordApi

open RecordApi.Text Number

theorem Text.Base64.toNat_charOf_lt (value : Nat) : (Base64.charOf value).toNat < 128 := by
  have small : ∀ v < 64, (Base64.charOf v).toNat < 128 := by decide
  by_cases h : value < 64
  · exact small value h
  · have hlast : Base64.charOf value = '_' := by
      simp only [Base64.charOf]
      rw [if_neg (by omega), if_neg (by omega), if_neg (by omega), if_neg (by omega)]
    rw [hlast]
    decide

theorem Text.Base64.toNat_lt_of_mem_encode (bytes : List Nat) :
    ∀ c ∈ Base64.encode bytes, c.toNat < 128 := by
  fun_induction Base64.encode bytes with
  | case1 => simp
  | case2 a => simp [Base64.toNat_charOf_lt]
  | case3 a b => simp [Base64.toNat_charOf_lt]
  | case4 a b c rest ih => simpa [Base64.toNat_charOf_lt] using ih

namespace Paging

/-- A text that writes, in base 64, the mark and decimal digits behind it. -/
structure Spells (cursor : String) (digits : List Char) : Prop where
  ascii : ∀ c ∈ cursor.toList, c.toNat < 128
  bytes : Base64.decode cursor.toList = some ((cursorMark ++ digits).map Char.toNat)
  all : ∀ c ∈ digits, c.isDigit = true
  ne_nil : digits ≠ []

theorem cursorDigits?_mark {digits : List Char} (hall : ∀ c ∈ digits, c.isDigit = true)
    (hne : digits ≠ []) :
    cursorDigits? ((cursorMark ++ digits).map Char.toNat) =
      some (digits.map fun c => c.toNat - 48) := by
  have hbytes : (digits.map Char.toNat).all (fun b => 48 ≤ b && b ≤ 57) = true := by
    simp only [List.all_map, List.all_eq_true, Function.comp_apply, Bool.and_eq_true,
      decide_eq_true_eq]
    exact fun c hc => toNat_of_isDigit (hall c hc)
  have hempty : (digits.map Char.toNat).isEmpty = false := by simpa using hne
  simp [cursorDigits?, List.map_append, hbytes, hempty]

theorem isDigit_ofNat {b : Nat} (h : 48 ≤ b ∧ b ≤ 57) :
    (Char.ofNat b).isDigit = true ∧ (Char.ofNat b).toNat = b := by
  have hdigits : ∀ b ≤ 57, 48 ≤ b → (Char.ofNat b).isDigit = true ∧ (Char.ofNat b).toNat = b := by
    decide
  exact hdigits b h.2 h.1

/-- Only the mark with digits behind it is read. -/
theorem exists_of_cursorDigits? {bytes ds : List Nat} (h : cursorDigits? bytes = some ds) :
    ∃ digits : List Char, bytes = (cursorMark ++ digits).map Char.toNat ∧
      (∀ c ∈ digits, c.isDigit = true) ∧ digits ≠ [] := by
  simp only [cursorDigits?] at h
  split at h
  · next hmark =>
    simp only [Bool.and_eq_true, beq_iff_eq, Bool.not_eq_true', List.isEmpty_eq_false_iff,
      List.all_eq_true, decide_eq_true_eq] at hmark
    obtain ⟨⟨htake, hne⟩, hall⟩ := hmark
    let behind := bytes.drop (cursorMark.map Char.toNat).length
    have hback : (behind.map Char.ofNat).map Char.toNat = behind := by
      rw [List.map_map]
      exact (List.map_congr_left fun b hb => (isDigit_ofNat (hall b hb)).2).trans
        (List.map_id behind)
    refine ⟨behind.map Char.ofNat, ?_, ?_, ?_⟩
    · rw [List.map_append, hback, ← htake, List.take_append_drop]
    · intro c hc
      obtain ⟨b, hb, rfl⟩ := List.mem_map.mp hc
      exact (isDigit_ofNat (hall b hb)).1
    · simpa [behind] using hne
  · cases h

/-- What a text that writes digits is read as. -/
theorem Spells.decode {cursor : String} {digits : List Char} (h : Spells cursor digits) :
    decodeCursor cursor =
      if mostIntDigits < digits.length then .error (.tooLong digits.length)
      else .ok (Nat.ofDigitChars 10 digits 0) := by
  have hascii : (cursor.toList.any fun c => 128 ≤ c.toNat) = false := by
    rw [List.any_eq_false]
    intro c hc
    have := h.ascii c hc
    simp only [decide_eq_true_eq]
    omega
  simp only [decodeCursor, hascii, h.bytes, Option.bind_some, cursorDigits?_mark h.all h.ne_nil,
    List.length_map, ofDigits_map]
  rfl

/-- A text that writes no digits is refused. -/
theorem decode_of_not_spells {cursor : String} (h : ∀ digits, ¬ Spells cursor digits) :
    decodeCursor cursor = .error (.malformed cursor) := by
  simp only [decodeCursor]
  split
  · rfl
  · next hascii =>
    split
    · rfl
    · next ds hread =>
      obtain ⟨bytes, hbytes, hdigits⟩ := Option.bind_eq_some_iff.mp hread
      obtain ⟨digits, rfl, hall, hne⟩ := exists_of_cursorDigits? hdigits
      have hchars : ∀ c ∈ cursor.toList, c.toNat < 128 := by
        intro c hc
        simp only [List.any_eq_true, decide_eq_true_eq, not_exists, not_and, Nat.not_le] at hascii
        exact hascii c hc
      exact absurd ⟨hchars, hbytes, hall, hne⟩ (h digits)

theorem toList_encodeCursor (n : Nat) :
    (encodeCursor n).toList =
      Base64.encode ((cursorMark ++ Nat.toDigits 10 n).map Char.toNat) := by
  have hdigits : (n : Int).repr.toList = Nat.toDigits 10 n := Nat.toList_repr
  simp [encodeCursor, hdigits]

/-- The cursor of an offset writes its digits. -/
theorem spells_encodeCursor (n : Nat) : Spells (encodeCursor n) (Nat.toDigits 10 n) := by
  have hall : ∀ c ∈ Nat.toDigits 10 n, c.isDigit = true := fun _ => isDigit_of_mem_toDigits
  have hbytes : ∀ b ∈ (cursorMark ++ Nat.toDigits 10 n).map Char.toNat, b < 256 := by
    have hmark : ∀ c ∈ cursorMark, c.toNat < 256 := by
      have hletters : cursorMark.all fun c => c.toNat < 256 := by decide
      simpa using hletters
    intro b hb
    obtain ⟨c, hc, rfl⟩ := List.mem_map.mp hb
    rcases List.mem_append.mp hc with hc | hc
    · exact hmark c hc
    · have := toNat_of_isDigit (hall c hc)
      omega
  refine ⟨?_, ?_, hall, Nat.toDigits_ne_nil⟩
  · rw [toList_encodeCursor]
    exact Base64.toNat_lt_of_mem_encode _
  · rw [toList_encodeCursor, Base64.decode_encode _ hbytes]

/-- A cursor names the offset it was made for. -/
theorem decodeCursor_encodeCursor {n : Nat} (h : Writable n) :
    decodeCursor (encodeCursor n) = .ok n := by
  rw [(spells_encodeCursor n).decode, if_neg (Nat.not_lt.mpr h), Nat.ofDigitChars_ten_toDigits]

/-- Twenty digits are enough for all offsets of one word. -/
theorem decodeCursor_encodeCursor_of_lt {n : Nat} (h : n < 10 ^ 20) :
    decodeCursor (encodeCursor n) = .ok n := by
  have hlength := (Nat.length_toDigits_le_iff (by decide) (by decide)).mpr h
  exact decodeCursor_encodeCursor (Nat.le_trans hlength (by decide))

/-- An offset is read just if digits of it are written, and these are not too many. -/
theorem decodeCursor_eq_ok_iff {cursor : String} {m : Nat} :
    decodeCursor cursor = .ok m ↔ ∃ digits, Spells cursor digits ∧
      digits.length ≤ mostIntDigits ∧ Nat.ofDigitChars 10 digits 0 = m := by
  constructor
  · intro h
    by_cases hspells : ∃ digits, Spells cursor digits
    · obtain ⟨digits, hdigits⟩ := hspells
      rw [hdigits.decode] at h
      split at h
      · cases h
      · next hlength => exact ⟨digits, hdigits, Nat.not_lt.mp hlength, Except.ok.inj h⟩
    · rw [decode_of_not_spells (not_exists.mp hspells)] at h
      cases h
  · rintro ⟨digits, hdigits, hlength, rfl⟩
    rw [hdigits.decode, if_neg (Nat.not_lt.mpr hlength)]

/-- An offset that has been read can be written. -/
theorem writable_of_decodeCursor {cursor : String} {m : Nat} (h : decodeCursor cursor = .ok m) :
    Writable m := by
  obtain ⟨digits, hdigits, hlength, rfl⟩ := decodeCursor_eq_ok_iff.mp h
  rw [← ofDigits_map]
  refine writable_ofDigits ?_ (by rwa [List.length_map])
  intro d hd
  obtain ⟨c, hc, rfl⟩ := List.mem_map.mp hd
  have := toNat_of_isDigit (hdigits.all c hc)
  omega

/-- Cursors and offsets, for every number and every text:

* a cursor names the offset that it was made for, if the offset can be written;
* a text names an offset just if it writes digits of it that are not too many, and then the cursor
  of that offset names it as well;
* every other text is refused: one that writes too many digits for their number, and one that writes
  none as it stands. -/
theorem cursors_name_offsets (n : Nat) (cursor : String) :
    (Writable n → decodeCursor (encodeCursor n) = .ok n) ∧
    (∀ m, decodeCursor cursor = .ok m ↔ ∃ digits, Spells cursor digits ∧
      digits.length ≤ mostIntDigits ∧ Nat.ofDigitChars 10 digits 0 = m) ∧
    (∀ m, decodeCursor cursor = .ok m → decodeCursor (encodeCursor m) = .ok m) ∧
    ((∀ m, decodeCursor cursor ≠ .ok m) →
      (∃ digits, Spells cursor digits ∧ mostIntDigits < digits.length ∧
        decodeCursor cursor = .error (.tooLong digits.length)) ∨
      (∀ digits, ¬ Spells cursor digits) ∧
        decodeCursor cursor = .error (.malformed cursor)) := by
  refine ⟨decodeCursor_encodeCursor, fun m => decodeCursor_eq_ok_iff,
    fun m h => decodeCursor_encodeCursor (writable_of_decodeCursor h), fun hrefused => ?_⟩
  by_cases hspells : ∃ digits, Spells cursor digits
  · obtain ⟨digits, hdigits⟩ := hspells
    have hread := hdigits.decode
    by_cases hlength : mostIntDigits < digits.length
    · rw [if_pos hlength] at hread
      exact .inl ⟨digits, hdigits, hlength, hread⟩
    · rw [if_neg hlength] at hread
      exact absurd hread (hrefused _)
  · have hnone := not_exists.mp hspells
    exact .inr ⟨hnone, decode_of_not_spells hnone⟩

/-- A cursor with a blank in it and with a zero in front of its digit. -/
theorem cursors_name_offsets_seven :
    decodeCursor "b2Zm c2V0OjA3" = .ok 7 ∧ encodeCursor 7 ≠ "b2Zm c2V0OjA3" ∧
      decodeCursor (encodeCursor 7) = .ok 7 := by
  have hread : decodeCursor "b2Zm c2V0OjA3" = .ok 7 := by rfl
  exact ⟨hread, by decide +kernel, (cursors_name_offsets 7 "b2Zm c2V0OjA3").2.2.1 7 hread⟩

end Paging

end RecordApi
