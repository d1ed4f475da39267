import Mathlib.Algebra.Ring.Nat
import Mathlib.Data.List.TakeWhile
import RecordApi.Time.Reading

/-!
# Dates and times read back

A valid date and time is read back from its ISO text, with an offset of whole minutes or with none.
From the text under which it is stored it is read back without its offset. Each part is written with
as many digits as it is read with, so it does not matter what stands behind it.
-/

namespace RecordApi.Time

theorem isDigit_of_mem_padded {width n : Nat} {c : Char} (h : c ∈ (padded width n).toList) :
    c.isDigit = true := by
  simp only [padded, String.toList_ofList, List.mem_append, List.mem_replicate] at h
  rcases h with ⟨-, rfl⟩ | h
  · rfl
  · exact Nat.isDigit_of_mem_toDigits (by decide) (by decide) h

theorem length_padded {width n : Nat} (hwidth : 0 < width) (h : n < 10 ^ width) :
    (padded width n).toList.length = width := by
  have hdigits := (Nat.length_toDigits_le_iff (by decide) hwidth).mpr h
  simp only [padded, String.toList_ofList, List.length_append, List.length_replicate]
  omega

theorem digit?_of_isDigit {c : Char} (h : c.isDigit = true) : digit? c = some (c.toNat - 48) := by
  have hrange : ('0' ≤ c && c ≤ '9') = true := by
    simpa [Char.isDigit, Char.le_def] using h
  rw [digit?, if_pos hrange]

/-- Digits are read as the number that they add to. -/
theorem takeNumber_digits {digits : List Char} (h : ∀ c ∈ digits, c.isDigit = true) (n : Nat)
    (rest : List Char) :
    takeNumber digits.length n (digits ++ rest) = some (Nat.ofDigitChars 10 digits n, rest) := by
  induction digits generalizing n with
  | nil => rfl
  | cons c digits ih =>
      simp only [List.length_cons, List.cons_append, takeNumber,
        digit?_of_isDigit (h c List.mem_cons_self)]
      rw [ih (fun d hd => h d (List.mem_cons_of_mem c hd)), Nat.ofDigitChars_cons]
      rfl

/-- A number is read back from as many digits as it was written in. -/
theorem takeNumber_padded {width n : Nat} (hwidth : 0 < width) (h : n < 10 ^ width)
    (rest : List Char) :
    takeNumber width 0 ((padded width n).toList ++ rest) = some (n, rest) := by
  have hdigits : ∀ c ∈ (padded width n).toList, c.isDigit = true :=
    fun _ => isDigit_of_mem_padded
  have hread := takeNumber_digits hdigits 0 rest
  rw [length_padded hwidth h] at hread
  rw [hread, padded, String.toList_ofList, Nat.ofDigitChars_append,
    Nat.ofDigitChars_replicate_zero, Nat.mul_zero, Nat.ofDigitChars_ten_toDigits]

theorem padded_ne_nil (width n : Nat) : (padded width n).toList ≠ [] := by
  simp [padded, Nat.toDigits_ne_nil]

/-- A character that is written between numbers is no digit. -/
theorem ne_of_isDigit {c d : Char} (hc : c.isDigit = true) (hd : d.isDigit = false) : c ≠ d := by
  rintro rfl
  rw [hc] at hd
  cases hd

namespace DateTime

/-- The characters of a date. -/
def dateChars (t : DateTime) : List Char :=
  (padded 4 t.year).toList ++ '-' :: ((padded 2 t.month).toList ++ '-' :: (padded 2 t.day).toList)

/-- The characters of a time of day, with a fraction of a second behind it. -/
def clockChars (t : DateTime) (fraction : List Char) : List Char :=
  (padded 2 t.hour).toList ++ ':' :: ((padded 2 t.minute).toList ++
    ':' :: ((padded 2 t.second).toList ++ fraction))

/-- Every part of a valid date and time has the digits that it is written in. -/
structure Bounded (t : DateTime) : Prop where
  year : t.year < 10 ^ 4
  month : t.month < 10 ^ 2
  day : t.day < 10 ^ 2
  hour : t.hour < 10 ^ 2
  minute : t.minute < 10 ^ 2
  second : t.second < 10 ^ 2
  micro : t.micro < 10 ^ 6

theorem daysInMonth_le (year month : Nat) : daysInMonth year month ≤ 31 := by
  unfold daysInMonth
  split
  · split <;> omega
  · split <;> omega

theorem bounded_of_isValid {t : DateTime} (h : t.isValid = true) : t.Bounded := by
  have hday := daysInMonth_le t.year t.month
  simp only [isValid, Bool.and_eq_true, decide_eq_true_eq] at h
  constructor <;> omega

theorem length_dateChars {t : DateTime} (h : t.Bounded) : t.dateChars.length = 10 := by
  simp only [dateChars, List.length_append, List.length_cons, length_padded (by decide) h.year,
    length_padded (by decide) h.month, length_padded (by decide) h.day]

end DateTime

open DateTime

/-- A date is read from its characters. -/
theorem readDate?_dateChars {t : DateTime} (h : t.Bounded) :
    readDate? t.dateChars = some (t.year, t.month, t.day) := by
  have hday := takeNumber_padded (by decide) h.day []
  rw [List.append_nil] at hday
  obtain ⟨c, more, hmonth⟩ := List.exists_cons_of_ne_nil (padded_ne_nil 2 t.month)
  have hc : c ≠ 'W' := ne_of_isDigit (isDigit_of_mem_padded (hmonth ▸ List.mem_cons_self)) rfl
  have hread := takeNumber_padded (by decide) h.month ('-' :: (padded 2 t.day).toList)
  rw [hmonth] at hread
  rw [readDate?, dateChars, takeNumber_padded (by decide) h.year, hmonth]
  simp only [Option.bind_eq_bind, Option.bind_some, List.head?_cons, beq_self_eq_true, if_true,
    List.drop_succ_cons, List.drop_zero, List.cons_append]
  split
  · next heq => exact absurd (List.cons.inj heq).1 hc
  · rw [List.cons_append] at hread
    simp [hread, hday]

/-! ## Times of day -/

/-- Characters that write a fraction of a second, which may be left off if it is zero. -/
inductive WritesFraction (micro : Nat) : List Char → Prop where
  | absent : micro = 0 → WritesFraction micro []
  | digits : WritesFraction micro ('.' :: (padded 6 micro).toList)

/-- A part of a clock with a colon and more behind it. -/
theorem readParts?_colon {n missing : Nat} {colons : Option Bool} (hn : n < 10 ^ 2)
    (hcolons : colons.getD true = true) {tail : List Char} (htail : tail ≠ []) :
    readParts? (missing + 1) colons ((padded 2 n).toList ++ ':' :: tail) =
      (readParts? missing (some true) tail).map (Clock.cons n) := by
  obtain ⟨c, more, rfl⟩ := List.exists_cons_of_ne_nil htail
  rw [readParts?, takeNumber_padded (by decide) hn]
  cases colons with
  | none => simp
  | some colons =>
      obtain rfl : colons = true := hcolons
      simp

/-- The last part of a clock, with a fraction behind it or with none. -/
theorem readParts?_fraction {n micro missing : Nat} {fraction : List Char} (hn : n < 10 ^ 2)
    (hmicro : micro < 10 ^ 6) (hfraction : WritesFraction micro fraction) :
    readParts? (missing + 1) (some true) ((padded 2 n).toList ++ fraction) =
      some ⟨[n], micro, false⟩ := by
  cases hfraction with
  | absent hzero =>
      have hread := takeNumber_padded (by decide) hn []
      rw [readParts?, hread, hzero]
  | digits =>
      have hread := takeNumber_padded (by decide) hmicro []
      have htail : readTail? (padded 6 micro).toList = some ⟨[], micro, false⟩ := by
        rw [List.append_nil] at hread
        simp [readTail?, readFraction?, length_padded (by decide) hmicro, hread]
      obtain ⟨c, more, hdigits⟩ := List.exists_cons_of_ne_nil (padded_ne_nil 6 micro)
      rw [readParts?, takeNumber_padded (by decide) hn]
      simp only [hdigits]
      rw [← hdigits, htail]
      rfl

theorem readClock?_clockChars {t : DateTime} (h : t.Bounded) {fraction : List Char}
    (hfraction : WritesFraction t.micro fraction) :
    readClock? (t.clockChars fraction) = some ⟨[t.hour, t.minute, t.second], t.micro, false⟩ := by
  rw [readClock?, clockChars, readParts?_colon h.hour rfl (by simp),
    readParts?_colon h.minute rfl (List.append_ne_nil_of_left_ne_nil (padded_ne_nil 2 _) _),
    readParts?_fraction h.second h.micro hfraction]
  rfl

/-- No sign and no letter is written in a time of day. -/
theorem mem_clockChars {t : DateTime} {fraction : List Char}
    (hfraction : WritesFraction t.micro fraction) {c : Char} (h : c ∈ t.clockChars fraction) :
    c.isDigit = true ∨ c = ':' ∨ c = '.' := by
  have hlast : c ∈ fraction → c.isDigit = true ∨ c = '.' := by
    intro hc
    cases hfraction with
    | absent => cases hc
    | digits => exact (List.mem_cons.mp hc).symm.imp_left isDigit_of_mem_padded
  simp only [clockChars, List.mem_append, List.mem_cons] at h
  rcases h with h | rfl | h | rfl | h | h
  · exact .inl (isDigit_of_mem_padded h)
  · exact .inr (.inl rfl)
  · exact .inl (isDigit_of_mem_padded h)
  · exact .inr (.inl rfl)
  · exact .inl (isDigit_of_mem_padded h)
  · exact (hlast h).imp_right .inr

/-! ## Offsets -/

/-- Characters that write an offset of whole minutes, or none for a missing one. -/
inductive WritesOffset : Option Int → List Char → Prop where
  | absent : WritesOffset none []
  | minutes (negative : Bool) (count : Nat) (h : count < 1440) :
      WritesOffset (some (60000000 * if negative then -(count : Int) else count))
        ((if negative then '-' else '+') ::
          ((padded 2 (count / 60)).toList ++ ':' :: (padded 2 (count % 60)).toList))

theorem readOffset?_minutes (negative : Bool) {count : Nat} (h : count < 1440) :
    readOffset? negative
        ((padded 2 (count / 60)).toList ++ ':' :: (padded 2 (count % 60)).toList) =
      some (60000000 * if negative then -(count : Int) else count) := by
  have hminutes : readParts? 2 (some true) (padded 2 (count % 60)).toList =
      some ⟨[count % 60], 0, false⟩ := by
    have hread := @readParts?_fraction (count % 60) 0 1 [] (by omega) (by decide) (.absent rfl)
    rwa [List.append_nil] at hread
  have hclock : readClock?
      ((padded 2 (count / 60)).toList ++ ':' :: (padded 2 (count % 60)).toList) =
        some ⟨[count / 60, count % 60], 0, false⟩ := by
    rw [readClock?, readParts?_colon (by omega) rfl (padded_ne_nil 2 _), hminutes]
    rfl
  have hseconds : count / 60 * 3600 + count % 60 * 60 = count * 60 := by omega
  simp only [readOffset?, hclock, Option.bind_eq_bind, Option.bind_some, List.getD_cons_zero,
    List.getD_cons_succ, List.getD_nil, Nat.add_zero, hseconds]
  rw [if_neg Bool.false_ne_true]
  cases negative <;> simp only [Bool.false_eq_true, if_false, if_true, Option.some.injEq] <;>
    split <;> omega

/-- A written offset begins with a sign. -/
theorem WritesOffset.cases {offset : Option Int} {cs : List Char} (h : WritesOffset offset cs) :
    cs = [] ∧ offset = none ∨ ∃ sign tail size, cs = sign :: tail ∧ (sign = '+' ∨ sign = '-') ∧
      readOffset? (sign == '-') tail = some size ∧ offset = some size := by
  cases h with
  | absent => exact .inl ⟨rfl, rfl⟩
  | minutes negative count h =>
      refine .inr ⟨_, _, _, rfl, ?_, ?_, rfl⟩
      · cases negative
        · exact .inl rfl
        · exact .inr rfl
      · have hsign : ((if negative then '-' else '+') == '-') = negative := by
          cases negative <;> rfl
        rw [hsign]
        exact readOffset?_minutes negative h

theorem WritesOffset.mem {offset : Option Int} {cs : List Char} (h : WritesOffset offset cs)
    {c : Char} (hc : c ∈ cs) : c.isDigit = true ∨ c = ':' ∨ c = '+' ∨ c = '-' := by
  cases h with
  | absent => cases hc
  | minutes negative count =>
      simp only [List.mem_cons, List.mem_append] at hc
      rcases hc with rfl | hc | rfl | hc
      · cases negative
        · exact .inr (.inr (.inl rfl))
        · exact .inr (.inr (.inr rfl))
      · exact .inl (isDigit_of_mem_padded hc)
      · exact .inr (.inl rfl)
      · exact .inl (isDigit_of_mem_padded hc)

/-- A time of day with an offset behind it, or with none. -/
theorem readTime?_clockChars {t : DateTime} (h : t.Bounded) {fraction offset : List Char}
    (hfraction : WritesFraction t.micro fraction) (hoffset : WritesOffset t.offset offset) :
    readTime? (t.clockChars fraction ++ offset) =
      some (⟨[t.hour, t.minute, t.second], t.micro, false⟩, t.offset) := by
  have hplain : ∀ c ∈ t.clockChars fraction, (!(c == '+' || c == '-')) = true := by
    intro c hc
    rcases mem_clockChars hfraction hc with hdigit | rfl | rfl
    · have hplus := ne_of_isDigit hdigit (d := '+') rfl
      have hminus := ne_of_isDigit hdigit (d := '-') rfl
      simp [hplus, hminus]
    · rfl
    · rfl
  have hclock := readClock?_clockChars h hfraction
  rw [readTime?, List.takeWhile_append_of_pos hplain, List.dropWhile_append_of_pos hplain]
  rcases hoffset.cases with ⟨rfl, hnone⟩ | ⟨sign, tail, size, rfl, hsign, hread, hsize⟩
  · simp [hclock, hnone]
  · have hends : (!(sign == '+' || sign == '-')) = false := by
      rcases hsign with rfl | rfl <;> rfl
    simp only [List.takeWhile_cons, List.dropWhile_cons, hends, Bool.false_eq_true, if_false,
      List.append_nil, hclock, hread, hsize]
    rfl

/-! ## Dates -/

theorem mem_dateChars {t : DateTime} {c : Char} (h : c ∈ t.dateChars) :
    c.isDigit = true ∨ c = '-' := by
  simp only [dateChars, List.mem_append, List.mem_cons] at h
  rcases h with h | rfl | h | rfl | h
  · exact .inl (isDigit_of_mem_padded h)
  · exact .inr rfl
  · exact .inl (isDigit_of_mem_padded h)
  · exact .inr rfl
  · exact .inl (isDigit_of_mem_padded h)

/-- The date takes up ten characters, since hyphens stand where they do. -/
theorem dateWidth?_dateChars {t : DateTime} (h : t.Bounded) (separator : Char) (time : List Char) :
    dateWidth? (t.dateChars ++ separator :: time) = some 10 := by
  have hlength : (t.dateChars ++ separator :: time).length ≠ 7 := by
    rw [List.length_append, length_dateChars h]
    omega
  have hyear := length_padded (by decide) h.year
  have hhyphen : (t.dateChars ++ separator :: time)[4]? = some '-' := by
    rw [dateChars, List.append_assoc, List.getElem?_append_right (by omega), hyear]
    rfl
  obtain ⟨c, more, hmonth⟩ := List.exists_cons_of_ne_nil (padded_ne_nil 2 t.month)
  have hc : c ≠ 'W' := ne_of_isDigit (isDigit_of_mem_padded (hmonth ▸ List.mem_cons_self)) rfl
  have hnext : (t.dateChars ++ separator :: time)[5]? = some c := by
    rw [dateChars, List.append_assoc, List.getElem?_append_right (by omega), hyear, hmonth]
    rfl
  simp only [dateWidth?, hlength, hhyphen, hnext]
  simp [hc]

theorem spellUniversal_of_not_mem {cs : List Char} (h : 'Z' ∉ cs) : spellUniversal cs = cs := by
  induction cs with
  | nil => rfl
  | cons c cs ih =>
      rw [List.mem_cons, not_or] at h
      obtain ⟨hc, hcs⟩ := h
      have hne : (c == 'Z') = false := by simpa using fun heq => hc heq.symm
      have hrest := ih hcs
      rw [spellUniversal] at hrest ⊢
      rw [List.flatMap_cons, hrest, hne]
      rfl

/-- A valid date and time is read back from its characters, whatever separates date and time. -/
theorem readDateTime?_chars {t : DateTime} (h : t.isValid = true) {separator : Char}
    (hseparator : separator ≠ 'Z') {fraction offset : List Char}
    (hfraction : WritesFraction t.micro fraction) (hoffset : WritesOffset t.offset offset)
    {s : String} (hs : s.toList = t.dateChars ++ separator :: (t.clockChars fraction ++ offset)) :
    readDateTime? s = some t := by
  have hbounded := bounded_of_isValid h
  have huniversal : 'Z' ∉ s.toList := by
    rw [hs, List.mem_append, List.mem_cons, List.mem_append]
    rintro (hc | hc | hc | hc)
    · rcases mem_dateChars hc with hc | hc <;> cases hc
    · exact hseparator hc.symm
    · rcases mem_clockChars hfraction hc with hc | hc | hc <;> cases hc
    · rcases hoffset.mem hc with hc | hc | hc | hc <;> cases hc
  have hlength : ¬ s.toList.length < 7 := by
    rw [hs, List.length_append, length_dateChars hbounded]
    omega
  have hdate : s.toList.take 10 = t.dateChars := by
    rw [hs]
    exact List.take_left' (length_dateChars hbounded)
  have htime : s.toList.drop 10 = separator :: (t.clockChars fraction ++ offset) := by
    rw [hs]
    exact List.drop_left' (length_dateChars hbounded)
  have hwidth : dateWidth? s.toList = some 10 := by
    rw [hs]
    exact dateWidth?_dateChars hbounded separator _
  have hassembled : assemble? (t.year, t.month, t.day)
      ⟨[t.hour, t.minute, t.second], t.micro, false⟩ t.offset = some t := if_pos h
  rw [readDateTime?, spellUniversal_of_not_mem huniversal, readIso?, if_neg hlength]
  simp only [hwidth, hdate, htime, readDate?_dateChars hbounded,
    readTime?_clockChars hbounded hfraction hoffset, Option.bind_eq_bind, Option.bind_some]
  exact hassembled

/-! ## Texts -/

theorem isValid_dropOffset {t : DateTime} (h : t.isValid = true) : t.dropOffset.isValid = true := by
  simp only [isValid, Bool.and_eq_true] at h ⊢
  exact ⟨h.1, rfl⟩

theorem DateTime.toList_storedText (t : DateTime) :
    t.storedText.toList =
      t.dateChars ++ ' ' :: t.clockChars ('.' :: (padded 6 t.micro).toList) := by
  simp [storedText, dateText, clockText, dateChars, clockChars]

/-- A valid date and time is read back from the text under which it is stored, but without its
offset. -/
theorem readDateTime?_storedText {t : DateTime} (h : t.isValid = true) :
    readDateTime? t.storedText = some t.dropOffset := by
  have hseparator : ' ' ≠ 'Z' := by decide
  refine readDateTime?_chars (isValid_dropOffset h) hseparator .digits .absent ?_
  rw [toList_storedText, List.append_nil]
  rfl

namespace DateTime

/-- The ISO 8601 text in which the fraction of a second is written even if it is zero. -/
def fullIsoText (t : DateTime) : String :=
  t.dateText ++ "T" ++ t.clockText ++ "." ++ padded 6 t.micro ++ (t.offset.map offsetText).getD ""

/-- An ISO 8601 text of a date and time, in which a fraction that is zero may be left off. -/
def IsIsoText (t : DateTime) (text : String) : Prop :=
  text = t.isoText ∨ text = t.fullIsoText

/-- Whether an offset is one of whole minutes, if there is one. -/
def InMinutes (t : DateTime) : Prop :=
  ∀ offset, t.offset = some offset → (60000000 : Int) ∣ offset

end DateTime

theorem toList_offsetText (minutes : Int) :
    (offsetText (60000000 * minutes)).toList =
      (if minutes < 0 then '-' else '+') ::
        ((padded 2 (minutes.natAbs / 60)).toList ++
          ':' :: (padded 2 (minutes.natAbs % 60)).toList) := by
  have hsize : (60000000 * minutes).natAbs = minutes.natAbs * 60000000 := by
    rw [Int.natAbs_mul, Nat.mul_comm]
    rfl
  have hseconds : minutes.natAbs * 60000000 / 1000000 = minutes.natAbs * 60 := by omega
  have hwhole : minutes.natAbs * 60 % 60 = 0 ∧ minutes.natAbs * 60000000 % 1000000 = 0 := by omega
  have hhours : minutes.natAbs * 60 / 3600 = minutes.natAbs / 60 := by omega
  have hminutes : minutes.natAbs * 60 / 60 % 60 = minutes.natAbs % 60 := by omega
  have hsign : 60000000 * minutes < 0 ↔ minutes < 0 := by omega
  simp only [offsetText, hsize, hseconds, hwhole, hhours, hminutes, hsign]
  split <;> simp

theorem writesOffset_of_inMinutes {t : DateTime} (h : t.isValid = true) (hminutes : t.InMinutes) :
    WritesOffset t.offset ((t.offset.map offsetText).getD "").toList := by
  cases hoffset : t.offset with
  | none => exact .absent
  | some offset =>
      obtain ⟨minutes, rfl⟩ := hminutes offset hoffset
      have hcount : minutes.natAbs < 1440 := by
        simp only [isValid, hoffset, Option.all_some, Bool.and_eq_true, decide_eq_true_eq] at h
        obtain ⟨-, hlow, hhigh⟩ := h
        unfold dayMicros at hlow hhigh
        omega
      have hsigned : (60000000 * if decide (minutes < 0) then -(minutes.natAbs : Int)
          else minutes.natAbs) = 60000000 * minutes := by
        simp only [decide_eq_true_eq]
        split <;> omega
      have hwrites := WritesOffset.minutes (decide (minutes < 0)) minutes.natAbs hcount
      rw [hsigned] at hwrites
      rw [Option.map_some, Option.getD_some, toList_offsetText]
      simpa only [decide_eq_true_eq] using hwrites

theorem writesFraction_fractionText (micro : Nat) :
    WritesFraction micro (fractionText micro).toList := by
  unfold fractionText
  split
  · next hzero => exact .absent hzero
  · rw [String.toList_append]
    exact .digits

/-- A valid date and time is read back from its ISO texts, unless its offset has seconds. -/
theorem readDateTime?_of_isIsoText {t : DateTime} (h : t.isValid = true) (hminutes : t.InMinutes)
    {text : String} (htext : t.IsIsoText text) : readDateTime? text = some t := by
  have hoffset := writesOffset_of_inMinutes h hminutes
  have hseparator : 'T' ≠ 'Z' := by decide
  rcases htext with rfl | rfl
  · refine readDateTime?_chars h hseparator (writesFraction_fractionText t.micro) hoffset ?_
    simp [isoText, textWith, dateText, clockText, dateChars, clockChars]
  · refine readDateTime?_chars h hseparator .digits hoffset ?_
    simp [fullIsoText, dateText, clockText, dateChars, clockChars]

end RecordApi.Time
