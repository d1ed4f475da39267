import RecordApi.Proofs.Time.WrittenTexts

/-!
# Instants

A date and time says what a calendar and a clock show. Where they are ahead of universal time by a
known offset, it also says an instant. Two of them that say one instant show the same just if their
offsets are equal; and no text that spells an offset, be it with a sign or as the letter for
universal time, is read as another date and time than the one that it spells.
-/

namespace RecordApi.Time

/-! ## Days -/

/-- The number of days of a year before the first of a month. -/
def daysBeforeMonth (year : Nat) : Nat → Nat
  | 0 | 1 => 0
  | month + 2 => daysBeforeMonth year (month + 1) + daysInMonth year (month + 1)

theorem daysBeforeMonth_succ (year : Nat) {month : Nat} (h : 1 ≤ month) :
    daysBeforeMonth year (month + 1) = daysBeforeMonth year month + daysInMonth year month := by
  obtain ⟨month, rfl⟩ := Nat.exists_eq_add_of_le' h
  rfl

theorem daysBeforeMonth_mono (year : Nat) {first second : Nat} (h : first ≤ second) :
    daysBeforeMonth year first ≤ daysBeforeMonth year second := by
  induction h with
  | refl => exact Nat.le_refl _
  | @step second _ ih =>
      rcases second with _ | second
      · exact ih
      · rw [daysBeforeMonth_succ year (Nat.le_add_left 1 second)]
        omega

/-- The months make up the year. -/
theorem daysBeforeMonth_end (year : Nat) : daysBeforeMonth year 13 = daysInYear year := by
  cases h : isLeap year <;> simp [daysBeforeMonth, daysInMonth, daysInYear, h]

theorem isLeap_iff (year : Nat) : isLeap year = true ↔ 4 ∣ year ∧ (¬ 100 ∣ year ∨ 400 ∣ year) := by
  simp [isLeap, Nat.dvd_iff_mod_eq_zero]

theorem daysBefore_succ {year : Nat} (h : 1 ≤ year) :
    daysBefore (year + 1) = daysBefore year + daysInYear year := by
  obtain ⟨past, rfl⟩ := Nat.exists_eq_add_of_le' h
  have hless : past / 100 ≤ past / 4 := Nat.div_le_div_left (by decide) (by decide)
  simp only [daysBefore, daysInYear, isLeap_iff, Nat.add_sub_cancel, Nat.succ_div]
  split_ifs <;> omega

/-- A place behind the start of a block is in no other block, where each block begins at the end of
the one before it. -/
theorem eq_of_place {start size : Nat → Nat}
    (hnext : ∀ n, 1 ≤ n → start (n + 1) = start n + size n) {m n i j : Nat} (hm : 1 ≤ m)
    (hn : 1 ≤ n) (hi : 1 ≤ i ∧ i ≤ size m) (hj : 1 ≤ j ∧ j ≤ size n)
    (h : start m + i = start n + j) : m = n := by
  have hbehind {first second : Nat} (hfirst : 1 ≤ first) (hlt : first < second) :
      start first + size first ≤ start second := by
    induction second, hlt using Nat.le_induction with
    | base => exact (hnext first hfirst).ge
    | succ second hle ih =>
        rw [hnext second (by omega)]
        exact Nat.le_add_right_of_le ih
  rcases Nat.lt_trichotomy m n with hlt | heq | hlt
  · have := hbehind hm hlt
    omega
  · exact heq
  · have := hbehind hn hlt
    omega

namespace DateTime

/-! ## What calendar and clock show -/

/-- The number of the day within its year. -/
def dayOfYear (t : DateTime) : Nat :=
  daysBeforeMonth t.year t.month + t.day

/-- The number of microseconds since midnight. -/
def sinceMidnight (t : DateTime) : Nat :=
  ((t.hour * 60 + t.minute) * 60 + t.second) * 1000000 + t.micro

/-- What calendar and clock show, counted in microseconds. An offset does not change it. -/
def reading (t : DateTime) : Int :=
  (daysBefore t.year + t.dayOfYear : Nat) * dayMicros + t.sinceMidnight

/-- The instant, in microseconds of universal time, if the offset is known. -/
def instant? (t : DateTime) : Option Int :=
  t.offset.map fun offset => t.reading - offset

@[simp] theorem reading_dropOffset (t : DateTime) : t.dropOffset.reading = t.reading := rfl

variable {t u : DateTime}

theorem dayOfYear_le (h : t.isValid = true) :
    1 ≤ t.dayOfYear ∧ t.dayOfYear ≤ daysInYear t.year := by
  simp only [isValid, Bool.and_eq_true, decide_eq_true_eq] at h
  have hnext : daysBeforeMonth t.year (t.month + 1) =
      daysBeforeMonth t.year t.month + daysInMonth t.year t.month :=
    daysBeforeMonth_succ t.year (by omega)
  have hend : daysBeforeMonth t.year (t.month + 1) ≤ daysBeforeMonth t.year 13 :=
    daysBeforeMonth_mono t.year (by omega)
  rw [daysBeforeMonth_end] at hend
  rw [dayOfYear]
  omega

theorem sinceMidnight_lt (h : t.isValid = true) : (t.sinceMidnight : Int) < dayMicros := by
  simp only [isValid, Bool.and_eq_true, decide_eq_true_eq] at h
  rw [sinceMidnight, dayMicros]
  omega

/-- The days of the calendar are told apart by their numbers. -/
theorem eq_of_dayNumber (ht : t.isValid = true) (hu : u.isValid = true)
    (h : daysBefore t.year + t.dayOfYear = daysBefore u.year + u.dayOfYear) :
    t.year = u.year ∧ t.month = u.month ∧ t.day = u.day := by
  have htday := dayOfYear_le ht
  have huday := dayOfYear_le hu
  simp only [isValid, Bool.and_eq_true, decide_eq_true_eq] at ht hu
  -- Years are blocks of days, and so are the months within a year.
  have hyear : t.year = u.year :=
    eq_of_place (fun _ => daysBefore_succ) (by omega) (by omega) htday huday h
  have hday : t.dayOfYear = u.dayOfYear := by
    rw [hyear] at h
    omega
  rw [dayOfYear, dayOfYear, hyear] at hday
  have hmonth : t.month = u.month := by
    refine eq_of_place (fun _ => daysBeforeMonth_succ u.year) (by omega) (by omega) ?_ (by omega)
      hday
    rw [← hyear]
    omega
  rw [hmonth] at hday
  exact ⟨hyear, hmonth, by omega⟩

/-- Dates and times that show the same are the same, offsets apart. -/
theorem dropOffset_eq_iff (ht : t.isValid = true) (hu : u.isValid = true) :
    t.dropOffset = u.dropOffset ↔ t.reading = u.reading := by
  constructor
  · intro h
    rw [← reading_dropOffset t, ← reading_dropOffset u, h]
  · intro h
    have htmicros := sinceMidnight_lt ht
    have humicros := sinceMidnight_lt hu
    rw [reading, reading, dayMicros] at h
    rw [dayMicros] at htmicros humicros
    obtain ⟨hyear, hmonth, hday⟩ := eq_of_dayNumber ht hu (by omega)
    have hclock : t.sinceMidnight = u.sinceMidnight := by omega
    simp only [isValid, Bool.and_eq_true, decide_eq_true_eq] at ht hu
    rw [sinceMidnight, sinceMidnight] at hclock
    simp only [dropOffset, mk.injEq, hyear, hmonth, hday, true_and, and_true]
    omega

variable {offset other : Int}

/-- Calendars and clocks that show one instant are apart by the difference of their offsets. -/
theorem instant?_eq_iff (ht : t.offset = some offset) (hu : u.offset = some other) :
    t.instant? = u.instant? ↔ t.reading - u.reading = offset - other := by
  rw [instant?, instant?, ht, hu, Option.map_some, Option.map_some, Option.some_inj]
  omega

/-- Of the dates and times of one instant only those with one offset show the same. -/
theorem dropOffset_eq_iff_of_instant? (htvalid : t.isValid = true) (huvalid : u.isValid = true)
    (ht : t.offset = some offset) (hu : u.offset = some other) (h : t.instant? = u.instant?) :
    t.dropOffset = u.dropOffset ↔ offset = other := by
  have hapart := (instant?_eq_iff ht hu).mp h
  rw [dropOffset_eq_iff htvalid huvalid]
  omega

end DateTime

/-! ## Texts with an offset -/

/-- What is read is valid. -/
theorem isValid_of_readDateTime? {text : String} {t : DateTime} (h : readDateTime? text = some t) :
    t.isValid = true := by
  have hassembled {date : Nat × Nat × Nat} {clock : Clock} {offset : Option Int}
      (h : assemble? date clock offset = some t) : t.isValid = true := by
    obtain ⟨hvalid, ht⟩ := Option.ite_none_right_eq_some.mp h
    exact Option.some.inj ht ▸ hvalid
  simp only [readDateTime?, readIso?, Option.bind_eq_bind] at h
  split at h
  · cases h
  · simp only [Option.bind_eq_some_iff] at h
    obtain ⟨width, -, date, -, h⟩ := h
    split at h
    · exact hassembled h
    · simp only [Option.bind_eq_some_iff] at h
      obtain ⟨⟨clock, offset⟩, -, h⟩ := h
      exact hassembled h

/-- The letter for universal time behind a text counts as an offset of zero. -/
theorem readDateTime?_universal (cs : List Char) :
    readDateTime? (String.ofList (cs ++ ['Z'])) =
      readDateTime? (String.ofList (cs ++ "+00:00".toList)) := by
  have hsame : spellUniversal ['Z'] = spellUniversal "+00:00".toList := by decide
  simp only [spellUniversal] at hsame
  simp only [readDateTime?, String.toList_ofList, spellUniversal, List.flatMap_append, hsame]

/-- Characters that spell an offset: hours and minutes behind a sign, or the letter for universal
time. -/
inductive SpellsOffset : Int → List Char → Prop where
  | signed {offset : Int} {cs : List Char} :
      WritesOffset (some offset) cs → SpellsOffset offset cs
  | universal : SpellsOffset 0 ['Z']

/-- A text that spells a valid date and time with its offset. The fraction of a second may be left
off if it is zero. -/
def DateTime.Spells (t : DateTime) (text : String) : Prop :=
  t.isValid = true ∧ ∃ offset separator fraction cs, t.offset = some offset ∧ separator ≠ 'Z' ∧
    WritesFraction t.micro fraction ∧ SpellsOffset offset cs ∧
    text = String.ofList (t.dateChars ++ separator :: (t.clockChars fraction ++ cs))

/-- A text is read as the date and time that it spells, with the offset that it spells. -/
theorem DateTime.Spells.read {t : DateTime} {text : String} (h : t.Spells text) :
    readDateTime? text = some t := by
  obtain ⟨hvalid, offset, separator, fraction, cs, hoffset, hseparator, hfraction, hcs, rfl⟩ := h
  cases hcs with
  | signed hwrites =>
      rw [← hoffset] at hwrites
      exact readDateTime?_chars hvalid hseparator hfraction hwrites String.toList_ofList
  | universal =>
      have hwrites : WritesOffset t.offset "+00:00".toList := by
        rw [hoffset]
        exact .minutes false 0 (by decide)
      have hgroup (cs : List Char) : t.dateChars ++ separator :: (t.clockChars fraction ++ cs) =
          (t.dateChars ++ separator :: t.clockChars fraction) ++ cs := by simp
      rw [hgroup, readDateTime?_universal, ← hgroup]
      exact readDateTime?_chars hvalid hseparator hfraction hwrites String.toList_ofList

end RecordApi.Time
