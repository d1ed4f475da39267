import Mathlib.Data.List.DropRight
import RecordApi.Proofs.Number.WrittenIntegers
import RecordApi.Proofs.Paging.Cursors

/-!
# Windows as parts of a list

A window comes about by moving two numbers, where every bound moves one of them. Its offsets are the
same as those that the bounds leave of the list of all offsets, taken one after the other: the
numbers may cross on the way, and they may lie behind the end of the list.
-/

namespace RecordApi.Paging

open Number

/-- The offsets from one up to but not including another. -/
def offsets (start stop : Nat) : List Nat :=
  List.range' start (stop - start)

section Offsets

variable {start middle stop : Nat}

theorem mem_offsets {offset : Nat} :
    offset ∈ offsets start stop ↔ start ≤ offset ∧ offset < stop := by
  rw [offsets, List.mem_range'_1]
  omega

theorem offsets_eq_nil (h : stop ≤ start) : offsets start stop = [] := by
  rw [offsets, Nat.sub_eq_zero_of_le h, List.range'_zero]

@[simp] theorem length_offsets (start stop : Nat) :
    (offsets start stop).length = stop - start :=
  List.length_range'

theorem offsets_append (hstart : start ≤ middle) (hstop : middle ≤ stop) :
    offsets start middle ++ offsets middle stop = offsets start stop := by
  have hsize : stop - start = (middle - start) + (stop - middle) := by omega
  have hmiddle : middle = start + (middle - start) := by omega
  rw [offsets, offsets, offsets, hsize, ← List.range'_append_1, ← hmiddle]

theorem offsets_max (start stop : Nat) : offsets start (max start stop) = offsets start stop := by
  rw [offsets, offsets]
  congr 1
  omega

/-- The offsets behind a cursor. -/
theorem filter_behind (stop cursor : Nat) :
    (offsets 0 stop).filter (cursor < ·) = offsets (cursor + 1) stop := by
  rcases Nat.le_total (cursor + 1) stop with h | h
  · have hfront : (offsets 0 (cursor + 1)).filter (cursor < ·) = [] := by
      simp only [List.filter_eq_nil_iff, mem_offsets, decide_eq_true_eq]
      omega
    have hbehind : (offsets (cursor + 1) stop).filter (cursor < ·) = offsets (cursor + 1) stop := by
      simp only [List.filter_eq_self, mem_offsets, decide_eq_true_eq]
      omega
    rw [← offsets_append (Nat.zero_le _) h, List.filter_append, hfront, hbehind, List.nil_append]
  · rw [offsets_eq_nil h]
    simp only [List.filter_eq_nil_iff, mem_offsets, decide_eq_true_eq]
    omega

/-- The offsets before a cursor. -/
theorem filter_before (start stop cursor : Nat) :
    (offsets start stop).filter (· < cursor) = offsets start (min stop cursor) := by
  rcases Nat.le_total stop cursor with h | h
  · rw [Nat.min_eq_left h]
    simp only [List.filter_eq_self, mem_offsets, decide_eq_true_eq]
    omega
  · rw [Nat.min_eq_right h]
    rcases Nat.le_total start cursor with hstart | hstart
    · have hfront : (offsets start cursor).filter (· < cursor) = offsets start cursor := by
        simp only [List.filter_eq_self, mem_offsets, decide_eq_true_eq]
        omega
      have hbehind : (offsets cursor stop).filter (· < cursor) = [] := by
        simp only [List.filter_eq_nil_iff, mem_offsets, decide_eq_true_eq]
        omega
      rw [← offsets_append hstart h, List.filter_append, hfront, hbehind, List.append_nil]
    · rw [offsets_eq_nil hstart]
      simp only [List.filter_eq_nil_iff, mem_offsets, decide_eq_true_eq]
      omega

/-- The first so many offsets. -/
theorem take_offsets (start stop count : Nat) :
    (offsets start stop).take count = offsets start (min stop (start + count)) := by
  rcases Nat.le_total stop (start + count) with h | h
  · have hsize : (offsets start stop).length ≤ count := by
      rw [length_offsets]
      omega
    rw [Nat.min_eq_left h, List.take_of_length_le hsize]
  · have hsize : (offsets start (start + count)).length = count := by
      rw [length_offsets, Nat.add_sub_cancel_left]
    rw [Nat.min_eq_right h, ← offsets_append (Nat.le_add_right start count) h]
    exact List.take_left' hsize

/-- The last so many offsets. -/
theorem rtake_offsets (start stop count : Nat) :
    (offsets start stop).rtake count = offsets (max start (stop - count)) stop := by
  have hfrom : start + (stop - start - count) = max start (stop - count) ∨ stop ≤ start := by omega
  rw [List.rtake, length_offsets, offsets, List.drop_range', Nat.mul_one]
  rcases hfrom with h | h
  · rw [h, offsets]
    congr 1
    omega
  · rw [offsets_eq_nil (Nat.le_trans h (Nat.le_max_left _ _)), Nat.sub_eq_zero_of_le h,
      Nat.zero_sub, List.range'_zero]

end Offsets

/-- The offsets that bounds leave of a list of so many items: those behind one cursor and before
another, of these the first so many, and of those the last so many. -/
def selected (total : Nat) (after before first last : Option Nat) : List Nat :=
  let behind := (List.range total).filter fun offset => after.all (· < offset)
  let among := behind.filter fun offset => before.all (offset < ·)
  let leading := first.elim among among.take
  last.elim leading leading.rtake

/-- What a window selects is what its bounds leave of the list of offsets. -/
theorem windowBetween_selects (total : Nat) (after before first last : Option Nat) :
    ∃ start stop : Nat,
      windowBetween total (after.map (↑)) (before.map (↑)) (first.map (↑)) (last.map (↑)) =
        ⟨start, stop⟩ ∧
      offsets start stop = selected total after before first last ∧
      start ≤ stop ∧ (start < stop → stop ≤ total) := by
  -- the two numbers after each bound
  let behind := after.elim 0 (· + 1)
  let ahead := before.elim total (min total)
  let lead := first.elim ahead fun n => min ahead (behind + n)
  let tail := last.elim behind fun n => max behind (lead - n)
  have hbehind : (List.range total).filter (fun offset => after.all (· < offset)) =
      offsets behind total := by
    cases after with
    | none => simp [behind, offsets, List.range_eq_range']
    | some cursor =>
        have hrange : List.range total = offsets 0 total := by
          rw [offsets, List.range_eq_range', Nat.sub_zero]
        rw [hrange]
        exact filter_behind total cursor
  have hahead : (offsets behind total).filter (fun offset => before.all (offset < ·)) =
      offsets behind ahead := by
    cases before with
    | none => simp [ahead]
    | some cursor => exact filter_before behind total cursor
  have hlead : first.elim (offsets behind ahead) (offsets behind ahead).take =
      offsets behind lead := by
    cases first with
    | none => rfl
    | some n => exact take_offsets behind ahead n
  have htail : last.elim (offsets behind lead) (offsets behind lead).rtake = offsets tail lead := by
    cases last with
    | none => rfl
    | some n => exact rtake_offsets behind lead n
  have hwindow : windowBetween total (after.map (↑)) (before.map (↑)) (first.map (↑))
      (last.map (↑)) = ⟨tail, (max tail lead : Nat)⟩ := by
    unfold windowBetween
    cases after <;> cases before <;> cases first <;> cases last <;>
      simp only [Option.map_none, Option.map_some, Option.elim_none, Option.elim_some, tail, lead,
        ahead, behind, Window.mk.injEq] <;>
      omega
  have hahead_le : ahead ≤ total := by
    cases before with
    | none => exact Nat.le_refl total
    | some cursor => exact Nat.min_le_left total cursor
  have hlead_le : lead ≤ ahead := by
    cases first with
    | none => exact Nat.le_refl ahead
    | some n => exact Nat.min_le_left ahead _
  refine ⟨tail, max tail lead, hwindow, ?_, Nat.le_max_left _ _, fun h => ?_⟩
  · rw [offsets_max, selected, hbehind, hahead, hlead, htail]
  · omega

theorem decodeCursor?_map_encodeCursor {cursor : Option Nat} (h : ∀ n ∈ cursor, Writable n) :
    decodeCursor? (cursor.map fun n : Nat => encodeCursor n) = .ok (cursor.map (↑)) := by
  cases cursor with
  | none => rfl
  | some n =>
      simp only [Option.map_some, decodeCursor?, decodeCursor_encodeCursor (h n rfl)]
      rfl

/-- For cursors of offsets that can be written, and for all sizes, there is a window. It selects
what its bounds leave of the list of offsets, it never ends before it starts, and it ends within the
list unless it is empty. -/
theorem pageWindow_selects (total : Nat) (after before first last : Option Nat)
    (hafter : ∀ n ∈ after, Writable n) (hbefore : ∀ n ∈ before, Writable n) :
    ∃ start stop : Nat,
      pageWindow total
        { before := before.map fun n : Nat => encodeCursor n
          after := after.map fun n : Nat => encodeCursor n
          first := first.map (↑)
          last := last.map (↑) } = .ok ⟨start, stop⟩ ∧
      offsets start stop = selected total after before first last ∧
      start ≤ stop ∧ (start < stop → stop ≤ total) := by
  obtain ⟨start, stop, hwindow, hselects⟩ := windowBetween_selects total after before first last
  refine ⟨start, stop, ?_, hselects⟩
  rw [pageWindow, decodeCursor?_map_encodeCursor hafter, decodeCursor?_map_encodeCursor hbefore]
  exact congrArg Except.ok hwindow

/-- Of ten items, those behind the second and before the ninth, and of the first five of them the
last two. -/
theorem pageWindow_selects_ten :
    pageWindow 10
      { before := some (encodeCursor 8), after := some (encodeCursor 1)
        first := some 5, last := some 2 } = .ok ⟨5, 7⟩ ∧
    selected 10 (some 1) (some 8) (some 5) (some 2) = [5, 6] := by
  have hselected : selected 10 (some 1) (some 8) (some 5) (some 2) = [5, 6] := by decide
  obtain ⟨start, stop, hwindow, hoffsets, -⟩ :=
    pageWindow_selects 10 (some 1) (some 8) (some 5) (some 2) (by decide) (by decide)
  rw [hselected] at hoffsets
  have hmem : ∀ offset, offset ∈ [5, 6] ↔ start ≤ offset ∧ offset < stop := fun offset => by
    rw [← hoffsets, mem_offsets]
  have hfirst := (hmem 5).mp (by decide)
  have hlast := (hmem 6).mp (by decide)
  have hsize : stop - start = 2 := by
    rw [← length_offsets, hoffsets]
    rfl
  obtain ⟨rfl, rfl⟩ : start = 5 ∧ stop = 7 := by omega
  exact ⟨hwindow, hselected⟩

end RecordApi.Paging
