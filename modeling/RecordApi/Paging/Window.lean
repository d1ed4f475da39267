import RecordApi.Paging.Cursor

/-!
# Page windows

The part of a sorted list that a pair of cursors and a pair of page sizes select. A window starts
at no negative offset, and it never ends before it starts.
-/

namespace RecordApi.Paging

/-- A positive page size, capped; any other size counts as absent. -/
def clampSize (size : Option Int) (most : Int) : Option Int :=
  match size with
  | none => none
  | some n => if n ≤ 0 then none else some (min n most)

/-- Which part of a list is asked for: the items before and after two cursors, then the first and
the last so many of them. -/
structure Bounds where
  before : Option String := none
  after : Option String := none
  first : Option Int := none
  last : Option Int := none

/-- The offsets from `start` up to but not including `stop`. -/
structure Window where
  start : Int
  stop : Int
deriving DecidableEq, Repr

/-- The offset that an optional cursor names. -/
def decodeCursor? (cursor : Option String) : Except CursorFault (Option Int) :=
  match cursor with
  | none => .ok none
  | some c => (decodeCursor c).map fun n => some (n : Int)

/-- The window for cursors that have been read: `after` and `before` are the offsets they name. -/
def windowBetween (total : Int) (after before first last : Option Int) : Window :=
  let start := match after with
    | some a => max 0 (a + 1)
    | none => 0
  let stop := match before with
    | some b => min total b
    | none => total
  let stop := match first with
    | some n => min stop (start + n)
    | none => stop
  let start := match last with
    | some n => max start (stop - n)
    | none => start
  ⟨start, max start stop⟩

theorem start_windowBetween_nonneg (total : Int) (after before first last : Option Int) :
    0 ≤ (windowBetween total after before first last).start := by
  unfold windowBetween
  cases after <;> cases last <;> simp only <;> omega

theorem start_le_stop_windowBetween (total : Int) (after before first last : Option Int) :
    (windowBetween total after before first last).start ≤
      (windowBetween total after before first last).stop :=
  Int.le_max_left _ _

/-- The window that bounds select of a list of so many items. -/
def pageWindow (total : Int) (bounds : Bounds) : Except CursorFault Window := do
  let after ← decodeCursor? bounds.after
  let before ← decodeCursor? bounds.before
  return windowBetween total after before bounds.first bounds.last

end RecordApi.Paging
