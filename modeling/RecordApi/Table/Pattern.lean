/-!
# Patterns

In a pattern the percent sign stands for any text and the low line for any one character; every
other character stands for itself, ASCII letters in either case.
-/

namespace RecordApi.Table.Pattern

/-- Whether two characters are the same but for the case of ASCII letters. -/
def sameLetter (c d : Char) : Bool :=
  c.toLower == d.toLower

/-- What may be left of a text after some of its head is gone, the longest first. -/
def rests : List Char → List (List Char)
  | [] => [[]]
  | c :: cs => (c :: cs) :: rests cs

/-- Whether a pattern stands for a whole text. -/
def fits : List Char → List Char → Bool
  | [], cs => cs.isEmpty
  | '%' :: pattern, cs => (rests cs).any fun rest => fits pattern rest
  | p :: pattern, cs =>
    match cs with
    | [] => false
    | c :: cs => (p == '_' || sameLetter p c) && fits pattern cs

theorem mem_rests_iff (rest cs : List Char) : rest ∈ rests cs ↔ rest <:+ cs := by
  induction cs with
  | nil => simp [rests]
  | cons c cs ih => simp [rests, ih, List.suffix_cons_iff]

theorem fits_percent_iff (pattern cs : List Char) :
    fits ('%' :: pattern) cs = true ↔ ∃ rest, rest <:+ cs ∧ fits pattern rest = true := by
  simp [fits, mem_rests_iff]

/-- A pattern without signs stands for its own text, with ASCII letters in either case. -/
theorem fits_iff_of_plain (pattern cs : List Char) (h : ∀ c ∈ pattern, c ≠ '%' ∧ c ≠ '_') :
    fits pattern cs = true ↔ pattern.map Char.toLower = cs.map Char.toLower := by
  induction pattern generalizing cs with
  | nil => cases cs <;> simp [fits]
  | cons p pattern ih =>
    have hp := h p (by simp)
    have ih := fun cs => ih cs fun c hc => h c (by simp [hc])
    cases cs with
    | nil => simp [fits.eq_3 _ _ hp.1]
    | cons c cs => simp [fits.eq_4 _ _ _ _ hp.1, hp.2, sameLetter, ih]

end RecordApi.Table.Pattern
