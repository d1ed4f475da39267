import Mathlib.Data.List.Basic
import Mathlib.Tactic.MkIffOfInductiveProp
import RecordApi.Naming
import RecordApi.Proofs.Language.Spelling

/-!
# The two spellings of a name

A name in snake case has a camel case spelling, from which the snake case spelling is made again. It
is the one from before just if the words can still be told apart: a word is only seen to begin at a
capital that has a small letter next to it or a digit before it. So the words after the first must
begin with letters, and a word of one letter hides the beginning of the next one unless a small
letter comes second there.
-/

namespace RecordApi.Naming

open RecordApi.Language (char_le_iff)

/-! ## Characters of names -/

theorem bounds_of_isWordChar {c : Char} (h : isWordChar c) : c.toNat < 128 := by
  simp only [isWordChar, isCapital, isSmall, isDigit, Bool.or_eq_true, Bool.and_eq_true,
    decide_eq_true_eq, char_le_iff] at h
  simp at h
  omega

/-- A character that names are made of. -/
def isNameChar (c : Char) : Bool :=
  isWordChar c || c == '_'

/-- A small letter or a digit. -/
def isPlain (c : Char) : Bool :=
  isSmall c || isDigit c

theorem isNameChar_of_isWordChar {c : Char} (h : isWordChar c) : isNameChar c := by
  simp [isNameChar, h]

theorem isNameChar_of_isPlain {c : Char} (h : isPlain c) : isNameChar c := by
  rcases Bool.or_eq_true_iff.mp h with h | h <;> simp [isNameChar, isWordChar, h]

/-- The case forms of a character are single characters of the same kind, and only small letters and
digits stand for themselves. -/
@[mk_iff]
structure HasForms (c : Char) : Prop where
  ne_sigma : c ≠ 'Σ'
  ne_feed : c ≠ '\n'
  lower : Text.lowerForm c = [c.toLower]
  title : Text.titleForm c = [c.toUpper]
  word : isWordChar c → isWordChar c.toLower ∧ isWordChar c.toUpper
  plain : isPlain c.toLower ∨ c.toLower = '_'
  lowered : isPlain c → c.toLower = c ∧ isCapital c = false ∧ c ≠ '_'
  raised : isPlain c → c.toUpper.toLower = c ∧ isCapital c.toUpper = isSmall c ∧
    isSmall c.toUpper = false ∧ isPlain c.toUpper = isDigit c

instance (c : Char) : Decidable (HasForms c) :=
  decidable_of_iff' _ (hasForms_iff c)

theorem hasForms_of_isNameChar {c : Char} (h : isNameChar c) : HasForms c := by
  have hbound : c.toNat < 128 := by
    rcases Bool.or_eq_true_iff.mp h with hword | hunderscore
    · exact bounds_of_isWordChar hword
    · rw [beq_iff_eq.mp hunderscore]
      decide
  have hall : ∀ code < 128, isNameChar (Char.ofNat code) → HasForms (Char.ofNat code) := by
    decide +kernel
  have hcode := hall c.toNat hbound
  rw [Char.ofNat_toNat] at hcode
  exact hcode h

theorem forms_of_isWordChar {c : Char} (h : isWordChar c) :
    isWordChar c.toLower ∧ isWordChar c.toUpper :=
  (hasForms_of_isNameChar (isNameChar_of_isWordChar h)).word h

theorem lowered_of_isPlain {c : Char} (h : isPlain c) :
    c.toLower = c ∧ isCapital c = false ∧ c ≠ '_' :=
  (hasForms_of_isNameChar (isNameChar_of_isPlain h)).lowered h

theorem raised_of_isPlain {c : Char} (h : isPlain c) :
    c.toUpper.toLower = c ∧ isCapital c.toUpper = isSmall c ∧ isSmall c.toUpper = false ∧
      isPlain c.toUpper = isDigit c :=
  (hasForms_of_isNameChar (isNameChar_of_isPlain h)).raised h

theorem isCapital_of_isSmall {c : Char} (h : isSmall c) : isCapital c = false :=
  (lowered_of_isPlain (by simp [isPlain, h])).2.1

theorem not_isDigit_of_isSmall {c : Char} (h : isSmall c) : isDigit c = false := by
  simp only [isSmall, isDigit, Bool.and_eq_true, decide_eq_true_eq, char_le_iff] at h ⊢
  simp at h ⊢
  omega

theorem lowerAfter_eq {cs : List Char} (h : ∀ c ∈ cs, isNameChar c) (before : List Char) :
    Text.lowerAfter before cs = cs.map Char.toLower := by
  induction cs generalizing before with
  | nil => rfl
  | cons c cs ih =>
      have hforms := hasForms_of_isNameChar (h c List.mem_cons_self)
      rw [Text.lowerAfter, if_neg hforms.ne_sigma, hforms.lower,
        ih fun d hd => h d (List.mem_cons_of_mem c hd)]
      rfl

theorem map_toLower_eq {word : List Char} (h : ∀ c ∈ word, isPlain c) :
    word.map Char.toLower = word :=
  (List.map_congr_left fun c hc => (lowered_of_isPlain (h c hc)).1).trans (List.map_id word)

theorem capitalize_eq {word : List Char} (h : ∀ c ∈ word, isPlain c) :
    Text.capitalize word = raiseFirst word := by
  cases word with
  | nil => rfl
  | cons c cs =>
      have hforms := hasForms_of_isNameChar (isNameChar_of_isPlain (h c List.mem_cons_self))
      have hcs : ∀ d ∈ cs, isPlain d := fun d hd => h d (List.mem_cons_of_mem c hd)
      rw [Text.capitalize, hforms.title, lowerAfter_eq fun d hd => isNameChar_of_isPlain (hcs d hd),
        map_toLower_eq hcs]
      rfl

/-! ## Where words begin -/

/-- Whether a word is seen to begin at a character of a camel case name: at a capital behind a small
letter or a digit, or before a small letter. -/
def beginsWord (before c : Char) (behind : List Char) : Bool :=
  isCapital c && (isPlain before || behind.head?.any isSmall)

/-- The text behind a character, with an underscore before every word that is seen to begin. -/
def marked : Char → List Char → List Char
  | _, [] => []
  | before, c :: cs => (if beginsWord before c cs then ['_'] else []) ++ c :: marked c cs

theorem markHumps_cons_cons (c d : Char) (ds : List Char) :
    markHumps (c :: d :: ds) =
      c :: ((if isPlain c && isCapital d then ['_'] else []) ++ markHumps (d :: ds)) := by
  rw [markHumps, isPlain]
  split
  · rfl
  · rfl

theorem markHumps_underscore (c : Char) (cs : List Char) :
    markHumps (c :: '_' :: cs) = c :: '_' :: markHumps cs := by
  have hcapital : isCapital '_' = false := by decide
  have hplain : isPlain '_' = false := by decide
  rw [markHumps_cons_cons, hcapital, Bool.and_false]
  cases cs with
  | nil => rfl
  | cons d ds =>
      rw [markHumps_cons_cons, hplain, Bool.false_and]
      rfl

/-- A text that goes on with a character still has it in front when words are marked. -/
theorem markWords_cons (covered : Nat) (c : Char) (cs : List Char) :
    ∃ rest, markWords covered (c :: cs) = c :: rest := by
  cases covered with
  | succ covered => exact ⟨_, rfl⟩
  | zero =>
      unfold markWords
      split
      · split
        · exact ⟨_, rfl⟩
        · exact ⟨_, rfl⟩
      · exact ⟨_, rfl⟩

/-- A word that is found is set off from the character before it, and its small letters are passed
over. -/
theorem markWords_found {c d e : Char} (hc : c ≠ '\n') (hd : isCapital d) (he : isSmall e)
    (es : List Char) :
    markWords 0 (c :: d :: e :: es) =
      c :: '_' :: markWords ((e :: es).takeWhile isSmall).length.succ (d :: e :: es) := by
  simp [markWords, hc, hd, he]

theorem markWords_unfound {c d : Char} {ds : List Char}
    (h : ¬ (isCapital d ∧ ds.head?.any isSmall)) :
    markWords 0 (c :: d :: ds) = c :: markWords 0 (d :: ds) := by
  cases ds with
  | nil => rfl
  | cons e es =>
      have hno : (c != '\n' && isCapital d && isSmall e) = false := by
        have hletters : ¬ (isCapital d ∧ isSmall e) := h
        rw [Bool.and_assoc, Bool.and_eq_false_iff]
        exact .inr (by simpa using hletters)
      rw [markWords, hno]
      rfl

/-- The two passes set an underscore before every word that is seen to begin, and no other. The
first pass passes over the characters of the word found last: these are small letters, so the only
word that can begin behind them is left to the second pass. -/
theorem markHumps_markWords {c : Char} {cs : List Char} {covered : Nat}
    (hplain : ∀ d ∈ c :: cs, d ≠ '\n') (hlast : covered = 1 → isSmall c)
    (hcovered : ∀ d ∈ cs.take (covered - 1), isSmall d) :
    markHumps (markWords covered (c :: cs)) = c :: marked c cs := by
  induction cs generalizing c covered with
  | nil => cases covered <;> rfl
  | cons d ds ih =>
      have hrest : ∀ e ∈ d :: ds, e ≠ '\n' := fun e he => hplain e (List.mem_cons_of_mem c he)
      -- the second pass decides where the first one sets nothing
      have hpass {left : Nat} (hd : left = 1 → isSmall d)
          (hds : ∀ e ∈ ds.take (left - 1), isSmall e)
          (hword : beginsWord c d ds = (isPlain c && isCapital d)) :
          markHumps (c :: markWords left (d :: ds)) = c :: marked c (d :: ds) := by
        obtain ⟨rest, hmarked⟩ := markWords_cons left d ds
        rw [hmarked, markHumps_cons_cons, ← hmarked, ih hrest hd hds, marked, hword]
      cases covered with
      | succ left =>
          refine hpass (fun hleft => hcovered d (by simp [hleft])) (fun e he => ?_) ?_
          · cases left with
            | zero => simp at he
            | succ left => exact hcovered e (List.mem_cons_of_mem d he)
          · cases left with
            | zero => simp [beginsWord, isPlain, hlast rfl]
            | succ left =>
                have hcapital := isCapital_of_isSmall (hcovered d (by simp))
                simp [beginsWord, hcapital]
      | zero =>
          by_cases hword : isCapital d ∧ ds.head?.any isSmall
          · obtain ⟨hd, hsmall⟩ := hword
            have hne : ds ≠ [] := by
              rintro rfl
              cases hsmall
            obtain ⟨e, es, rfl⟩ := List.exists_cons_of_ne_nil hne
            have he : isSmall e := hsmall
            have hmarked : marked c (d :: e :: es) = '_' :: d :: marked d (e :: es) := by
              simp [marked, beginsWord, hd, he]
            have hrun : (e :: es).takeWhile isSmall = (e :: es).take _ :=
              List.prefix_iff_eq_take.mp (List.takeWhile_prefix isSmall)
            rw [markWords_found (hplain c List.mem_cons_self) hd he, markHumps_underscore, hmarked,
              ih hrest]
            · simp [he]
            · intro x hx
              rw [Nat.succ_sub_one, ← hrun] at hx
              exact List.all_eq_true.mp List.all_takeWhile x hx
          · rw [markWords_unfound hword]
            refine hpass (by simp) (by simp) ?_
            cases hd : isCapital d <;> simp_all [beginsWord]

theorem mem_marked {before d : Char} {cs : List Char} (h : d ∈ marked before cs) :
    d = '_' ∨ d ∈ cs := by
  induction cs generalizing before with
  | nil => cases h
  | cons c cs ih =>
      rw [marked, List.mem_append, List.mem_cons] at h
      rcases h with h | rfl | h
      · split at h
        · exact .inl (List.mem_singleton.mp h)
        · cases h
      · exact .inr List.mem_cons_self
      · exact (ih h).imp_right (List.mem_cons_of_mem c)

theorem isNameChar_marked {c : Char} {cs : List Char} (h : ∀ d ∈ c :: cs, isNameChar d) :
    ∀ d ∈ c :: marked c cs, isNameChar d := by
  intro d hd
  rcases List.mem_cons.mp hd with rfl | hd
  · exact h d List.mem_cons_self
  · rcases mem_marked hd with rfl | hd
    · decide
    · exact h d (List.mem_cons_of_mem c hd)

/-- The snake case form of a name. -/
theorem camelToSnakeChars_eq {c : Char} {cs : List Char} (h : ∀ d ∈ c :: cs, isNameChar d) :
    camelToSnakeChars (c :: cs) = (c :: marked c cs).map Char.toLower := by
  have hmarks : markHumps (markWords 0 (c :: cs)) = c :: marked c cs :=
    markHumps_markWords (fun d hd => (hasForms_of_isNameChar (h d hd)).ne_feed) (by simp) (by simp)
  rw [camelToSnakeChars, hmarks, Text.lower]
  exact lowerAfter_eq (isNameChar_marked h) []

/-- Nothing but small letters, digits and underscores stands in a snake case form. -/
theorem isPlain_camelToSnakeChars {name : List Char} (h : ∀ c ∈ name, isNameChar c) :
    ∀ c ∈ camelToSnakeChars name, isPlain c ∨ c = '_' := by
  cases name with
  | nil => simp [camelToSnakeChars, markWords, markHumps, Text.lower, Text.lowerAfter]
  | cons c cs =>
      intro d hd
      rw [camelToSnakeChars_eq h] at hd
      obtain ⟨e, he, rfl⟩ := List.mem_map.mp hd
      exact (hasForms_of_isNameChar (isNameChar_marked h e he)).plain

/-! ## Pieces -/

theorem subset_of_mem_cut (sep : Char → Bool) (cs : List Char) :
    ∀ piece ∈ (cut sep cs).1 :: (cut sep cs).2, piece ⊆ cs := by
  induction cs with
  | nil => simp [cut]
  | cons c cs ih =>
      have hkept : ∀ piece ∈ (cut sep cs).1 :: (cut sep cs).2, piece ⊆ c :: cs :=
        fun piece hpiece => List.subset_cons_of_subset c (ih piece hpiece)
      obtain ⟨hfirst, hlater⟩ := List.forall_mem_cons.mp hkept
      intro piece hpiece
      by_cases hsep : sep c
      · simp only [cut, hsep, if_true] at hpiece
        rcases List.mem_cons.mp hpiece with rfl | hpiece
        · exact List.nil_subset _
        · split at hpiece
          · exact hlater piece hpiece
          · exact hkept piece hpiece
      · simp only [cut, hsep] at hpiece
        rcases List.mem_cons.mp hpiece with rfl | hpiece
        · exact List.cons_subset_cons c (ih _ List.mem_cons_self)
        · exact hlater piece hpiece

theorem subset_of_mem_pieces {sep : Char → Bool} {cs piece : List Char}
    (h : piece ∈ pieces sep cs) : piece ⊆ cs := by
  refine subset_of_mem_cut sep cs piece ?_
  simp only [pieces] at h
  split at h
  · exact List.mem_cons_of_mem _ h
  · exact h

/-- A text has at most one piece more than separators. -/
theorem length_pieces_le (sep : Char → Bool) (cs : List Char) :
    (pieces sep cs).length ≤ cs.countP sep + 1 := by
  have hcut : (cut sep cs).2.length ≤ cs.countP sep := by
    induction cs with
    | nil => simp [cut]
    | cons c cs ih =>
        by_cases hsep : sep c
        · rw [List.countP_cons_of_pos hsep]
          simp only [cut, hsep, if_true]
          split
          · omega
          · rw [List.length_cons]
            omega
        · rw [List.countP_cons_of_neg hsep]
          simpa [cut, hsep] using ih
  simp only [pieces]
  split
  · exact Nat.le_succ_of_le hcut
  · exact Nat.succ_le_succ hcut

theorem cut_append {sep : Char → Bool} {word : List Char} (h : ∀ c ∈ word, sep c = false)
    (rest : List Char) : cut sep (word ++ rest) = (word ++ (cut sep rest).1, (cut sep rest).2) := by
  induction word with
  | nil => rfl
  | cons c cs ih =>
      have hcs := ih fun d hd => h d (List.mem_cons_of_mem c hd)
      simp [cut, hcs, h c List.mem_cons_self]

theorem cut_separated {sep : Char → Bool} {mark : Char} (hmark : sep mark)
    {words : List (List Char)} (h : ∀ word ∈ words, word ≠ [] ∧ ∀ c ∈ word, sep c = false) :
    cut sep (words.flatMap (mark :: ·)) = ([], words) := by
  induction words with
  | nil => rfl
  | cons word words ih =>
      obtain ⟨hne, hword⟩ := h word List.mem_cons_self
      rw [List.flatMap_cons, List.cons_append, cut, cut_append hword,
        ih fun other hother => h other (List.mem_cons_of_mem word hother)]
      simp [hmark, hne]

/-- Words that are set one behind the other with separators between them are the pieces. -/
theorem pieces_separated {sep : Char → Bool} {mark : Char} (hmark : sep mark) {first : List Char}
    {later : List (List Char)}
    (h : ∀ word ∈ first :: later, word ≠ [] ∧ ∀ c ∈ word, sep c = false) :
    pieces sep (first ++ later.flatMap (mark :: ·)) = first :: later := by
  obtain ⟨hne, hfirst⟩ := h first List.mem_cons_self
  rw [pieces, cut_append hfirst,
    cut_separated hmark fun word hword => h word (List.mem_cons_of_mem first hword)]
  simp [hne]

/-! ## Words -/

/-- A word of a snake case name. -/
def IsWord (word : List Char) : Prop :=
  word ≠ [] ∧ ∀ c ∈ word, isPlain c

instance (word : List Char) : Decidable (IsWord word) :=
  decidable_of_iff (word ≠ [] ∧ word.all isPlain) (by rw [IsWord, List.all_eq_true])

/-- The last character of a word with its first letter raised. -/
def raisedEnd (word : List Char) : Char :=
  (raiseFirst word).getLastD '_'

/-- Whether a word is seen to begin behind a character when its first letter is raised. -/
def standsOut (before : Char) : List Char → Bool
  | [] => false
  | c :: cs => isSmall c && (isPlain before || cs.head?.any isSmall)

/-- The words that are read back from camel case behind a character, with an underscore before each
that stands out. -/
def respelled : Char → List (List Char) → List Char
  | _, [] => []
  | before, word :: words =>
    (if standsOut before word then ['_'] else []) ++ word ++ respelled (raisedEnd word) words

/-- Whether all words stand out in camel case behind a character. -/
def AllStandOut : Char → List (List Char) → Prop
  | _, [] => True
  | before, word :: words => standsOut before word ∧ AllStandOut (raisedEnd word) words

/-- Characters that are no capitals begin no words. -/
theorem marked_append {word : List Char} (h : ∀ c ∈ word, isPlain c) (before : Char)
    (rest : List Char) :
    marked before (word ++ rest) = word ++ marked (word.getLastD before) rest := by
  induction word generalizing before with
  | nil => rfl
  | cons c cs ih =>
      have hcapital := (lowered_of_isPlain (h c List.mem_cons_self)).2.1
      rw [List.cons_append, marked, ih fun d hd => h d (List.mem_cons_of_mem c hd),
        List.getLastD_cons]
      simp [beginsWord, hcapital]

/-- Raised words start with no small letter. -/
theorem head?_raised {words : List (List Char)} (h : ∀ word ∈ words, IsWord word) :
    (words.flatMap raiseFirst).head?.any isSmall = false := by
  cases words with
  | nil => rfl
  | cons word words =>
      obtain ⟨hne, hplain⟩ := h word List.mem_cons_self
      obtain ⟨c, cs, rfl⟩ := List.exists_cons_of_ne_nil hne
      exact (raised_of_isPlain (hplain c List.mem_cons_self)).2.2.1

/-- Of the words of a camel case name those are found again that stand out. -/
theorem lower_marked {words : List (List Char)} (h : ∀ word ∈ words, IsWord word) (before : Char) :
    (marked before (words.flatMap raiseFirst)).map Char.toLower = respelled before words := by
  induction words generalizing before with
  | nil => rfl
  | cons word words ih =>
      have hwords : ∀ other ∈ words, IsWord other :=
        fun other hother => h other (List.mem_cons_of_mem word hother)
      obtain ⟨hne, hplain⟩ := h word List.mem_cons_self
      obtain ⟨c, cs, rfl⟩ := List.exists_cons_of_ne_nil hne
      have hcs : ∀ d ∈ cs, isPlain d := fun d hd => hplain d (List.mem_cons_of_mem c hd)
      obtain ⟨hlower, hcapital, -, -⟩ := raised_of_isPlain (hplain c List.mem_cons_self)
      have hbegins : beginsWord before c.toUpper (cs ++ words.flatMap raiseFirst) =
          standsOut before (c :: cs) := by
        rw [beginsWord, hcapital, standsOut]
        cases cs with
        | nil => rw [List.nil_append, head?_raised hwords]; rfl
        | cons d ds => rfl
      have hend : cs.getLastD c.toUpper = raisedEnd (c :: cs) := by
        rw [raisedEnd, raiseFirst, List.getLastD_cons]
      rw [List.flatMap_cons, raiseFirst, List.cons_append, marked, hbegins, marked_append hcs, hend,
        respelled, List.map_append, List.map_cons, hlower, List.map_append, map_toLower_eq hcs,
        ih hwords]
      split
      · rfl
      · rfl

/-! ## Names that are read back -/

/-- Whether the beginning of a word can be told behind another one, by a second letter of either. -/
def ToldApart (word next : List Char) : Prop :=
  2 ≤ word.length ∨ next.tail.head?.any isSmall

/-- A name of words with single underscores between them, of which all after the first begin with a
letter and can be told apart. -/
def Retraced (name : List Char) : Prop :=
  ∃ first later, name = first ++ later.flatMap ('_' :: ·) ∧
    (∀ word ∈ first :: later, IsWord word) ∧
    (∀ word ∈ later, word.head?.any isSmall) ∧ later.IsChain ToldApart

theorem IsWord.separated {word : List Char} (h : IsWord word) :
    word ≠ [] ∧ ∀ c ∈ word, (c == '_') = false :=
  ⟨h.1, fun c hc => beq_false_of_ne (lowered_of_isPlain (h.2 c hc)).2.2⟩

theorem IsWord.count_eq_zero {word : List Char} (h : IsWord word) : word.count '_' = 0 :=
  List.count_eq_zero.mpr fun hmem => (lowered_of_isPlain (h.2 _ hmem)).2.2 rfl

theorem isWord_of_mem_pieces {name piece : List Char} (h : ∀ c ∈ name, isPlain c ∨ c = '_')
    (hpiece : piece ∈ pieces (· == '_') name) : IsWord piece := by
  obtain ⟨hne, hsep⟩ := pieces_plain _ _ piece hpiece
  refine ⟨hne, fun c hc => (h c (subset_of_mem_pieces hpiece hc)).resolve_right ?_⟩
  simpa using hsep c hc

/-- A word has a plain last character in camel case unless it is one letter. -/
theorem isPlain_raisedEnd {word : List Char} (h : IsWord word) (hhead : word.head?.any isSmall) :
    isPlain (raisedEnd word) ↔ 2 ≤ word.length := by
  obtain ⟨hne, hplain⟩ := h
  obtain ⟨c, cs, rfl⟩ := List.exists_cons_of_ne_nil hne
  cases cs with
  | nil =>
      have hdigit : isPlain c.toUpper = isDigit c :=
        (raised_of_isPlain (hplain c List.mem_cons_self)).2.2.2
      have hend : raisedEnd [c] = c.toUpper := rfl
      rw [hend, hdigit, not_isDigit_of_isSmall hhead]
      simp
  | cons d ds =>
      have hend : raisedEnd (c :: d :: ds) = ds.getLastD d := by
        simp only [raisedEnd, raiseFirst, List.getLastD_cons]
      have hmem : ds.getLastD d ∈ d :: ds := List.getLastD_mem_cons
      rw [hend, hplain _ (List.mem_cons_of_mem c hmem)]
      simp

theorem standsOut_iff {before : Char} {word : List Char} :
    standsOut before word ↔
      word.head?.any isSmall ∧ (isPlain before ∨ word.tail.head?.any isSmall) := by
  cases word with
  | nil => simp [standsOut]
  | cons c cs => simp [standsOut]

/-- Words stand out behind another one just if they begin with letters and can be told apart. -/
theorem allStandOut_behind {word : List Char} {words : List (List Char)}
    (h : ∀ other ∈ word :: words, IsWord other) (hhead : word.head?.any isSmall) :
    AllStandOut (raisedEnd word) words ↔
      (∀ other ∈ words, other.head?.any isSmall) ∧ (word :: words).IsChain ToldApart := by
  induction words generalizing word with
  | nil => simp [AllStandOut]
  | cons next words ih =>
      have hwords : ∀ other ∈ next :: words, IsWord other :=
        fun other hother => h other (List.mem_cons_of_mem word hother)
      have hend := isPlain_raisedEnd (h word List.mem_cons_self) hhead
      rw [AllStandOut, standsOut_iff, hend, List.forall_mem_cons, List.isChain_cons_cons]
      constructor
      · rintro ⟨⟨hnext, htold⟩, hall⟩
        obtain ⟨hheads, hchain⟩ := (ih hwords hnext).mp hall
        exact ⟨⟨hnext, hheads⟩, htold, hchain⟩
      · rintro ⟨⟨hnext, hheads⟩, htold, hchain⟩
        exact ⟨⟨hnext, htold⟩, (ih hwords hnext).mpr ⟨hheads, hchain⟩⟩

theorem allStandOut_iff {before : Char} (hbefore : isPlain before) {words : List (List Char)}
    (h : ∀ word ∈ words, IsWord word) :
    AllStandOut before words ↔
      (∀ word ∈ words, word.head?.any isSmall) ∧ words.IsChain ToldApart := by
  cases words with
  | nil => simp [AllStandOut]
  | cons word words =>
      rw [AllStandOut, standsOut_iff, List.forall_mem_cons]
      constructor
      · rintro ⟨⟨hhead, -⟩, hall⟩
        obtain ⟨hheads, hchain⟩ := (allStandOut_behind h hhead).mp hall
        exact ⟨⟨hhead, hheads⟩, hchain⟩
      · rintro ⟨⟨hhead, hheads⟩, hchain⟩
        exact ⟨⟨hhead, .inl hbefore⟩, (allStandOut_behind h hhead).mpr ⟨hheads, hchain⟩⟩

/-- Where all words stand out they are read back with an underscore before each. -/
theorem respelled_of_allStandOut {before : Char} {words : List (List Char)}
    (h : AllStandOut before words) : respelled before words = words.flatMap ('_' :: ·) := by
  induction words generalizing before with
  | nil => rfl
  | cons word words ih =>
      rw [respelled, if_pos h.1, ih h.2]
      rfl

/-- There are no more underscores than words that stand out. -/
theorem count_respelled {words : List (List Char)} (h : ∀ word ∈ words, IsWord word)
    (before : Char) :
    (respelled before words).count '_' ≤ words.length ∧
      (words.length ≤ (respelled before words).count '_' → AllStandOut before words) := by
  induction words generalizing before with
  | nil => exact ⟨Nat.le_refl 0, fun _ => trivial⟩
  | cons word words ih =>
      have hword := (h word List.mem_cons_self).count_eq_zero
      obtain ⟨hle, hall⟩ := ih (fun other hother => h other (List.mem_cons_of_mem word hother))
        (raisedEnd word)
      rw [respelled, AllStandOut, List.count_append, List.count_append, hword, List.length_cons]
      by_cases hstands : standsOut before word
      · rw [if_pos hstands, List.count_singleton_self]
        exact ⟨by omega, fun h => ⟨hstands, hall (by omega)⟩⟩
      · rw [if_neg hstands, List.count_nil]
        exact ⟨by omega, fun h => by omega⟩

/-- If as many words come back as there were, all stand out: no piece is without an underscore
before it but the first. -/
theorem allStandOut_of_pieces {name first : List Char} {later : List (List Char)} {before : Char}
    (h : ∀ word ∈ first :: later, IsWord word) (hname : name = first ++ respelled before later)
    (hpieces : pieces (· == '_') name = first :: later) : AllStandOut before later := by
  obtain ⟨hfirst, hlater⟩ := List.forall_mem_cons.mp h
  refine (count_respelled hlater before).2 ?_
  have hcount : name.count '_' = (respelled before later).count '_' := by
    rw [hname, List.count_append, hfirst.count_eq_zero, Nat.zero_add]
  calc later.length
      = (pieces (· == '_') name).length - 1 := by rw [hpieces, List.length_cons, Nat.succ_sub_one]
    _ ≤ name.count '_' := Nat.sub_le_of_le_add (length_pieces_le _ name)
    _ = (respelled before later).count '_' := hcount

/-- The camel case form of words, with the first as it is and the others raised. -/
theorem snakeToCamelChars_eq {name first : List Char} {later : List (List Char)}
    (hsnake : '_' ∈ name) (hpieces : pieces (· == '_') name = first :: later)
    (h : ∀ word ∈ first :: later, IsWord word) :
    snakeToCamelChars false name = first ++ later.flatMap raiseFirst := by
  obtain ⟨hfirst, hlater⟩ := List.forall_mem_cons.mp h
  have hraised : later.map Text.capitalize = later.map raiseFirst :=
    List.map_congr_left fun word hword => capitalize_eq (hlater word hword).2
  have hlower : Text.lower first = first := by
    rw [Text.lower, lowerAfter_eq fun c hc => isNameChar_of_isPlain (hfirst.2 c hc),
      map_toLower_eq hfirst.2]
  rw [snakeToCamelChars, if_pos (List.contains_iff_mem.mpr hsnake), hpieces]
  simp only [Bool.false_eq_true, if_false, hlower, hraised, List.flatMap_def]

/-- No underscore is left in the camel case form of a snake case name. -/
theorem isWordChar_snakeToCamelChars {name : List Char} (h : ∀ c ∈ name, isNameChar c)
    (hsnake : '_' ∈ name) : ∀ c ∈ snakeToCamelChars false name, isWordChar c := by
  have hpiece {piece : List Char} (hmem : piece ∈ pieces (· == '_') name) :
      ∀ c ∈ piece, isWordChar c := by
    intro c hc
    have hsep : (c == '_') = false := (pieces_plain _ _ piece hmem).2 c hc
    simpa [isNameChar, hsep] using h c (subset_of_mem_pieces hmem hc)
  have hlower {word : List Char} (hword : ∀ c ∈ word, isWordChar c) :
      ∀ c ∈ word.map Char.toLower, isWordChar c := by
    intro c hc
    obtain ⟨d, hd, rfl⟩ := List.mem_map.mp hc
    exact (forms_of_isWordChar (hword d hd)).1
  rw [snakeToCamelChars, if_pos (List.contains_iff_mem.mpr hsnake)]
  cases hpieces : pieces (· == '_') name with
  | nil => simp
  | cons first later =>
      have hfirst := hpiece (hpieces ▸ List.mem_cons_self)
      intro c hc
      rcases List.mem_append.mp hc with hc | hc
      · have hlowered : Text.lower first = first.map Char.toLower :=
          lowerAfter_eq (fun d hd => isNameChar_of_isWordChar (hfirst d hd)) []
        exact hlower hfirst c (hlowered ▸ hc)
      · obtain ⟨raised, hraised, hc⟩ := List.mem_flatten.mp hc
        obtain ⟨word, hword, rfl⟩ := List.mem_map.mp hraised
        have hchars := hpiece (hpieces ▸ List.mem_cons_of_mem first hword)
        cases word with
        | nil => cases hc
        | cons d ds =>
            obtain ⟨hd, hds⟩ := List.forall_mem_cons.mp hchars
            have hlowered : Text.lowerAfter [d] ds = ds.map Char.toLower :=
              lowerAfter_eq (fun e he => isNameChar_of_isWordChar (hds e he)) [d]
            rw [Text.capitalize, (hasForms_of_isNameChar (isNameChar_of_isWordChar hd)).title,
              hlowered, List.singleton_append, List.mem_cons] at hc
            rcases hc with rfl | hc
            · exact (forms_of_isWordChar hd).2
            · exact hlower hds c hc

theorem snakeToCamel_eq_self {name : String} (h : '_' ∉ name.toList) :
    snakeToCamel name false = name := by
  rw [snakeToCamel, snakeToCamelChars, if_neg (by simpa using h)]
  exact String.ofList_toList

theorem snakeToCamel_ne {name : String} (h : ∀ c ∈ name.toList, isNameChar c)
    (hsnake : '_' ∈ name.toList) : snakeToCamel name false ≠ name := by
  intro hsame
  have hmem : '_' ∈ (snakeToCamel name false).toList := by
    rw [hsame]
    exact hsnake
  rw [snakeToCamel, String.toList_ofList] at hmem
  have hword : isWordChar '_' := isWordChar_snakeToCamelChars h hsnake _ hmem
  exact absurd hword (by decide)

/-- The words of a snake case name that are read back from its camel case form. -/
theorem camelToSnakeChars_snakeToCamelChars {name first : List Char} {later : List (List Char)}
    (hchars : ∀ c ∈ name, isNameChar c) (hsnake : '_' ∈ name)
    (hpieces : pieces (· == '_') name = first :: later)
    (h : ∀ word ∈ first :: later, IsWord word) :
    ∃ before, isPlain before ∧
      camelToSnakeChars (snakeToCamelChars false name) = first ++ respelled before later := by
  obtain ⟨⟨hne, hfirst⟩, hlater⟩ := List.forall_mem_cons.mp h
  obtain ⟨c, cs, rfl⟩ := List.exists_cons_of_ne_nil hne
  have hcamel : snakeToCamelChars false name = c :: (cs ++ later.flatMap raiseFirst) :=
    snakeToCamelChars_eq hsnake hpieces h
  have hcamelChars : ∀ d ∈ c :: (cs ++ later.flatMap raiseFirst), isNameChar d :=
    fun d hd => isNameChar_of_isWordChar
      (isWordChar_snakeToCamelChars hchars hsnake d (hcamel ▸ hd))
  refine ⟨cs.getLastD c, hfirst _ List.getLastD_mem_cons, ?_⟩
  rw [hcamel, camelToSnakeChars_eq hcamelChars,
    marked_append fun d hd => hfirst d (List.mem_cons_of_mem c hd), List.map_cons, List.map_append,
    lower_marked hlater, ← List.cons_append, ← List.map_cons, map_toLower_eq hfirst]

/-- A name with underscores is read back from its camel case form just if its words can be told
apart there. -/
theorem camelToSnake_snakeToCamel_iff {name : String} (hchars : ∀ c ∈ name.toList, isNameChar c)
    (hsnake : '_' ∈ name.toList) :
    camelToSnake (snakeToCamel name false) = name ↔ Retraced name.toList := by
  have hspelled : camelToSnake (snakeToCamel name false) = name ↔
      camelToSnakeChars (snakeToCamelChars false name.toList) = name.toList := by
    rw [camelToSnake, snakeToCamel, String.toList_ofList, ← String.toList_inj,
      String.toList_ofList]
  rw [hspelled]
  constructor
  · intro hback
    have hplain : ∀ c ∈ name.toList, isPlain c ∨ c = '_' :=
      hback ▸ isPlain_camelToSnakeChars fun c hc =>
        isNameChar_of_isWordChar (isWordChar_snakeToCamelChars hchars hsnake c hc)
    have hwords : ∀ word ∈ pieces (· == '_') name.toList, IsWord word :=
      fun word hword => isWord_of_mem_pieces hplain hword
    cases hpieces : pieces (· == '_') name.toList with
    | nil =>
        have hcamel : snakeToCamelChars false name.toList = [] := by
          rw [snakeToCamelChars, if_pos (List.contains_iff_mem.mpr hsnake), hpieces]
        rw [← hback, hcamel] at hsnake
        cases hsnake
    | cons first later =>
        rw [hpieces] at hwords
        obtain ⟨before, hbefore, hspelled⟩ :=
          camelToSnakeChars_snakeToCamelChars hchars hsnake hpieces hwords
        have hname : name.toList = first ++ respelled before later := hback.symm.trans hspelled
        have hall := allStandOut_of_pieces hwords hname hpieces
        obtain ⟨hheads, hchain⟩ :=
          (allStandOut_iff hbefore (List.forall_mem_cons.mp hwords).2).mp hall
        refine ⟨first, later, ?_, hwords, hheads, hchain⟩
        rw [hname, respelled_of_allStandOut hall]
  · rintro ⟨first, later, hname, hwords, hheads, hchain⟩
    have hpieces : pieces (· == '_') name.toList = first :: later := by
      rw [hname]
      exact pieces_separated (by decide) fun word hword => (hwords word hword).separated
    obtain ⟨before, hbefore, hback⟩ :=
      camelToSnakeChars_snakeToCamelChars hchars hsnake hpieces hwords
    have hlater := (List.forall_mem_cons.mp hwords).2
    rw [hback, respelled_of_allStandOut ((allStandOut_iff hbefore hlater).mpr ⟨hheads, hchain⟩),
      hname]

/-- A word of one letter hides where the next one begins. -/
example : camelToSnake (snakeToCamel "a_b_c" false) = "a_bc" := by
  decide +kernel

end RecordApi.Naming
