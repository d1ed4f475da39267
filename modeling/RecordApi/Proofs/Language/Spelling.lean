import RecordApi.Language.Printer
import RecordApi.Proofs.Outcomes

/-!
# Spelling lexemes

A text of names, marks and strings with blanks between them is cut into just those lexemes. Setting
in its lines changes blanks only, so the same lexemes are found at any depth.
-/

namespace RecordApi.Language

/-! ## Characters -/

theorem char_le_iff {a b : Char} : a ≤ b ↔ a.toNat ≤ b.toNat := by
  rw [Char.le_def, UInt32.le_iff_toNat_le]
  rfl

/-- A character that a string holds as it is or behind a backslash. -/
def isPrinted (c : Char) : Bool :=
  ' ' ≤ c && c ≤ '~'

theorem bounds_of_isNameStart {c : Char} (h : isNameStart c) :
    65 ≤ c.toNat ∧ c.toNat ≤ 122 := by
  simp only [isNameStart, Bool.or_eq_true, Bool.and_eq_true, decide_eq_true_eq, char_le_iff,
    beq_iff_eq] at h
  rcases h with (⟨h₁, h₂⟩ | ⟨h₁, h₂⟩) | rfl
  · simp at h₁ h₂
    omega
  · simp at h₁ h₂
    omega
  · decide

theorem isDigit_of_isNameStart {c : Char} (h : isNameStart c) : isDigit c = false := by
  obtain ⟨hlow, -⟩ := bounds_of_isNameStart h
  simp [isDigit, char_le_iff]
  omega

theorem isSkipped_of_isNameStart {c : Char} (h : isNameStart c) : isSkipped c = false := by
  obtain ⟨-, hhigh⟩ := bounds_of_isNameStart h
  rw [Bool.eq_false_iff]
  intro hs
  simp only [isSkipped, Bool.or_eq_true, beq_iff_eq] at hs
  rcases hs with hspace | hmark
  · rcases hspace with (((rfl | rfl) | rfl) | rfl) | rfl
    all_goals exact absurd h (by decide)
  · omega

theorem markOf?_of_isNameStart {c : Char} (h : isNameStart c) : markOf? c = none := by
  unfold markOf?
  split <;> first | rfl | exact absurd h (by decide)

theorem ne_of_isNameStart {c d : Char} (h : isNameStart c) (hd : isNameStart d = false) :
    c ≠ d := by
  rintro rfl
  simp [hd] at h

/-- A mark is neither a blank nor part of another lexeme. -/
theorem markOf?_some {c : Char} {m : Mark} (h : markOf? c = some m) :
    isSkipped c = false ∧ isNameContinue c = false ∧ c ≠ '#' ∧ c ≠ '"' ∧ c ≠ '.' := by
  unfold markOf? at h
  split at h <;> first | decide | simp at h

theorem isSkipped_cases {c : Char} (h : isSkipped c) : isNameContinue c = false ∧ c ≠ '"' := by
  constructor
  · rw [Bool.eq_false_iff]
    intro hc
    rcases Bool.or_eq_true _ _ |>.mp hc with hstart | hdigit
    · simp [isSkipped_of_isNameStart hstart] at h
    · simp only [isDigit, Bool.and_eq_true, decide_eq_true_eq, char_le_iff] at hdigit
      simp only [isSkipped, Bool.or_eq_true, beq_iff_eq] at h
      rcases h with ((((rfl | rfl) | rfl) | rfl) | rfl) | hs <;> simp_all
  · rintro rfl
    simp [isSkipped] at h

theorem escapedChar_of_isPrinted {c : Char} (h : isPrinted c) (hquote : c ≠ '"')
    (hslash : c ≠ '\\') : escapedChar c = [c] ∧ c ≠ '\n' ∧ c ≠ '\r' := by
  simp only [isPrinted, Bool.and_eq_true, decide_eq_true_eq, char_le_iff] at h
  obtain ⟨hlow, hhigh⟩ := h
  simp at hlow hhigh
  have hne (d : Char) (hd : d.toNat < 32) : c ≠ d := by
    rintro rfl
    omega
  have hcontrol : ¬ (c.toNat < 32 ∨ 127 ≤ c.toNat ∧ c.toNat ≤ 159) := by omega
  refine ⟨?_, hne _ (by decide), hne _ (by decide)⟩
  simp [escapedChar, hquote, hslash, hne '\x08' (by decide), hne '\x0c' (by decide),
    hne '\n' (by decide), hne '\r' (by decide), hne '\t' (by decide), hcontrol]

/-! ## Scans of a text -/

/-- The lexemes of a scan and its fault, without places. -/
def Scan.bare (scan : Scan) : List Lexeme × Option ReadFault :=
  (scan.tokens.map (·.lexeme), scan.fault.map (·.fault))

@[simp] theorem Scan.bare_cons (token : Token) (scan : Scan) :
    (scan.cons token).bare = (token.lexeme :: scan.bare.1, scan.bare.2) := rfl

/-- Whether the lexemes that a text is cut into from any place, and the fault behind them, are
good. -/
def Scans (cs : List Char) (good : List Lexeme → Option ReadFault → Prop) : Prop :=
  ∀ steps pos, 2 * cs.length < steps →
    good (scanFrom steps pos cs).bare.1 (scanFrom steps pos cs).bare.2

section Scans

variable {c : Char} {cs rest : List Char} {good : List Lexeme → Option ReadFault → Prop}

theorem scans_nil (h : good [.endOfText] none) : Scans [] good := by
  intro steps pos hsteps
  cases steps with
  | zero => omega
  | succ steps => exact h

theorem Scans.imp {fine : List Lexeme → Option ReadFault → Prop} (h : Scans cs good)
    (hgood : ∀ ls fault, good ls fault → fine ls fault) : Scans cs fine :=
  fun steps pos hsteps => hgood _ _ (h steps pos hsteps)

theorem Scans.skip (hskip : isSkipped c) (hrest : Scans cs good) : Scans (c :: cs) good := by
  intro steps pos hsteps
  have hcomment : c ≠ '#' := by
    rintro rfl
    simp [isSkipped] at hskip
  cases steps with
  | zero => omega
  | succ steps =>
      have hmore := hrest steps (pos.after 1 (c :: cs))
        (by simp only [List.length_cons] at hsteps; omega)
      rw [scanFrom]
      · simpa [hskip] using hmore
      · simpa using hcomment

/-- A text begins with a lexeme and is cut on behind it. -/
theorem scanFrom_lexeme {l : Lexeme} {steps : Nat} {pos : Pos} (hskip : isSkipped c = false)
    (hcomment : c ≠ '#') (h : takeLexeme (c :: cs) = .ok (l, rest)) :
    scanFrom (steps + 1) pos (c :: cs) = Scan.cons ⟨l, pos⟩
      (scanFrom steps (pos.after ((c :: cs).length - rest.length) (c :: cs)) rest) := by
  rw [scanFrom]
  · simp [hskip, h]
  · simpa using hcomment

theorem Scans.lexeme {l : Lexeme} (hskip : isSkipped c = false) (hcomment : c ≠ '#')
    (h : takeLexeme (c :: cs) = .ok (l, rest)) (hlength : rest.length ≤ cs.length)
    (hrest : Scans rest fun ls fault => good (l :: ls) fault) : Scans (c :: cs) good := by
  intro steps pos hsteps
  cases steps with
  | zero => omega
  | succ steps =>
      rw [scanFrom_lexeme hskip hcomment h]
      exact hrest _ _ (by simp only [List.length_cons] at hsteps; omega)

/-- What comes behind the first lexeme may not matter. -/
theorem Scans.first {l : Lexeme} (hskip : isSkipped c = false) (hcomment : c ≠ '#')
    (h : takeLexeme (c :: cs) = .ok (l, rest)) (hgood : ∀ ls fault, good (l :: ls) fault) :
    Scans (c :: cs) good := by
  intro steps pos hsteps
  cases steps with
  | zero => omega
  | succ steps =>
      rw [scanFrom_lexeme hskip hcomment h]
      exact hgood _ _

theorem Scans.faulty {lexFault : LexFault} (hskip : isSkipped c = false) (hcomment : c ≠ '#')
    (h : takeLexeme (c :: cs) = .error lexFault) (hgood : good [] (some lexFault.fault)) :
    Scans (c :: cs) good := by
  intro steps pos hsteps
  cases steps with
  | zero => omega
  | succ steps =>
      rw [scanFrom]
      · simpa [hskip, h, Scan.bare] using hgood
      · simpa using hcomment

end Scans

/-! ## Lexemes in front of a text -/

/-- Whether a name in front of a text ends there. -/
def Ends (cs : List Char) : Prop :=
  ∀ c, cs.head? = some c → isNameContinue c = false

instance (cs : List Char) : Decidable (Ends cs) :=
  decidable_of_iff (cs.head?.all fun c => !isNameContinue c) (by
    cases h : cs.head? <;> simp [Ends, h])

@[simp] theorem ends_nil : Ends [] := by
  simp [Ends]

@[simp] theorem ends_cons {c : Char} {cs : List Char} :
    Ends (c :: cs) ↔ isNameContinue c = false := by
  simp [Ends]

theorem Ends.append {cs rest : List Char} (hcs : Ends cs) (hrest : Ends rest) :
    Ends (cs ++ rest) := by
  cases cs with
  | nil => exact hrest
  | cons c more => exact hcs

theorem takeLexeme_mark {c : Char} {m : Mark} (h : markOf? c = some m) (rest : List Char) :
    takeLexeme (c :: rest) = .ok (.mark m, rest) := by
  obtain ⟨-, -, -, hquote, hdot⟩ := markOf?_some h
  unfold takeLexeme
  split <;> simp_all

theorem takeNumber_eq_ok {cs rest : List Char} {l : Lexeme}
    (h : takeNumber cs = .ok (l, rest)) : ∃ text, l = .int text ∨ l = .float text := by
  simp only [takeNumber, bind_eq_ok] at h
  obtain ⟨whole, -, fraction, -, exponent, -, h⟩ := h
  split at h
  · split at h
    · simp [faultBefore, bind, Except.bind] at h
    · simp only [pure, Except.pure, Except.ok.injEq, Prod.mk.injEq] at h
      exact ⟨_, by rw [← h.1]; split; exact .inl rfl; exact .inr rfl⟩
  · simp [pure, Except.pure] at h
    exact ⟨_, by rw [← h.1]; split; exact .inl rfl; exact .inr rfl⟩

theorem all_of_isName {n : List Char} (h : isName n) : n.all isNameContinue := by
  cases n with
  | nil => rfl
  | cons c cs =>
      simp only [isName, Bool.and_eq_true] at h
      simpa [isNameContinue, h.1] using h.2

theorem span_of_ends {n rest : List Char} (h : n.all isNameContinue) (hrest : Ends rest) :
    (n ++ rest).takeWhile isNameContinue = n ∧ (n ++ rest).dropWhile isNameContinue = rest := by
  induction n with
  | nil =>
      cases rest with
      | nil => simp
      | cons c cs => simp [ends_cons.mp hrest]
  | cons c cs ih =>
      simp only [List.all_cons, Bool.and_eq_true] at h
      obtain ⟨htake, hdrop⟩ := ih h.2
      simp [h.1, htake, hdrop]

theorem takeLexeme_name {n rest : List Char} (h : isName n) (hrest : Ends rest) :
    takeLexeme (n ++ rest) = .ok (.name (String.ofList n), rest) := by
  cases n with
  | nil => simp [isName] at h
  | cons c cs =>
      have hstart : isNameStart c := by
        simp only [isName, Bool.and_eq_true] at h
        exact h.1
      have hmark := markOf?_of_isNameStart hstart
      have hdigit := isDigit_of_isNameStart hstart
      have hminus : c ≠ '-' := ne_of_isNameStart hstart (by decide)
      have hquote : c ≠ '"' := ne_of_isNameStart hstart (by decide)
      have hdot : c ≠ '.' := ne_of_isNameStart hstart (by decide)
      obtain ⟨htake, hdrop⟩ := span_of_ends (all_of_isName h) hrest
      simp only [List.cons_append] at htake hdrop ⊢
      unfold takeLexeme
      split <;> simp_all

theorem takeString_escaped {text : List Char} (h : text.all isPrinted) (rest : List Char)
    (steps : Nat) (hsteps : text.length < steps) :
    takeString steps (text.flatMap escapedChar ++ '"' :: rest) = .ok (text, rest) := by
  induction text generalizing steps with
  | nil =>
      cases steps with
      | zero => simp at hsteps
      | succ steps => simp [takeString]
  | cons c cs ih =>
      cases steps with
      | zero => simp at hsteps
      | succ steps =>
          simp only [List.all_cons, Bool.and_eq_true, List.length_cons] at h hsteps
          have hmore := ih h.2 steps (by omega)
          by_cases hquote : c = '"'
          · simp [takeString, hquote, escapedChar, takeEscape, letterEscape?, hmore, bind,
              Except.bind, pure, Except.pure]
          · by_cases hslash : c = '\\'
            · simp [takeString, hslash, escapedChar, takeEscape, letterEscape?, hmore, bind,
                Except.bind, pure, Except.pure]
            · obtain ⟨hplain, hfeed, hreturn⟩ := escapedChar_of_isPrinted h.1 hquote hslash
              simp [takeString, hquote, hslash, hplain, hfeed, hreturn, hmore, bind, Except.bind,
                pure, Except.pure]

theorem length_le_escaped (text : List Char) :
    text.length ≤ (text.flatMap escapedChar).length := by
  induction text with
  | nil => simp
  | cons c cs ih =>
      have hone : 1 ≤ (escapedChar c).length := by
        unfold escapedChar
        repeat' split
        all_goals simp
      simp only [List.flatMap_cons, List.length_append, List.length_cons]
      omega

/-- The head of an escaped text is no quote, so that no block string begins there. -/
theorem takeLexeme_string {text : List Char} (hne : text ≠ []) (h : text.all isPrinted)
    (rest : List Char) :
    takeLexeme ('"' :: (text.flatMap escapedChar ++ '"' :: rest)) =
      .ok (.string (String.ofList text), rest) := by
  have hlength := length_le_escaped text
  have hread := takeString_escaped h rest
    ('"' :: (text.flatMap escapedChar ++ '"' :: rest)).length (by
      simp only [List.length_cons, List.length_append]
      omega)
  obtain ⟨d, more, hd, hq⟩ : ∃ d more, text.flatMap escapedChar = d :: more ∧ d ≠ '"' := by
    cases text with
    | nil => exact absurd rfl hne
    | cons c cs =>
        simp only [List.all_cons, Bool.and_eq_true] at h
        by_cases hquote : c = '"'
        · exact ⟨'\\', '"' :: cs.flatMap escapedChar, by simp [hquote, escapedChar], by decide⟩
        · by_cases hslash : c = '\\'
          · exact ⟨'\\', '\\' :: cs.flatMap escapedChar, by simp [hslash, escapedChar], by decide⟩
          · have hplain := (escapedChar_of_isPrinted h.1 hquote hslash).1
            exact ⟨c, cs.flatMap escapedChar, by simp [hplain], hquote⟩
  rw [hd, List.cons_append] at hread ⊢
  rw [takeLexeme]
  · rw [hread]
    rfl
  · simp [hq]

/-! ## Spelled lexemes -/

/-- The texts that spell lexemes. -/
inductive Spells : List Char → List Lexeme → Prop
  | nil : Spells [] []
  | skip {c cs lexemes} : isSkipped c → Spells cs lexemes → Spells (c :: cs) lexemes
  | mark {c m cs lexemes} : markOf? c = some m → Spells cs lexemes →
      Spells (c :: cs) (.mark m :: lexemes)
  | name {n cs lexemes} : isName n → Ends cs → Spells cs lexemes →
      Spells (n ++ cs) (.name (String.ofList n) :: lexemes)
  | string {text cs lexemes} : text ≠ [] → text.all isPrinted → Spells cs lexemes →
      Spells ('"' :: (text.flatMap escapedChar ++ '"' :: cs))
        (.string (String.ofList text) :: lexemes)

namespace Spells

variable {cs rest : List Char} {lexemes more : List Lexeme}

/-- A text that spells lexemes is cut into them, whatever follows it. -/
theorem scans {good : List Lexeme → Option ReadFault → Prop} (h : Spells cs lexemes)
    (hends : Ends rest) (hrest : Scans rest fun ls fault => good (lexemes ++ ls) fault) :
    Scans (cs ++ rest) good := by
  induction h generalizing good with
  | nil => exact hrest
  | skip hskip _ ih => exact (ih hrest).skip hskip
  | mark hmark _ ih =>
      obtain ⟨hskip, -, hcomment, -, -⟩ := markOf?_some hmark
      exact .lexeme hskip hcomment (takeLexeme_mark hmark _) (Nat.le_refl _) (ih hrest)
  | @name n cs lexemes hname hcs _ ih =>
      have htake := takeLexeme_name hname (hcs.append hends)
      rw [List.append_assoc]
      cases n with
      | nil => simp [isName] at hname
      | cons c n =>
          simp only [isName, Bool.and_eq_true] at hname
          exact .lexeme (isSkipped_of_isNameStart hname.1)
            (ne_of_isNameStart hname.1 (by decide)) htake (by simp) (ih hrest)
  | @string text cs lexemes hne hprinted _ ih =>
      have htake := takeLexeme_string hne hprinted (cs ++ rest)
      simp only [List.cons_append, List.append_assoc]
      exact .lexeme (by decide) (by decide) htake (by simp; omega) (ih hrest)

theorem append (hcs : Spells cs lexemes) (hends : Ends rest) (hrest : Spells rest more) :
    Spells (cs ++ rest) (lexemes ++ more) := by
  induction hcs with
  | nil => exact hrest
  | skip hskip _ ih => exact ih.skip hskip
  | mark hmark _ ih => exact ih.mark hmark
  | name hname hcs _ ih =>
      rw [List.append_assoc]
      exact ih.name hname (hcs.append hends)
  | string hne hprinted _ ih =>
      simp only [List.cons_append, List.append_assoc]
      exact ih.string hne hprinted

end Spells

/-! ## Lines that are set in -/

theorem flatMap_setIn_of_plain {cs : List Char} (h : ∀ c ∈ cs, c ≠ '\n') :
    cs.flatMap Layout.setIn = cs := by
  induction cs with
  | nil => rfl
  | cons c cs ih =>
      have hc : c ≠ '\n' := h c (by simp)
      simp [Layout.setIn, hc, ih fun d hd => h d (by simp [hd])]

theorem Ends.setIn {cs : List Char} (h : Ends cs) : Ends (cs.flatMap Layout.setIn) := by
  cases cs with
  | nil => exact h
  | cons c cs =>
      by_cases hc : c = '\n'
      · simpa [Layout.setIn, hc] using h
      · simpa [Layout.setIn, hc] using h

theorem escapedChar_ne_feed {c : Char} (h : isPrinted c) : ∀ d ∈ escapedChar c, d ≠ '\n' := by
  by_cases hquote : c = '"'
  · simp [hquote, escapedChar]
  · by_cases hslash : c = '\\'
    · simp [hslash, escapedChar]
    · obtain ⟨hplain, hfeed, -⟩ := escapedChar_of_isPrinted h hquote hslash
      simpa [hplain] using hfeed

theorem Spells.setIn {cs : List Char} {lexemes : List Lexeme} (h : Spells cs lexemes) :
    Spells (cs.flatMap Layout.setIn) lexemes := by
  induction h with
  | nil => exact .nil
  | @skip c cs lexemes hskip _ ih =>
      by_cases hc : c = '\n'
      · simp only [List.flatMap_cons, Layout.setIn, if_pos hc, List.cons_append, List.nil_append]
        exact ((ih.skip (by decide)).skip (by decide)).skip (by decide)
      · simpa [Layout.setIn, hc] using ih.skip hskip
  | @mark c m cs lexemes hmark _ ih =>
      have hc : c ≠ '\n' := by
        rintro rfl
        simp [markOf?] at hmark
      simpa [Layout.setIn, hc] using ih.mark hmark
  | @name n cs lexemes hname hcs _ ih =>
      have hn : ∀ c ∈ n, c ≠ '\n' := by
        rintro c hc rfl
        exact absurd (List.all_eq_true.mp (all_of_isName hname) _ hc) (by decide)
      rw [List.flatMap_append, flatMap_setIn_of_plain hn]
      exact ih.name hname hcs.setIn
  | @string text cs lexemes hne hprinted _ ih =>
      have htext : ∀ d ∈ text.flatMap escapedChar, d ≠ '\n' := by
        intro d hd
        obtain ⟨c, hc, hd⟩ := List.mem_flatMap.mp hd
        exact escapedChar_ne_feed (List.all_eq_true.mp hprinted c hc) d hd
      have hquote : Layout.setIn '"' = ['"'] := by decide
      simp only [List.flatMap_cons, List.flatMap_append, flatMap_setIn_of_plain htext, hquote,
        List.cons_append, List.nil_append]
      exact ih.string hne hprinted

end RecordApi.Language
