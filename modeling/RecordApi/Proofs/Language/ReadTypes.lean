import RecordApi.Proofs.Language.Written

/-!
# Types that are read

A type is read from just the lexemes that it is written by. So a text is read as a type if and only
if it is cut into the lexemes of that type and nothing else, whatever stands between them.

## Main statements

* `Reader.takes_type`: what the rule for types goes past are the lexemes of its answer.
* `readType_eq_ok_iff`: the texts that are read as a type.
* `readType_text`: the written form of a type is read as the type.
-/

namespace RecordApi.Language

/-! ## The end of a text -/

/-- Whether the end of the text comes last among lexemes and nowhere else. Behind a fault there is
no end of the text. -/
def Ended (lexemes : List Lexeme) (faulty : Bool) : Prop :=
  ∃ front, .endOfText ∉ front ∧ lexemes = if faulty then front else front ++ [.endOfText]

theorem ended_cons {l : Lexeme} {lexemes : List Lexeme} {faulty : Bool} (hl : l ≠ .endOfText)
    (h : Ended lexemes faulty) : Ended (l :: lexemes) faulty := by
  obtain ⟨front, hfront, rfl⟩ := h
  refine ⟨l :: front, ?_, by split <;> rfl⟩
  rw [List.mem_cons, not_or]
  exact ⟨hl.symm, hfront⟩

theorem Ended.tail {l : Lexeme} {lexemes : List Lexeme} {faulty : Bool}
    (h : Ended (l :: lexemes) faulty) (hne : lexemes ≠ []) : Ended lexemes faulty := by
  obtain ⟨front, hfront, hlexemes⟩ := h
  cases front with
  | nil =>
      cases faulty with
      | true => cases hlexemes
      | false => exact absurd (List.cons.inj hlexemes).2 hne
  | cons first front =>
      refine ⟨front, fun hmem => hfront (List.mem_cons_of_mem first hmem), ?_⟩
      cases faulty <;> exact (List.cons.inj hlexemes).2

/-- Behind the end of the text nothing is left. -/
theorem Ended.eq_nil {lexemes : List Lexeme} {faulty : Bool}
    (h : Ended (.endOfText :: lexemes) faulty) : faulty = false ∧ lexemes = [] := by
  obtain ⟨front, hfront, hlexemes⟩ := h
  cases front with
  | nil =>
      cases faulty with
      | true => cases hlexemes
      | false => exact ⟨rfl, (List.cons.inj hlexemes).2⟩
  | cons first front =>
      have hfirst : first = .endOfText := by
        cases faulty <;> exact (List.cons.inj hlexemes).1.symm
      exact absurd (hfirst ▸ List.mem_cons_self) hfront

/-- What is left where no fault is does not run out in front of the end of the text. -/
theorem Ended.ne_singleton {l : Lexeme} (h : Ended [l] false) : l = .endOfText := by
  obtain ⟨front, -, hlexemes⟩ := h
  cases front with
  | nil => exact (List.cons.inj hlexemes).1
  | cons first front =>
      have hlength := congrArg List.length hlexemes
      simp at hlength

theorem takeLexeme_ne_end {c : Char} {cs rest : List Char} {l : Lexeme}
    (h : takeLexeme (c :: cs) = .ok (l, rest)) : l ≠ .endOfText := by
  unfold takeLexeme at h
  split at h
  · next hnil => cases hnil
  · obtain ⟨_, -, h⟩ := bind_eq_ok.mp h
    obtain ⟨rfl, -⟩ := Prod.mk.inj (Except.ok.inj h)
    nofun
  · obtain ⟨_, -, h⟩ := bind_eq_ok.mp h
    obtain ⟨rfl, -⟩ := Prod.mk.inj (Except.ok.inj h)
    nofun
  · obtain ⟨rfl, -⟩ := Prod.mk.inj (Except.ok.inj h)
    nofun
  · split at h
    · obtain ⟨rfl, -⟩ := Prod.mk.inj (Except.ok.inj h)
      nofun
    · split at h
      · obtain ⟨_, rfl | rfl⟩ := takeNumber_eq_ok h <;> nofun
      · split at h
        · obtain ⟨rfl, -⟩ := Prod.mk.inj (Except.ok.inj h)
          nofun
        · split at h <;> cases h

/-- A text is cut into lexemes up to its end or up to a fault. -/
theorem ended_scanFrom (steps : Nat) (pos : Pos) (cs : List Char) :
    Ended ((scanFrom steps pos cs).tokens.map Token.lexeme)
      (scanFrom steps pos cs).fault.isSome := by
  induction steps generalizing pos cs with
  | zero => exact ⟨[], nofun, rfl⟩
  | succ steps ih =>
      unfold scanFrom
      split
      · exact ih _ _
      · exact ⟨[], nofun, rfl⟩
      · split
        · exact ih _ _
        · split
          · exact ⟨[], nofun, rfl⟩
          · next htake => exact ended_cons (takeLexeme_ne_end htake) (ih _ _)

namespace Reader

variable {α β : Type} {rule : Reader α} {f : α → Reader β} {made : α → List Lexeme → Prop}
  {fine : β → List Lexeme → Prop} {feed rest : Feed} {bound : Nat}

/-! ## What rules go past -/

/-- Whether there is a token at hand, and the tokens that remain end as those of a text do. -/
structure Running (feed : Feed) : Prop where
  some : feed.tokens ≠ []
  ended : Ended feed.lexemes feed.fault.isSome

/-- If the rule answers in front of these tokens, it has gone past lexemes of which its answer is
made. -/
def TakesFrom (feed : Feed) (rule : Reader α) (made : α → List Lexeme → Prop) : Prop :=
  ∀ a rest, StateT.run rule feed = .ok (a, rest) →
    Running rest ∧ ∃ ls, feed.lexemes = ls ++ rest.lexemes ∧ made a ls

/-- If the rule answers, it has gone past lexemes of which its answer is made. -/
def Takes (rule : Reader α) (made : α → List Lexeme → Prop) : Prop :=
  ∀ feed, Running feed → TakesFrom feed rule made

theorem TakesFrom.pure {a : α} (hfeed : Running feed) (h : made a []) :
    TakesFrom feed (pure a) made := by
  rintro _ _ ⟨⟩
  exact ⟨hfeed, [], rfl, h⟩

theorem Takes.pure {a : α} (h : made a []) : Takes (pure a) made :=
  fun _ hfeed => .pure hfeed h

theorem TakesFrom.bind (hrule : TakesFrom feed rule made)
    (hf : ∀ a ls, made a ls → Takes (f a) fun b more => fine b (ls ++ more)) :
    TakesFrom feed (rule >>= f) fine := by
  intro b rest hrun
  rw [run_bind] at hrun
  cases hfirst : StateT.run rule feed with
  | error fault =>
      rw [hfirst] at hrun
      cases hrun
  | ok answer =>
      obtain ⟨a, middle⟩ := answer
      rw [hfirst] at hrun
      obtain ⟨hmiddle, ls, hls, ha⟩ := hrule a middle hfirst
      obtain ⟨hrest, more, hmore, hb⟩ := hf a ls ha middle hmiddle b rest hrun
      exact ⟨hrest, ls ++ more, by rw [hls, hmore, List.append_assoc], hb⟩

theorem Takes.bind (hrule : Takes rule made)
    (hf : ∀ a ls, made a ls → Takes (f a) fun b more => fine b (ls ++ more)) :
    Takes (rule >>= f) fine :=
  fun feed hfeed => (hrule feed hfeed).bind hf

theorem takesFrom_fail (fault : ReadFault) : TakesFrom feed (fail fault : Reader α) made := by
  intro a rest hrun
  cases hrun

theorem takes_refuse : Takes (refuse : Reader α) made := by
  intro feed _ a rest hrun
  cases hrun

/-! ## Single tokens -/

/-- The token at hand and those behind it. -/
theorem Running.exists_token (h : Running feed) :
    ∃ token more, feed.tokens = token :: more ∧
      StateT.run current feed = .ok (token, feed) := by
  obtain ⟨token, more, htokens⟩ := List.exists_cons_of_ne_nil h.some
  refine ⟨token, more, htokens, ?_⟩
  show Except.ok (feed.tokens.headD ⟨.endOfText, Pos.nowhere⟩, feed) = _
  rw [htokens]
  rfl

theorem run_reach {token : Token} {answer : Unit}
    (h : StateT.run (reach token) feed = .ok (answer, rest)) :
    rest.tokens = feed.tokens ∧ rest.fault = feed.fault := by
  have hreach := reach_counts token feed
  rw [h] at hreach
  exact ⟨hreach.1, hreach.2.1⟩

/-- Going on from a token that is not the end of the text. -/
theorem takesFrom_advance (hfeed : Running feed) {token : Token} {more : List Token}
    (htokens : feed.tokens = token :: more) (htoken : token.lexeme ≠ .endOfText) :
    TakesFrom feed advance fun _ ls => ls = [token.lexeme] := by
  obtain ⟨tokens, fault, allowance, options, mentions⟩ := feed
  obtain rfl : tokens = token :: more := htokens
  intro answer rest hrun
  cases more with
  | nil =>
      cases fault with
      | none => exact absurd hfeed.ended.ne_singleton htoken
      | some misreading => cases hrun
  | cons next more =>
      have hshape :
          StateT.run advance ⟨token :: next :: more, fault, allowance, options, mentions⟩ =
          StateT.run (reach next >>= fun _ =>
            modify fun feed => { feed with tokens := next :: more })
            ⟨token :: next :: more, fault, allowance, options, mentions⟩ := rfl
      rw [hshape, run_bind] at hrun
      cases hreach : StateT.run (reach next)
          ⟨token :: next :: more, fault, allowance, options, mentions⟩ with
      | error misreading =>
          rw [hreach] at hrun
          cases hrun
      | ok reached =>
          obtain ⟨_, middle⟩ := reached
          rw [hreach] at hrun
          obtain ⟨-, hfault⟩ := run_reach hreach
          obtain ⟨-, rfl⟩ := Prod.mk.inj (Except.ok.inj hrun)
          refine ⟨⟨List.cons_ne_nil next more, ?_⟩, [token.lexeme], rfl, rfl⟩
          show Ended ((next :: more).map Token.lexeme) middle.fault.isSome
          rw [hfault]
          exact hfeed.ended.tail (List.cons_ne_nil _ _)

/-- A rule that decides by the token at hand. -/
theorem takes_current {f : Token → Reader β}
    (h : ∀ (feed : Feed) token more, Running feed → feed.tokens = token :: more →
      TakesFrom feed (f token) fine) : Takes (current >>= f) fine := by
  intro feed hfeed
  obtain ⟨token, more, htokens, hrun⟩ := hfeed.exists_token
  intro b rest hanswer
  rw [run_bind, hrun] at hanswer
  exact h feed token more hfeed htokens b rest hanswer

theorem takes_expect (m : Mark) : Takes (expect m) fun _ ls => ls = [.mark m] := by
  apply takes_current
  intro feed token more hfeed htokens
  split
  · next hmark =>
      have hlexeme : token.lexeme = .mark m := by simpa using hmark
      rw [← hlexeme]
      exact takesFrom_advance hfeed htokens (by simp [hlexeme])
  · exact takesFrom_fail _

theorem takes_name : Takes name fun n ls => ls = [.name n.text] := by
  apply takes_current
  intro feed token more hfeed htokens
  split
  · next text hlexeme =>
      refine (takesFrom_advance hfeed htokens (by simp [hlexeme])).bind fun _ ls hls => ?_
      exact .pure (by rw [hls, hlexeme]; rfl)
  · exact takesFrom_fail _

theorem takes_accept (m : Mark) :
    Takes (accept m) fun answer ls => ls = if answer then [.mark m] else [] := by
  unfold accept peek
  rw [bind_assoc]
  apply takes_current
  intro feed token more hfeed htokens
  rw [pure_bind]
  split
  · next hmark =>
      have hlexeme : token.lexeme = .mark m := by simpa using hmark
      refine (takesFrom_advance hfeed htokens (by simp [hlexeme])).bind fun _ ls hls => ?_
      exact .pure (by rw [hls, hlexeme]; rfl)
  · exact .pure hfeed rfl

theorem takes_note (pos : Pos) : Takes (note pos) fun _ ls => ls = [] := by
  rintro feed hfeed _ _ ⟨⟩
  exact ⟨⟨hfeed.some, hfeed.ended⟩, [], rfl, rfl⟩

/-! ## Types -/

theorem takes_unmarkedType {item : Reader (TypeExpr × Pos)}
    (hitem : Takes item fun typed ls => ls = typed.1.lexemes) :
    Takes (unmarkedType item) fun typed ls => ls = typed.1.lexemes := by
  refine (takes_accept .bracketOpen).bind fun opened ls hls => ?_
  cases opened with
  | true =>
      refine hitem.bind fun ⟨type, pos⟩ inner hinner => ?_
      refine (takes_expect .bracketClose).bind fun _ close hclose => .pure ?_
      simp [hls, hinner, hclose, TypeExpr.lexemes]
  | false =>
      refine takes_name.bind fun base named hnamed => .pure ?_
      simp [hls, hnamed, TypeExpr.lexemes]

theorem takes_placedType : Takes (placedType bound) fun typed ls => ls = typed.1.lexemes := by
  induction bound with
  | zero => exact takes_refuse
  | succ bound ih =>
      rw [placedType_succ]
      refine (takes_unmarkedType ih).bind fun ⟨type, pos⟩ ls hls => ?_
      refine (takes_accept .bang).bind fun marked bang hbang => ?_
      cases marked <;> exact .pure (by simp [hls, hbang, TypeExpr.lexemes])

theorem takes_type : Takes (type bound) fun type ls => ls = type.lexemes := by
  refine takes_placedType.bind fun ⟨type, pos⟩ ls hls => ?_
  refine (takes_note pos).bind fun _ none hnone => .pure ?_
  simp [hls, hnone]

theorem passes_expectEnd : Passes expectEnd [] .endOfText fun _ => True :=
  .look passes_current fun token (htoken : token.lexeme = .endOfText) => by
    rw [if_pos (by simp [htoken])]
    exact .pure trivial

theorem keeps_expectEnd : Keeps expectEnd :=
  yields_current.next fun _ => .ite (.pure trivial) (yields_fail _)

/-- The text ends where it must end. -/
theorem lexemes_of_expectEnd {answer : Unit} (hfeed : Running feed)
    (h : StateT.run expectEnd feed = .ok (answer, rest)) : feed.lexemes = [.endOfText] := by
  obtain ⟨token, more, htokens, hcurrent⟩ := hfeed.exists_token
  rw [expectEnd, run_bind, hcurrent] at h
  by_cases hend : token.lexeme = .endOfText
  · have hlexemes : feed.lexemes = .endOfText :: more.map Token.lexeme := by
      rw [Feed.lexemes, htokens, List.map_cons, hend]
    have hended := hfeed.ended
    rw [hlexemes] at hended
    rw [hlexemes, hended.eq_nil.2]
  · simp only [hend, beq_iff_eq, if_false] at h
    cases h

/-- A rule that takes up the whole text. -/
def whole (rule : Nat → Reader α) (bound : Nat) : Reader α := do
  let a ← rule bound
  expectEnd
  return a

/-- What a rule that takes up the whole text has gone past. -/
theorem Takes.run {rule : Nat → Reader α} {options : ReadOptions} {scan : Scan} {a : α}
    (hrule : ∀ bound, Takes (rule bound) made)
    (hscan : Ended (scan.tokens.map Token.lexeme) scan.fault.isSome)
    (h : Reader.run options scan (whole rule) = .ok a) :
    ∃ ls, scan.tokens.map Token.lexeme = ls ++ [.endOfText] ∧ made a ls := by
  obtain ⟨tokens, fault⟩ := scan
  obtain ⟨⟨_, feed⟩, hstart, h⟩ := bind_eq_ok.mp h
  obtain ⟨⟨b, last⟩, hanswer, h⟩ := bind_eq_ok.mp h
  obtain rfl := Except.ok.inj h
  cases tokens with
  | nil =>
      cases fault with
      | none =>
          obtain ⟨front, -, hfront⟩ := hscan
          simp at hfront
      | some misreading => cases hstart
  | cons token tokens =>
      have hreach : StateT.run (reach token)
          ⟨token :: tokens, fault, options.mostTokens.map Int.toNat, options, []⟩ =
            .ok ((), feed) := hstart
      have hsame : feed.tokens = token :: tokens ∧ feed.fault = fault := run_reach hreach
      obtain ⟨htokens, hfault⟩ := hsame
      have hlexemes : feed.lexemes = (token :: tokens).map Token.lexeme := by
        rw [Feed.lexemes, htokens]
      have hfeed : Running feed :=
        ⟨by simp [htokens], by rw [hlexemes, hfault]; exact hscan⟩
      rw [whole, run_bind] at hanswer
      cases hfirst : StateT.run (rule ((token :: tokens).length + 1)) feed with
      | error misreading =>
          rw [hfirst] at hanswer
          cases hanswer
      | ok answer =>
          obtain ⟨a, middle⟩ := answer
          rw [hfirst] at hanswer
          obtain ⟨hmiddle, ls, hls, ha⟩ := hrule _ feed hfeed a middle hfirst
          dsimp only at hanswer
          rw [run_bind] at hanswer
          cases hend : StateT.run expectEnd middle with
          | error misreading =>
              rw [hend] at hanswer
              cases hanswer
          | ok ended =>
              rw [hend] at hanswer
              obtain ⟨rfl, -⟩ := Prod.mk.inj (Except.ok.inj hanswer)
              exact ⟨ls, by rw [← hlexemes, hls, lexemes_of_expectEnd hmiddle hend], ha⟩

end Reader

/-! ## Texts of types -/

/-- The lexemes of a text. -/
def lexemesOf (text : String) : List Lexeme :=
  (scan text).tokens.map Token.lexeme

theorem readType_eq (text : String) :
    readType text = withoutPlace (Reader.run {} (scan text) (Reader.whole Reader.type)) := rfl

theorem readType_of_lexemes {text : String} {type : TypeExpr} (htype : type.isWritten)
    (h : lexemesOf text = type.lexemes ++ [.endOfText]) : readType text = .ok type := by
  have hlength : type.lexemes.length ≤ (scan text).tokens.length + 1 := by
    have hsame := congrArg List.length h
    simp only [lexemesOf, List.length_map, List.length_append, List.length_singleton] at hsame
    omega
  have hpasses : Reader.Passes (Reader.whole Reader.type ((scan text).tokens.length + 1))
      type.lexemes .endOfText (· = type) := by
    rw [← List.append_nil type.lexemes]
    apply (Reader.passes_type htype hlength (by decide)).bind
    intro answer hanswer
    exact .look Reader.passes_expectEnd fun _ _ => .pure hanswer
  have hrun := Reader.run_passes {} h hpasses
  cases hcase : Reader.run {} (scan text) (Reader.whole Reader.type) with
  | error misreading =>
      rw [hcase] at hrun
      obtain ⟨n, hn, -⟩ := hrun
      cases hn
  | ok answer =>
      rw [hcase] at hrun
      rw [readType_eq, hcase, hrun.1]
      rfl

/-- A text is read as a type if and only if the type can be written and the text is cut into the
lexemes of the type and no others. -/
theorem readType_eq_ok_iff {text : String} {type : TypeExpr} :
    readType text = .ok type ↔
      type.isWritten ∧ lexemesOf text = type.lexemes ++ [.endOfText] := by
  constructor
  · intro h
    rw [readType_eq] at h
    unfold withoutPlace at h
    split at h
    · next answer hanswer =>
        obtain rfl := Except.ok.inj h
        have hyields (bound : Nat) :
            Reader.Yields (Reader.whole Reader.type bound) fun type => type.isWritten :=
          Reader.yields_type.bind fun _ htype => Reader.keeps_expectEnd.next fun _ => .pure htype
        have hwritten := Reader.Yields.run hyields (scanFrom_named _ _ _) hanswer
        obtain ⟨ls, hls, rfl⟩ :=
          Reader.Takes.run (fun _ => Reader.takes_type) (ended_scanFrom _ _ _) hanswer
        exact ⟨hwritten, hls⟩
    · cases h
  · rintro ⟨htype, h⟩
    exact readType_of_lexemes htype h

/-- The written form of a type is read as the type. -/
theorem readType_text {type : TypeExpr} (h : type.isWritten) : readType type.text = .ok type :=
  readType_of_lexemes h (scan_lexemes (TypeExpr.spells_text h))

/-- The characters of a lexeme. Lexemes of which no type is made have none here. -/
def Lexeme.letters : Lexeme → List Char
  | mark m => m.text.toList
  | name text => text.toList
  | _ => []

/-- The written form of a type is that of its lexemes, with nothing between them. -/
theorem TypeExpr.toList_text (type : TypeExpr) :
    type.text.toList = type.lexemes.flatMap Lexeme.letters := by
  induction type with
  | named name => simp [text, lexemes, Lexeme.letters]
  | list item ih => simp [text, lexemes, Lexeme.letters, Mark.text, ih]
  | nonNull inner ih => simp [text, lexemes, Lexeme.letters, Mark.text, ih]

end RecordApi.Language
