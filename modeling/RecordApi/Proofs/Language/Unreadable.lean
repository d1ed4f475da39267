import RecordApi.Proofs.Language.RoundTrip
import RecordApi.Proofs.Outcomes

/-!
# Texts that are not read

A field must begin with its name or its description. Where the text of an object type has a number
or nothing in the place of a field's name, no document is read.
-/

namespace RecordApi.Language

open Layout

/-- Whether no field can begin with what remains: nothing but a fault, or another lexeme. -/
def Barred (lexemes : List Lexeme) (faulty : Bool) : Prop :=
  match lexemes with
  | [] => faulty = true
  | l :: _ => ¬ Reader.Begins l

/-! ## Numbers in the place of names -/

theorem takeNumber_barred {cs rest : List Char} {l : Lexeme}
    (h : takeNumber cs = .ok (l, rest)) : ¬ Reader.Begins l := by
  obtain ⟨text, rfl | rfl⟩ := takeNumber_eq_ok h <;> exact nofun

theorem ne_of_isDigit {c d : Char} (h : isDigit c) (hd : isDigit d = false) : c ≠ d := by
  rintro rfl
  simp [hd] at h

theorem takeLexeme_digit {c : Char} (h : isDigit c) (cs : List Char) :
    takeLexeme (c :: cs) = takeNumber (c :: cs) := by
  have hquote : c ≠ '"' := ne_of_isDigit h (by decide)
  have hdot : c ≠ '.' := ne_of_isDigit h (by decide)
  have hmark : markOf? c = none := by
    unfold markOf?
    split <;> first | rfl | exact absurd h (by decide)
  unfold takeLexeme
  split <;> simp_all

theorem scans_barred {field : List Char} (hall : field.all isNameContinue)
    (hfield : isName field = false) (rest : List Char) :
    Scans (field ++ ':' :: rest) fun ls fault => Barred ls fault.isSome := by
  cases field with
  | nil => exact .first (by decide) (by decide) (takeLexeme_mark rfl rest) fun ls fault => nofun
  | cons c cs =>
      simp only [List.all_cons, Bool.and_eq_true] at hall
      have hstart : isNameStart c = false := by simpa [isName, hall.2] using hfield
      have hdigit : isDigit c := by simpa [isNameContinue, hstart] using hall.1
      have hskip : isSkipped c = false := by
        rw [Bool.eq_false_iff]
        intro hskip
        simp [(isSkipped_cases hskip).1] at hall
      have hcomment : c ≠ '#' := ne_of_isDigit hdigit (by decide)
      rw [List.cons_append]
      cases htake : takeNumber (c :: (cs ++ ':' :: rest)) with
      | error fault =>
          rw [← takeLexeme_digit hdigit] at htake
          exact .faulty hskip hcomment htake rfl
      | ok answer =>
          have hbarred := takeNumber_barred htake
          rw [← takeLexeme_digit hdigit] at htake
          exact .first hskip hcomment htake fun ls fault => hbarred

/-! ## Rules that fail -/

namespace Reader

variable {α β : Type} {rule : Reader α} {f : α → Reader β} {good : α → Prop}
  {ls ls₁ ls₂ : List Lexeme} {l : Lexeme} {bound : Nat}

/-- The rule fails on the lexemes if no field can begin behind them. -/
def Fails (rule : Reader α) (ls : List Lexeme) : Prop :=
  ∀ (feed : Feed) rest, feed.lexemes = ls ++ rest → Barred rest feed.fault.isSome →
    ∃ fault, StateT.run rule feed = .error fault

theorem Fails.bind (h : Fails rule ls) : Fails (rule >>= f) ls := by
  intro feed rest hfeed hbarred
  obtain ⟨fault, hfault⟩ := h feed rest hfeed hbarred
  exact ⟨fault, by rw [run_bind, hfault]⟩

theorem Passes.fails (hrule : Passes rule ls₁ l good) (hf : ∀ a, good a → Fails (f a) (l :: ls₂)) :
    Fails (rule >>= f) (ls₁ ++ l :: ls₂) := by
  intro feed rest hfeed hbarred
  rw [List.append_assoc, List.cons_append] at hfeed
  have hfirst := hrule feed _ hfeed
  rw [run_bind]
  cases hrun : StateT.run rule feed with
  | error fault => exact ⟨fault, rfl⟩
  | ok answer =>
      obtain ⟨a, feed'⟩ := answer
      rw [hrun] at hfirst
      obtain ⟨ha, hfeed', hfault, -⟩ := hfirst
      exact hf a ha feed' rest hfeed' (by rwa [hfault])

theorem fails_refuse : Fails (refuse : Reader α) ls := by
  intro feed rest _ _
  exact ⟨_, rfl⟩

theorem fails_fieldDef : Fails (fieldDef bound) [] := by
  intro feed rest hfeed hbarred
  obtain ⟨tokens, fault, allowance, options, mentions⟩ := feed
  cases tokens with
  | nil => exact ⟨_, rfl⟩
  | cons token tokens =>
      obtain ⟨lexeme, pos⟩ := token
      obtain rfl : lexeme :: tokens.map Token.lexeme = rest := hfeed
      cases lexeme <;> first | exact ⟨_, rfl⟩ | exact absurd trivial hbarred

/-- The opening mark of a block of fields is not passed if the text stops behind it, and else the
first field fails. -/
theorem fails_many : Fails (many bound .braceOpen .braceClose (fieldDef bound))
    [.mark .braceOpen] := by
  intro feed rest hfeed hbarred
  cases rest with
  | nil =>
      obtain ⟨tokens, fault, allowance, options, mentions⟩ := feed
      obtain ⟨token, more, rfl, htoken, hmore⟩ := List.map_eq_cons_iff.mp hfeed
      obtain rfl := List.map_eq_nil_iff.mp hmore
      obtain ⟨lexeme, pos⟩ := token
      obtain rfl : lexeme = .mark .braceOpen := htoken
      cases fault with
      | none => simp [Barred] at hbarred
      | some misreading => exact ⟨misreading, rfl⟩
  | cons l more =>
      have hopening := passes_expect .braceOpen feed more hfeed
      rw [many, run_bind]
      cases hrun : StateT.run (expect .braceOpen) feed with
      | error fault => exact ⟨fault, rfl⟩
      | ok answer =>
          obtain ⟨_, feed'⟩ := answer
          rw [hrun] at hopening
          obtain ⟨-, hfeed', hfault, -⟩ := hopening
          exact fails_fieldDef.bind feed' (l :: more) hfeed' (by rwa [hfault])

theorem fails_optionalMany :
    Fails (optionalMany bound .braceOpen .braceClose (fieldDef bound)) [.mark .braceOpen] := by
  apply (passes_peek .braceOpen).fails
  intro answer hanswer
  rw [if_pos (by simp [hanswer])]
  exact fails_many

theorem fails_typeDef (name : String) (hbound : 0 < bound) :
    Fails (typeDef bound "type" none) [.name "type", .name name, .mark .braceOpen] := by
  apply (passes_expectWord "type").fails
  intro _ _
  apply (passes_nameText name).fails
  intro _ _
  simp only [beq_self_eq_true, Bool.true_or, if_true]
  apply (passes_interfaces (by simp)).fails
  intro _ _
  apply (passes_directives hbound (by simp)).fails
  intro _ _
  exact fails_optionalMany.bind

theorem fails_definition (name : String) (hbound : 0 < bound) :
    Fails (definition bound) [.name "type", .name name, .mark .braceOpen] := by
  apply (passes_peek .braceOpen).fails
  intro _ hpeek
  rw [if_neg (by simp [hpeek])]
  apply (passes_peekDescription "type").fails
  intro _ hdescribed
  subst hdescribed
  refine passes_current.fails fun token (htoken : token.lexeme = .name "type") => ?_
  simp only [htoken]
  apply (passes_description_name "type").fails
  intro _ hnone
  rw [hnone]
  exact (fails_typeDef name hbound).bind

/-- The lexemes of bare types, and those of an object type up to its first field. -/
def lexemesUpTo (types : List TypeDef) (name : String) : List Lexeme :=
  types.flatMap TypeDef.lexemes ++ [.name "type", .name name, .mark .braceOpen]

theorem fails_definition_cons {d : TypeDef} {rest : List TypeDef} {name : String}
    {more : Reader (List Definition)} (h : ∀ e ∈ d :: rest, e.Bare)
    (hbound : d.lexemes.length ≤ bound) (hmore : Fails more (lexemesUpTo rest name)) :
    Fails (do let first ← definition bound; return first :: (← more))
      (lexemesUpTo (d :: rest) name) := by
  have hnext : Opens ((rest.flatMap TypeDef.lexemes).headD (.name "type")) :=
    opens_headD (fun e he => h e (List.mem_cons_of_mem d he)) (.inr (.inl rfl))
  have hsplit : lexemesUpTo (d :: rest) name = d.lexemes ++ lexemesUpTo rest name := by
    simp [lexemesUpTo]
  rw [lexemesUpTo, headD_cons_tail] at hmore
  rw [hsplit, lexemesUpTo, headD_cons_tail]
  exact (passes_definition (h d List.mem_cons_self) hbound hnext).fails fun _ _ => hmore.bind

theorem fails_definitionsUntilEnd {types : List TypeDef} (name : String) (hpositive : 0 < bound)
    (steps : Nat) (h : ∀ d ∈ types, d.Bare) (hbound : ∀ d ∈ types, d.lexemes.length ≤ bound) :
    Fails (definitionsUntilEnd bound steps) (lexemesUpTo types name) := by
  induction types generalizing steps with
  | nil =>
      cases steps with
      | zero => exact fails_refuse
      | succ steps =>
          refine passes_current.fails fun token (htoken : token.lexeme = .name "type") => ?_
          rw [if_neg (by simp [htoken])]
          exact (fails_definition name hpositive).bind
  | cons d rest ih =>
      cases steps with
      | zero => exact fails_refuse
      | succ steps =>
          have hrest := ih steps (fun e he => h e (List.mem_cons_of_mem d he))
            fun e he => hbound e (List.mem_cons_of_mem d he)
          have hfirst := fails_definition_cons h (hbound d List.mem_cons_self) hrest
          obtain ⟨l, ls, hd, -, hend⟩ := opens_lexemes (h d List.mem_cons_self)
          have hsplit : lexemesUpTo (d :: rest) name = l :: (ls ++ lexemesUpTo rest name) := by
            simp [lexemesUpTo, hd]
          rw [hsplit] at hfirst ⊢
          refine passes_current.fails fun token (htoken : token.lexeme = l) => ?_
          rw [if_neg (by simpa [htoken] using hend)]
          exact hfirst

theorem fails_definitions {types : List TypeDef} (name : String) (hpositive : 0 < bound)
    (h : ∀ d ∈ types, d.Bare) (hbound : ∀ d ∈ types, d.lexemes.length ≤ bound) :
    Fails (definitions bound) (lexemesUpTo types name) := by
  cases types with
  | nil => exact (fails_definition name hpositive).bind
  | cons d rest =>
      exact fails_definition_cons h (hbound d List.mem_cons_self)
        (fails_definitionsUntilEnd name hpositive bound
          (fun e he => h e (List.mem_cons_of_mem d he))
          fun e he => hbound e (List.mem_cons_of_mem d he))

/-- Reaching the first token and then failing. -/
theorem run_fails {rule : Nat → Reader α} {scan : Scan} {rest : List Lexeme}
    (options : ReadOptions) (hscan : scan.tokens.map Token.lexeme = l :: ls ++ rest)
    (hbarred : Barred rest scan.fault.isSome)
    (h : Fails (rule (scan.tokens.length + 1)) (l :: ls)) :
    ∃ fault, Reader.run options scan rule = .error fault := by
  obtain ⟨tokens, fault⟩ := scan
  cases tokens with
  | nil => simp at hscan
  | cons token tokens =>
      have hreach := reach_counts token
        ⟨token :: tokens, fault, options.mostTokens.map Int.toNat, options, []⟩
      simp only [Reader.run]
      cases hrun : StateT.run (reach token)
          ⟨token :: tokens, fault, options.mostTokens.map Int.toNat, options, []⟩ with
      | error misreading => exact ⟨misreading, rfl⟩
      | ok answer =>
          obtain ⟨_, feed⟩ := answer
          rw [hrun] at hreach
          obtain ⟨htokens, hfault, -⟩ := hreach
          have hlexemes : feed.lexemes = l :: ls ++ rest := by
            rw [Feed.lexemes, htokens, hscan]
          obtain ⟨misreading, hmisreading⟩ := h feed rest hlexemes (by rwa [hfault])
          refine ⟨misreading, ?_⟩
          simp only [bind, Except.bind]
          rw [hmisreading]

end Reader

/-! ## Documents -/

/-- An object type with one field, up to the name of the field. -/
theorem printBare_field {name field : String} (hname : isName name.toList)
    (hall : field.toList.all isNameContinue) (type : TypeExpr) :
    ∃ front after, Spells front [.name "type", .name name, .mark .braceOpen] ∧
      (TypeDef.printBare ⟨none, name, [], .object []
        [⟨none, field, [], type, none, [], false⟩]⟩).toList =
          front ++ '\n' :: ' ' :: ' ' :: (field.toList ++ ':' :: after) := by
  have hdefault : printDefault none = "" := rfl
  have hdirectives : printDirectives [] = "" := rfl
  have hinterfaces : printInterfaces [] = "" := rfl
  have hparens : inFittedParens [] = "" := rfl
  have hfield : FieldDef.print ⟨none, field, [], type, none, [], false⟩ =
      field ++ ": " ++ type.text := by
    simp only [FieldDef.print, hdefault, hdirectives, join_plain]
    simp [described, wrap, hparens]
  have hnonempty : name ≠ "" := by
    rintro rfl
    simp [isName] at hname
  have hplain : field.toList.flatMap setIn = field.toList :=
    flatMap_setIn_of_plain fun c hc => by
      rintro rfl
      exact absurd (List.all_eq_true.mp hall _ hc) (by decide)
  have hblank : join "\n" [field ++ ": " ++ type.text] = field ++ ": " ++ type.text := by
    simp [join]
  have hcolon : setIn ':' = [':'] := by decide
  have hspace : setIn ' ' = [' '] := by decide
  refine ⟨"type".toList ++ ' ' :: (name.toList ++ [' ', '\x7b']),
    ' ' :: (type.text.toList.flatMap setIn ++ ['\n', '\x7d']), ?_, ?_⟩
  · refine spells_name (by decide) (by simp; decide) (.skip (by decide) ?_)
    refine spells_name hname (by simp; decide) (.skip (by decide) ?_)
    exact .mark rfl .nil
  · simp only [TypeDef.printBare, hdirectives, hinterfaces, List.map_cons, List.map_nil, hfield]
    simp [block, hblank, indent, wrap, hnonempty, hplain, hcolon, hspace, join_cons]

/-- A text behind others that are joined with it. -/
theorem spells_join_front {separator text : String} (hseparator : Separates separator)
    {pieces : List (String × List Lexeme)} (h : ∀ p ∈ pieces, Spells p.1.toList p.2)
    {front rest : List Char} {lexemes : List Lexeme} (hfront : Spells front lexemes)
    (htext : text.toList = front ++ rest) (hne : text ≠ "") (more : List String) :
    ∃ front' rest', (join separator (pieces.map Prod.fst ++ text :: more)).toList =
        front' ++ (rest ++ rest') ∧ Spells front' (pieces.flatMap Prod.snd ++ lexemes) := by
  induction pieces with
  | nil =>
      rw [List.map_nil, List.nil_append, join_cons, if_neg (by simpa using hne)]
      split
      · exact ⟨front, [], by simpa using htext, hfront⟩
      · exact ⟨front, (separator ++ join separator more).toList, by simp [htext], hfront⟩
  | cons piece others ih =>
      obtain ⟨front', rest', hjoin, hspells⟩ := ih fun p hp => h p (List.mem_cons_of_mem piece hp)
      have hpiece := h piece List.mem_cons_self
      rw [List.map_cons, List.cons_append, join_cons, List.flatMap_cons]
      split
      · next hempty =>
          exact ⟨front', rest', hjoin, by rwa [hpiece.eq_nil_of_isEmpty hempty]⟩
      · rw [if_neg (by simp [hne])]
        refine ⟨piece.1.toList ++ (separator.toList ++ front'), rest', by simp [hjoin], ?_⟩
        rw [List.append_assoc]
        exact hpiece.append (hseparator.ends _) (hspells.skipAll hseparator.2)

/-- A document in which bare types stand in front of a type that is spelled in part. -/
theorem spells_print_front {types : List TypeDef} (h : ∀ d ∈ types, d.Bare) {d : TypeDef}
    (hdescription : d.description = none) {front rest : List Char} {lexemes : List Lexeme}
    (hfront : Spells front lexemes) (htext : d.printBare.toList = front ++ rest) (hne : rest ≠ [])
    (more : List TypeDef) :
    ∃ front' rest',
      (Document.ofDefinitions ((types ++ d :: more).map .type)).print.toList =
        front' ++ (rest ++ rest') ∧
      Spells front' (types.flatMap TypeDef.lexemes ++ lexemes) := by
  have hpieces : ∀ p ∈ types.map fun d => (d.printBare, d.lexemes), Spells p.1.toList p.2 := by
    simpa using fun d hd => TypeDef.spells_printBare (h d hd)
  have hempty : d.printBare ≠ "" := by
    intro hempty
    simp [hempty, hne] at htext
  obtain ⟨front', rest', hjoin, hspells⟩ :=
    spells_join_front (show Separates "\n\n" by decide) hpieces hfront htext hempty
      (more.map (Definition.print ∘ Definition.type))
  refine ⟨front', rest', ?_, by simpa [List.flatMap_map] using hspells⟩
  have htypes : types.map (Definition.print ∘ Definition.type) =
      (types.map fun d => (d.printBare, d.lexemes)).map Prod.fst := by
    rw [List.map_map, List.map_inj_left]
    intro d hd
    simp [Definition.print, described, (h d hd).description, wrap]
  rw [← hjoin, Document.print, Document.ofDefinitions, List.map_map, List.map_append,
    List.map_cons, htypes]
  simp [Definition.print, described, hdescription, wrap]

/-- A document in which an object type behind bare types has a field without a name is not read. -/
theorem readDocument_fails {types : List TypeDef} (h : ∀ d ∈ types, d.Bare) {name field : String}
    (hname : isName name.toList) (hall : field.toList.all isNameContinue)
    (hfield : isName field.toList = false) (type : TypeExpr) (more : List TypeDef)
    (options : ReadOptions) :
    ∃ fault, readDocument options (Document.ofDefinitions ((types ++
      ⟨none, name, [], .object [] [⟨none, field, [], type, none, [], false⟩]⟩ :: more).map
        .type)).print = .error fault := by
  obtain ⟨front, after, hfront, htext⟩ := printBare_field hname hall type
  obtain ⟨front', rest', hprint, hspells⟩ :=
    spells_print_front h rfl hfront htext (by simp) more
  simp only [List.cons_append, List.append_assoc] at hprint
  generalize (Document.ofDefinitions _).print = text at hprint ⊢
  have hscans : Scans text.toList fun ls fault =>
      ∃ rest, ls = Reader.lexemesUpTo types name ++ rest ∧ Barred rest fault.isSome := by
    rw [hprint]
    refine Spells.scans hspells (ends_cons.mpr (by decide)) ?_
    refine .skip (by decide) (.skip (by decide) (.skip (by decide) ?_))
    refine (scans_barred hall hfield (after ++ rest')).imp fun ls fault hbarred => ⟨ls, ?_, hbarred⟩
    simp [Reader.lexemesUpTo]
  obtain ⟨rest, hlexemes, hbarred⟩ := hscans _ ⟨1, 1⟩ (Nat.lt_succ_self _)
  obtain ⟨l, ls, hls⟩ : ∃ l ls, Reader.lexemesUpTo types name = l :: ls :=
    List.exists_cons_of_ne_nil (by simp [Reader.lexemesUpTo])
  have hunplaced : ((scan text).tokens.map Token.unplaced).map Token.lexeme =
      l :: ls ++ rest := by
    rw [← hls, ← hlexemes]
    simp [Function.comp_def, Token.unplaced, Scan.bare, scan]
  have hbound : ∀ d ∈ types, d.lexemes.length ≤ (scan text).tokens.length + 1 := by
    intro d hd
    have hone := (Reader.lexemes_bound h).2 d hd
    have hall := congrArg List.length hunplaced
    rw [← hls] at hall
    simp only [List.length_map, List.length_append, Reader.lexemesUpTo] at hall
    omega
  obtain ⟨misreading, hmisreading⟩ := @Reader.run_fails _ _ _ Reader.definitions
    ⟨(scan text).tokens.map Token.unplaced, (scan text).fault⟩ _ options hunplaced
    (by simpa [Scan.bare, scan] using hbarred)
    (by
      rw [← hls]
      exact Reader.fails_definitions name (by simp) h (by simpa using hbound))
  exact ⟨misreading.fault, by simp [readDocument, hmisreading, withoutPlace, bind, Except.bind]⟩

/-- A text whose lexemes are spelled up to a fault is read as far as that. -/
theorem readDocument_faulty {text : String} {c : Char} {front rest : List Char}
    {lexemes : List Lexeme} {lexFault : LexFault} (htext : text.toList = front ++ c :: rest)
    (hfront : Spells front lexemes) (hends : Ends (c :: rest)) (hskip : isSkipped c = false)
    (hcomment : c ≠ '#') (h : takeLexeme (c :: rest) = .error lexFault) (options : ReadOptions) :
    ∃ pos, readDocument options text = do
      let definitions ← withoutPlace (Reader.run options
        ⟨lexemes.map (⟨·, Pos.nowhere⟩), some ⟨lexFault.fault, pos⟩⟩ Reader.definitions)
      return ⟨definitions, !options.withoutPlaces.getD false⟩ := by
  have hscans : Scans text.toList fun ls fault => ls = lexemes ∧ fault = some lexFault.fault := by
    rw [htext]
    exact hfront.scans hends (.faulty hskip hcomment h ⟨List.append_nil _, rfl⟩)
  obtain ⟨hlexemes, hfault⟩ := hscans _ ⟨1, 1⟩ (Nat.lt_succ_self _)
  obtain ⟨misreading, hmisreading, hsame⟩ := Option.map_eq_some_iff.mp hfault
  refine ⟨misreading.pos, ?_⟩
  have htokens : (scan text).tokens.map Token.unplaced = lexemes.map (⟨·, Pos.nowhere⟩) := by
    rw [← hlexemes, Scan.bare, List.map_map]
    rfl
  rw [readDocument, htokens, ← hsame]
  simp only [scan, hmisreading]

end RecordApi.Language
