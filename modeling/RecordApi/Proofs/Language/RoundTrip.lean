import RecordApi.Proofs.Language.Reading

/-!
# Reading printed types

Bare types that are printed and read back are the same types. A text in which a field begins with
neither a name nor a description is not read at all.
-/

namespace RecordApi.Language

namespace Reader

variable {next : Lexeme} {bound : Nat}

/-! ## Types -/

/-- A type up to a mark against null, with the rule for the item of a list. -/
def unmarkedType (item : Reader (TypeExpr × Pos)) : Reader (TypeExpr × Pos) := do
  if ← accept .bracketOpen then
    let (type, pos) ← item
    expect .bracketClose
    return (.list type, pos)
  else
    let base ← name
    return (.named base.text, base.pos)

theorem placedType_succ (bound : Nat) :
    placedType (bound + 1) = do
      let (type, pos) ← unmarkedType (placedType bound)
      if ← accept .bang then return (.nonNull type, pos) else return (type, pos) := by
  rw [placedType, unmarkedType, bind_assoc]
  congr 1
  funext answer
  cases answer <;> simp

theorem passes_placedType_succ {type : TypeExpr} (hnext : next ≠ .mark .bang)
    (h : ∀ next, Passes (unmarkedType (placedType bound)) type.nullable.lexemes next
      (·.1 = type.nullable)) :
    Passes (placedType (bound + 1)) type.lexemes next (·.1 = type) := by
  rw [placedType_succ]
  have hplain {t : TypeExpr} (ht : ∀ next, Passes (unmarkedType (placedType bound)) t.lexemes next
      (·.1 = t)) : Passes (do
        let (type, pos) ← unmarkedType (placedType bound)
        if ← accept .bang then return (.nonNull type, pos) else return (type, pos))
      t.lexemes next (·.1 = t) := by
    rw [← List.append_nil t.lexemes]
    apply (ht _).bind
    intro answer ht'
    obtain ⟨t', pos⟩ := answer
    refine .look (passes_accept_ne hnext) fun answer hanswer => ?_
    rw [if_neg (by simp [hanswer])]
    exact .pure ht'
  cases type with
  | named name => exact hplain h
  | list item => exact hplain h
  | nonNull inner =>
      apply (h _).bind
      intro answer ht
      obtain ⟨t, pos⟩ := answer
      refine .step (passes_accept .bang) fun answer hanswer => ?_
      rw [if_pos hanswer]
      exact .pure (congrArg TypeExpr.nonNull ht)

theorem passes_unmarkedType {type : TypeExpr} (h : type.isWritten)
    (hbound : type.lexemes.length ≤ bound + 1) (next : Lexeme) :
    Passes (unmarkedType (placedType bound)) type.nullable.lexemes next (·.1 = type.nullable) := by
  induction type generalizing bound next with
  | named n =>
      refine .look (passes_accept_ne (by simp [TypeExpr.nullable, TypeExpr.lexemes]))
        fun answer hanswer => ?_
      rw [if_neg (by simp [hanswer])]
      exact .step (passes_name n) fun base hbase => .pure (by rw [hbase]; rfl)
  | list item ih =>
      simp only [TypeExpr.lexemes, List.length_cons, List.length_append, List.length_nil] at hbound
      refine .step (passes_accept .bracketOpen) fun answer hanswer => ?_
      rw [if_pos hanswer]
      cases bound with
      | zero => omega
      | succ bound =>
          have hlength : item.lexemes.length ≤ bound + 1 := by omega
          have hitem : Passes (placedType (bound + 1)) item.lexemes (.mark .bracketClose)
              (·.1 = item) :=
            passes_placedType_succ (by decide) (ih h hlength)
          apply hitem.bind
          intro answer ht
          obtain ⟨t, pos⟩ := answer
          refine .step (passes_expect .bracketClose) fun _ _ => ?_
          exact .pure (congrArg TypeExpr.list ht)
  | nonNull inner ih =>
      simp only [TypeExpr.isWritten, Bool.and_eq_true, Bool.not_eq_true'] at h
      simp only [TypeExpr.lexemes, List.length_append, List.length_cons, List.length_nil] at hbound
      have hlength : inner.lexemes.length ≤ bound + 1 := by omega
      have hinner := ih h.2 hlength next
      have hsame : inner.nullable = inner := by
        cases inner <;> first | rfl | simp [TypeExpr.isNonNull] at h
      rwa [hsame] at hinner

theorem passes_placedType {type : TypeExpr} (h : type.isWritten)
    (hbound : type.lexemes.length ≤ bound) (hnext : next ≠ .mark .bang) :
    Passes (placedType bound) type.lexemes next (·.1 = type) := by
  cases bound with
  | zero => cases type <;> simp [TypeExpr.lexemes] at hbound
  | succ bound => exact passes_placedType_succ hnext (passes_unmarkedType h hbound)

theorem passes_type {type : TypeExpr} (h : type.isWritten) (hbound : type.lexemes.length ≤ bound)
    (hnext : next ≠ .mark .bang) : Passes (Reader.type bound) type.lexemes next (· = type) := by
  rw [← List.append_nil type.lexemes]
  apply (passes_placedType h hbound hnext).bind
  intro answer hanswer
  obtain ⟨t, pos⟩ := answer
  exact .look (passes_note pos) fun _ _ => .pure hanswer

/-! ## Fields -/

theorem passes_directives {constant : Bool} (hbound : 0 < bound) (hnext : next ≠ .mark .atSign) :
    Passes (directives constant bound) [] next (· = []) := by
  cases bound with
  | zero => omega
  | succ bound =>
      refine .look (passes_peek .atSign) fun answer hanswer => ?_
      rw [if_neg (by simpa [hanswer] using hnext)]
      exact .pure rfl

theorem passes_description (text : String) :
    Passes description [.string text] next (· = some ⟨text, false⟩) :=
  .look passes_current fun token (htoken : token.lexeme = .string text) => by
    rw [htoken]
    exact .step passes_advance fun _ _ => .pure rfl

theorem passes_description_name (n : String) : Passes description [] (.name n) (· = none) :=
  .look passes_current fun token (htoken : token.lexeme = .name n) => by
    rw [htoken]
    exact .pure rfl

theorem passes_inputDef {d : InputDef} (h : d.Bare) (hbound : d.lexemes.length ≤ bound)
    (hnext : Stops next) : Passes (inputDef bound) d.lexemes next (· = d) := by
  obtain ⟨description, name, type, default, directives⟩ := d
  obtain rfl := h.default
  obtain rfl := h.directives
  simp only [InputDef.lexemes, List.length_append, List.length_cons] at hbound ⊢
  have hdescription : Passes Reader.description
      ((description.map fun text => Lexeme.string text.text).toList) (.name name)
      (· = description) := by
    cases description with
    | none => exact passes_description_name name
    | some text =>
        obtain ⟨text, block⟩ := text
        obtain rfl := (h.description _ rfl).1
        exact passes_description text
  apply hdescription.bind
  intro _ hanswer
  refine .step (passes_nameText name) fun _ hname => ?_
  refine .step (passes_expect .colon) fun _ _ => ?_
  have hlength : type.lexemes.length ≤ bound := by omega
  rw [← List.append_nil type.lexemes]
  apply (passes_type h.type hlength hnext.1).bind
  intro _ htype
  refine .look (passes_accept_ne hnext.2.1) fun _ hequals => ?_
  rw [if_neg (by simp [hequals])]
  refine .look (.pure rfl) fun _ hdefault => ?_
  apply (passes_directives (by omega) hnext.2.2).map
  intro _ hdirectives
  rw [hanswer, hname, htype, ← hdefault, hdirectives]

theorem begins_inputDef (d : InputDef) : ∃ l ls, d.lexemes = l :: ls ∧ Begins l := by
  cases hd : d.description with
  | none => exact ⟨.name d.name, .mark .colon :: d.type.lexemes, by simp [InputDef.lexemes, hd],
      trivial⟩
  | some text => exact ⟨.string text.text, .name d.name :: .mark .colon :: d.type.lexemes,
      by simp [InputDef.lexemes, hd], trivial⟩

theorem begins_fieldDef (d : FieldDef) : ∃ l ls, d.lexemes = l :: ls ∧ Begins l :=
  ⟨.name d.name, _, rfl, trivial⟩

section Items

variable {α : Type} {item : Nat → Reader α} {items : List α} {lexemes : α → List Lexeme}
  {opening close : Mark}

theorem length_le_of_flatMap (hbegin : ∀ x ∈ items, ∃ l ls, lexemes x = l :: ls ∧ Begins l) :
    items.length ≤ (items.flatMap lexemes).length ∧
      ∀ x ∈ items, (lexemes x).length ≤ (items.flatMap lexemes).length := by
  induction items with
  | nil => simp
  | cons x rest ih =>
      obtain ⟨hlength, hmember⟩ := ih fun y hy => hbegin y (List.mem_cons_of_mem x hy)
      obtain ⟨l, ls, hx, -⟩ := hbegin x List.mem_cons_self
      simp only [List.flatMap_cons, List.length_append, hx, List.length_cons]
      refine ⟨by omega, fun y hy => ?_⟩
      rcases List.mem_cons.mp hy with rfl | hy
      · simp [hx]
      · have := hmember y hy
        omega

/-- Items between two marks, each read within the bound. -/
theorem passes_enclosed (hclose : Stops (.mark close)) (hnext : next ≠ .mark opening)
    (hitem : ∀ x ∈ items, ∀ bound, (lexemes x).length ≤ bound → ∀ next, Stops next →
      Passes (item bound) (lexemes x) next (· = x))
    (hbegin : ∀ x ∈ items, ∃ l ls, lexemes x = l :: ls ∧ Begins l)
    (hbound : (enclosed opening close (items.flatMap lexemes)).length ≤ bound) :
    Passes (optionalMany bound opening close (item bound))
      (enclosed opening close (items.flatMap lexemes)) next (· = items) := by
  obtain ⟨hlength, hmember⟩ := length_le_of_flatMap hbegin
  have hflat : (items.flatMap lexemes).length ≤ bound := by
    unfold enclosed at hbound
    split at hbound
    · next hempty => simp [List.isEmpty_iff.mp hempty]
    · simp only [List.length_cons, List.length_append] at hbound
      omega
  exact passes_optionalMany hclose hnext
    (fun x hx => hitem x hx bound (Nat.le_trans (hmember x hx) hflat)) hbegin
    (Nat.le_trans hlength hflat)

end Items

theorem passes_fieldDef {d : FieldDef} (h : d.Bare) (hbound : d.lexemes.length ≤ bound)
    (hnext : Stops next) : Passes (fieldDef bound) d.lexemes next (· = d) := by
  obtain ⟨description, name, arguments, type, default, directives, takenOver⟩ := d
  obtain rfl := h.description
  obtain rfl := h.default
  obtain rfl := h.directives
  obtain rfl := h.takenOver
  simp only [FieldDef.lexemes, List.length_append, List.length_cons] at hbound ⊢
  have hlength : type.lexemes.length ≤ bound := by omega
  have harguments : Passes (optionalMany bound .parenOpen .parenClose (inputDef bound))
      (enclosed .parenOpen .parenClose (arguments.flatMap InputDef.lexemes)) (.mark .colon)
      (· = arguments) :=
    passes_enclosed (by simp [Stops]) (by decide)
      (fun a ha bound hbound next hnext => passes_inputDef (h.arguments a ha) hbound hnext)
      (fun a _ => begins_inputDef a) (by omega)
  refine .look (passes_description_name name) fun _ hdescription => ?_
  refine .step (passes_nameText name) fun _ hname => ?_
  apply harguments.bind
  intro _ harguments
  refine .step (passes_expect .colon) fun _ _ => ?_
  rw [← List.append_nil type.lexemes]
  apply (passes_type h.type hlength hnext.1).bind
  intro _ htype
  apply (passes_directives (by omega) hnext.2.2).map
  intro _ hdirectives
  rw [hdescription, hname, harguments, htype, hdirectives]

/-! ## Definitions -/

/-- Whether the definition of a bare type or the end of the text may follow. -/
def Opens (l : Lexeme) : Prop :=
  l = .endOfText ∨ l = .name "type" ∨ l = .name "input"

theorem Opens.ne_mark (h : Opens next) (m : Mark) : next ≠ .mark m := by
  rcases h with rfl | rfl | rfl <;> simp

/-- Neither interfaces nor directives come after the name of a bare type. -/
theorem Opens.headD_enclosed (h : Opens next) (close : Mark) (ls : List Lexeme) :
    (enclosed .braceOpen close ls).headD next ≠ .name "implements" ∧
      (enclosed .braceOpen close ls).headD next ≠ .mark .atSign := by
  unfold enclosed
  split
  · rcases h with rfl | rfl | rfl <;> simp
  · simp

theorem passes_interfaces (hnext : next ≠ .name "implements") :
    Passes (interfaces bound) [] next (· = []) := by
  refine .look (passes_acceptWord_ne hnext) fun _ hanswer => ?_
  rw [if_neg (by simp [hanswer])]
  exact .pure rfl

theorem passes_typeDef_object {name : String} {fields : List FieldDef}
    (hfields : ∀ f ∈ fields, f.Bare)
    (hbound : (enclosed .braceOpen .braceClose (fields.flatMap FieldDef.lexemes)).length < bound)
    (hnext : Opens next) :
    Passes (typeDef bound "type" none)
      (.name "type" :: .name name ::
        enclosed .braceOpen .braceClose (fields.flatMap FieldDef.lexemes)) next
      (· = ⟨none, name, [], .object [] fields⟩) := by
  have hblock : Passes (optionalMany bound .braceOpen .braceClose (fieldDef bound))
      (enclosed .braceOpen .braceClose (fields.flatMap FieldDef.lexemes)) next (· = fields) :=
    passes_enclosed (by simp [Stops]) (hnext.ne_mark _)
      (fun f hf bound hbound next hnext => passes_fieldDef (hfields f hf) hbound hnext)
      (fun f _ => begins_fieldDef f) (Nat.le_of_lt hbound)
  obtain ⟨himplements, hat⟩ := hnext.headD_enclosed .braceClose (fields.flatMap FieldDef.lexemes)
  refine .step (passes_expectWord "type") fun _ _ => ?_
  refine .step (passes_nameText name) fun _ hname => ?_
  simp only [beq_self_eq_true, Bool.true_or, if_true]
  refine .look (passes_interfaces himplements) fun _ hinterfaces => ?_
  refine .look (passes_directives (Nat.zero_lt_of_lt hbound) hat) fun _ hdirectives => ?_
  exact hblock.map fun _ hfields => by rw [hname, hinterfaces, hdirectives, hfields]

theorem passes_typeDef_input {name : String} {fields : List InputDef}
    (hfields : ∀ f ∈ fields, f.Bare)
    (hbound : (enclosed .braceOpen .braceClose (fields.flatMap InputDef.lexemes)).length < bound)
    (hnext : Opens next) :
    Passes (typeDef bound "input" none)
      (.name "input" :: .name name ::
        enclosed .braceOpen .braceClose (fields.flatMap InputDef.lexemes)) next
      (· = ⟨none, name, [], .input fields⟩) := by
  have hblock : Passes (optionalMany bound .braceOpen .braceClose (inputDef bound))
      (enclosed .braceOpen .braceClose (fields.flatMap InputDef.lexemes)) next (· = fields) :=
    passes_enclosed (by simp [Stops]) (hnext.ne_mark _)
      (fun f hf bound hbound next hnext => passes_inputDef (hfields f hf) hbound hnext)
      (fun f _ => begins_inputDef f) (Nat.le_of_lt hbound)
  obtain ⟨-, hat⟩ := hnext.headD_enclosed .braceClose (fields.flatMap InputDef.lexemes)
  refine .step (passes_expectWord "input") fun _ _ => ?_
  refine .step (passes_nameText name) fun _ hname => ?_
  refine .look (.pure rfl) fun _ _ => ?_
  refine .look (passes_directives (Nat.zero_lt_of_lt hbound) hat) fun _ hdirectives => ?_
  exact hblock.map fun _ hfields => by rw [hname, hdirectives, hfields]

theorem passes_peekDescription (n : String) : Passes peekDescription [] (.name n) (· = false) :=
  .look passes_current fun token (htoken : token.lexeme = .name n) => by
    rw [htoken]
    exact .pure rfl

/-- A definition that begins with the word for a kind of type is read by the rule for types. -/
theorem passes_definition_word {word : String} {ls : List Lexeme} {d : TypeDef}
    (hword : word ∈ ["type", "input"])
    (h : Passes (typeDef bound word none) (.name word :: ls) next (· = d)) :
    Passes (definition bound) (.name word :: ls) next (· = .type d) := by
  refine .look (passes_peek .braceOpen) fun _ hpeek => ?_
  rw [if_neg (by simp [hpeek])]
  refine .look (passes_peekDescription word) fun _ hdescribed => ?_
  subst hdescribed
  refine .look passes_current fun token (htoken : token.lexeme = .name word) => ?_
  have hkinds : (word == "schema") = false ∧ (word == "directive") = false ∧
      typeWords.contains word = true := by
    simp only [List.mem_cons, List.not_mem_nil, or_false] at hword
    rcases hword with rfl | rfl <;> decide
  simp only [htoken, hkinds, if_true, Bool.false_eq_true, if_false]
  refine .look (passes_description_name word) fun _ hnone => ?_
  rw [hnone]
  exact h.map fun _ hd => by rw [hd]

/-- The definition of a bare type is read back. -/
theorem passes_definition {d : TypeDef} (h : d.Bare) (hbound : d.lexemes.length ≤ bound)
    (hnext : Opens next) : Passes (definition bound) d.lexemes next (· = .type d) := by
  obtain ⟨description, name, directives, body⟩ := d
  obtain rfl := h.description
  obtain rfl := h.directives
  rcases h.body with ⟨fields, rfl, hfields⟩ | ⟨fields, rfl, hfields⟩
  · simp only [TypeDef.lexemes, List.length_cons] at hbound ⊢
    exact passes_definition_word (by simp) (passes_typeDef_object hfields (by omega) hnext)
  · simp only [TypeDef.lexemes, List.length_cons] at hbound ⊢
    exact passes_definition_word (by simp) (passes_typeDef_input hfields (by omega) hnext)

theorem opens_lexemes {d : TypeDef} (h : d.Bare) :
    ∃ l ls, d.lexemes = l :: ls ∧ Opens l ∧ l ≠ .endOfText := by
  rcases h.body with ⟨fields, hbody, -⟩ | ⟨fields, hbody, -⟩
  · exact ⟨.name "type", _, by rw [TypeDef.lexemes, hbody], .inr (.inl rfl), by simp⟩
  · exact ⟨.name "input", _, by rw [TypeDef.lexemes, hbody], .inr (.inr rfl), by simp⟩

theorem opens_headD {types : List TypeDef} (h : ∀ d ∈ types, d.Bare) (hnext : Opens next) :
    Opens ((types.flatMap TypeDef.lexemes).headD next) := by
  cases types with
  | nil => exact hnext
  | cons d rest =>
      obtain ⟨l, ls, hd, hl, -⟩ := opens_lexemes (h d List.mem_cons_self)
      simpa [hd] using hl

/-- A type, and then the definitions that follow it. -/
theorem passes_definition_cons {d : TypeDef} {rest : List TypeDef}
    {more : Reader (List Definition)} (h : ∀ e ∈ d :: rest, e.Bare)
    (hbound : d.lexemes.length ≤ bound)
    (hmore : Passes more (rest.flatMap TypeDef.lexemes) .endOfText (· = rest.map .type)) :
    Passes (do let first ← definition bound; return first :: (← more))
      ((d :: rest).flatMap TypeDef.lexemes) .endOfText (· = (d :: rest).map .type) := by
  have hnext := opens_headD (fun e he => h e (List.mem_cons_of_mem d he)) (.inl rfl)
  rw [List.flatMap_cons]
  apply (passes_definition (h d List.mem_cons_self) hbound hnext).bind
  intro first hfirst
  exact hmore.map fun more hmore => by rw [hfirst, hmore, List.map_cons]

/-- The types up to the end of the text. -/
theorem passes_definitionsUntilEnd {types : List TypeDef} {steps : Nat} (h : ∀ d ∈ types, d.Bare)
    (hbound : ∀ d ∈ types, d.lexemes.length ≤ bound) (hsteps : types.length < steps) :
    Passes (definitionsUntilEnd bound steps) (types.flatMap TypeDef.lexemes) .endOfText
      (· = types.map .type) := by
  induction types generalizing steps with
  | nil =>
      cases steps with
      | zero => simp at hsteps
      | succ steps =>
          refine .look passes_current fun token (htoken : token.lexeme = .endOfText) => ?_
          rw [if_pos (by simp [htoken])]
          exact .pure rfl
  | cons d rest ih =>
      cases steps with
      | zero => simp at hsteps
      | succ steps =>
          have hrest := ih (fun e he => h e (List.mem_cons_of_mem d he))
            (fun e he => hbound e (List.mem_cons_of_mem d he)) (Nat.lt_of_succ_lt_succ hsteps)
          obtain ⟨l, ls, hd, -, hend⟩ := opens_lexemes (h d List.mem_cons_self)
          refine .look passes_current fun token htoken => ?_
          rw [if_neg (by simpa [htoken, hd] using hend)]
          exact passes_definition_cons h (hbound d List.mem_cons_self) hrest

/-- All lexemes of types are within the bound, and so are the types. -/
theorem lexemes_bound {types : List TypeDef} (h : ∀ d ∈ types, d.Bare) :
    types.length ≤ (types.flatMap TypeDef.lexemes).length ∧
      ∀ d ∈ types, d.lexemes.length ≤ (types.flatMap TypeDef.lexemes).length := by
  induction types with
  | nil => simp
  | cons d rest ih =>
      obtain ⟨hlength, hmember⟩ := ih fun e he => h e (List.mem_cons_of_mem d he)
      obtain ⟨l, ls, hd, -⟩ := opens_lexemes (h d List.mem_cons_self)
      simp only [List.flatMap_cons, List.length_append, hd, List.length_cons]
      refine ⟨by omega, fun e he => ?_⟩
      rcases List.mem_cons.mp he with rfl | he
      · simp [hd]
      · have := hmember e he
        omega

theorem passes_definitions {types : List TypeDef} (hne : types ≠ []) (h : ∀ d ∈ types, d.Bare)
    (hbound : (types.flatMap TypeDef.lexemes).length < bound) :
    Passes (definitions bound) (types.flatMap TypeDef.lexemes) .endOfText
      (· = types.map .type) := by
  obtain ⟨hlength, hmember⟩ := lexemes_bound h
  cases types with
  | nil => exact absurd rfl hne
  | cons d rest =>
      have hlengths : ∀ e ∈ d :: rest, e.lexemes.length ≤ bound := fun e he =>
        Nat.le_of_lt (Nat.lt_of_le_of_lt (hmember e he) hbound)
      have hrest : Passes (definitionsUntilEnd bound bound) (rest.flatMap TypeDef.lexemes)
          .endOfText (· = rest.map .type) :=
        passes_definitionsUntilEnd (fun e he => h e (List.mem_cons_of_mem d he))
          (fun e he => hlengths e (List.mem_cons_of_mem d he))
          (by simp only [List.length_cons] at hlength; omega)
      exact passes_definition_cons h (hlengths d List.mem_cons_self) hrest

end Reader

/-! ## Documents -/

theorem spells_printed_types {types : List TypeDef} (h : ∀ d ∈ types, d.Bare) :
    Spells (Document.ofDefinitions (types.map .type)).print.toList
      (types.flatMap TypeDef.lexemes) := by
  have hprint : (types.map Definition.type).map Definition.print = types.map TypeDef.printBare := by
    rw [List.map_map, List.map_inj_left]
    intro d hd
    simp [Definition.print, described, (h d hd).description, Layout.wrap]
  rw [Document.print, Document.ofDefinitions, hprint]
  exact spells_join_map (by decide) fun d hd => TypeDef.spells_printBare (h d hd)

namespace Reader

/-- Reaching the first token and then going past all lexemes. A limit on tokens is met just if it
allows for all lexemes. -/
theorem run_passes {α : Type} {rule : Nat → Reader α} {scan : Scan} {ls : List Lexeme}
    {good : α → Prop} (options : ReadOptions)
    (hscan : scan.tokens.map Token.lexeme = ls ++ [.endOfText])
    (h : Passes (rule (scan.tokens.length + 1)) ls .endOfText good) :
    match Reader.run options scan rule with
    | .error _ => ∃ n, options.mostTokens = some n ∧ n.toNat < counted ls
    | .ok a => good a ∧ ∀ n, options.mostTokens = some n → counted ls ≤ n.toNat := by
  obtain ⟨tokens, fault⟩ := scan
  cases tokens with
  | nil => simp at hscan
  | cons token tokens =>
      have htotal : counted [token.lexeme] + cost ls .endOfText = counted ls := by
        calc
          counted [token.lexeme] + cost ls .endOfText =
              counted ([token.lexeme] ++ tokens.map Token.lexeme) := by
            rw [counted_append, cost, ← hscan]
            rfl
          _ = counted (ls ++ [.endOfText]) := by
            rw [← hscan]
            rfl
          _ = counted ls := by simp [counted]
      have hreach := reach_counts token
        ⟨token :: tokens, fault, options.mostTokens.map Int.toNat, options, []⟩
      simp only [Reader.run]
      cases hrun : StateT.run (reach token)
          ⟨token :: tokens, fault, options.mostTokens.map Int.toNat, options, []⟩ with
      | error misreading =>
          rw [hrun] at hreach
          obtain ⟨n, hn, hless⟩ := hreach
          obtain ⟨most, hmost, rfl⟩ := Option.map_eq_some_iff.mp hn
          exact ⟨most, hmost, by omega⟩
      | ok answer =>
          obtain ⟨_, feed⟩ := answer
          rw [hrun] at hreach
          obtain ⟨htokens, -, hallow⟩ := hreach
          have hlexemes : feed.lexemes = ls ++ [.endOfText] := by
            rw [Feed.lexemes, htokens, hscan]
          have hrule := h feed [] hlexemes
          simp only [bind, Except.bind]
          cases hanswer : StateT.run (rule ((token :: tokens).length + 1)) feed with
          | error misreading =>
              rw [hanswer] at hrule
              obtain ⟨n, hn, hless⟩ := hrule
              rw [hn, Option.map_some] at hallow
              obtain ⟨most, hmost, hsame⟩ := Option.map_eq_some_iff.mp hallow
              exact ⟨most, hmost, by omega⟩
          | ok answer =>
              obtain ⟨a, rest⟩ := answer
              rw [hanswer] at hrule
              obtain ⟨ha, -, -, hspent⟩ := hrule
              refine ⟨ha, fun most hmost => ?_⟩
              rw [hspent, hmost, Option.map_some, Option.map_map] at hallow
              obtain ⟨n, -, hsame⟩ := Option.map_eq_some_iff.mp hallow.symm
              simp only [Function.comp_apply] at hsame
              omega

end Reader

theorem scan_lexemes {text : String} {ls : List Lexeme} (h : Spells text.toList ls) :
    (scan text).tokens.map Token.lexeme = ls ++ [.endOfText] := by
  have hscans : Scans (text.toList ++ [])
      fun found _ => found = ls ++ [.endOfText] :=
    h.scans ends_nil (scans_nil rfl)
  rw [List.append_nil] at hscans
  exact hscans _ _ (Nat.lt_succ_self _)

/-- Bare types that are printed are read back, unless there is a limit on tokens that does not allow
for their lexemes. -/
theorem readDocument_print {types : List TypeDef} (hne : types ≠ []) (h : ∀ d ∈ types, d.Bare)
    (options : ReadOptions) :
    match readDocument options (Document.ofDefinitions (types.map .type)).print with
    | .error _ => ∃ n, options.mostTokens = some n ∧
        n.toNat < Reader.counted (types.flatMap TypeDef.lexemes)
    | .ok document => document.definitions = types.map .type ∧
        ∀ n, options.mostTokens = some n →
          Reader.counted (types.flatMap TypeDef.lexemes) ≤ n.toNat := by
  have hlexemes := scan_lexemes (spells_printed_types h)
  generalize (Document.ofDefinitions (types.map Definition.type)).print = text at hlexemes ⊢
  have hlength : (types.flatMap TypeDef.lexemes).length < (scan text).tokens.length + 1 := by
    have hsame := congrArg List.length hlexemes
    simp only [List.length_map, List.length_append, List.length_cons, List.length_nil] at hsame
    omega
  have hunplaced : ((scan text).tokens.map Token.unplaced).map Token.lexeme =
      types.flatMap TypeDef.lexemes ++ [.endOfText] := by
    simpa [Function.comp_def, Token.unplaced] using hlexemes
  have hrun := @Reader.run_passes _ Reader.definitions
    ⟨(scan text).tokens.map Token.unplaced, (scan text).fault⟩ _ _ options hunplaced
    (Reader.passes_definitions hne h (by simpa using hlength))
  simp only [readDocument]
  cases hcase : Reader.run options
      ⟨(scan text).tokens.map Token.unplaced, (scan text).fault⟩ Reader.definitions with
  | error misreading =>
      rw [hcase] at hrun
      exact hrun
  | ok definitions =>
      rw [hcase] at hrun
      exact hrun

end RecordApi.Language
