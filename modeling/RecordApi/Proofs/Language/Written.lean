import RecordApi.Proofs.Language.RoundTrip
import RecordApi.Proofs.Merging
import RecordApi.Source

/-!
# Names of documents

What a document calls by name is called by names when the document is read from a text, and merging
documents keeps this.
-/

namespace RecordApi.Language

/-- The types that a schema definition names for its roots. -/
def Definition.rootTypes : Definition → List String
  | .schema d => d.roots.map (·.type)
  | _ => []

/-- Whether the names and the types of a definition are such as a text spells them. -/
structure Definition.Written (d : Definition) : Prop where
  name : ∀ name ∈ d.name?, isName name.toList
  fields : ∀ f ∈ d.fields, isName f.name.toList ∧ f.type.isWritten
  rootTypes : ∀ name ∈ d.rootTypes, isName name.toList

instance (d : Definition) : Decidable d.Written :=
  decidable_of_iff ((∀ name ∈ d.name?, isName name.toList) ∧
    (∀ f ∈ d.fields, isName f.name.toList ∧ f.type.isWritten) ∧
    ∀ name ∈ d.rootTypes, isName name.toList)
    ⟨fun ⟨hname, hfields, hroots⟩ => ⟨hname, hfields, hroots⟩,
      fun ⟨hname, hfields, hroots⟩ => ⟨hname, hfields, hroots⟩⟩

/-- Whether the names and the types of a document are such as a text spells them. -/
def Document.Written (document : Document) : Prop :=
  ∀ d ∈ document.definitions, d.Written

instance (document : Document) : Decidable document.Written :=
  inferInstanceAs (Decidable (∀ d ∈ document.definitions, d.Written))

theorem mem_types {document : Document} {d : TypeDef} :
    d ∈ document.types ↔ .type d ∈ document.definitions := by
  rw [Document.types, List.mem_filterMap]
  constructor
  · rintro ⟨definition, hdefinition, hd⟩
    cases definition <;> simp_all
  · exact fun hd => ⟨_, hd, rfl⟩

/-! ## Lexemes -/

/-- Whether a lexeme that is a name has the form of one. -/
def Lexeme.Named (l : Lexeme) : Prop :=
  ∀ text, l = .name text → isName text.toList

theorem takeLexeme_named {cs rest : List Char} {l : Lexeme} (h : takeLexeme cs = .ok (l, rest)) :
    l.Named := by
  unfold takeLexeme at h
  split at h
  · obtain ⟨rfl, -⟩ := Prod.mk.inj (Except.ok.inj h)
    simp [Lexeme.Named]
  · obtain ⟨_, -, h⟩ := bind_eq_ok.mp h
    obtain ⟨rfl, -⟩ := Prod.mk.inj (Except.ok.inj h)
    simp [Lexeme.Named]
  · obtain ⟨_, -, h⟩ := bind_eq_ok.mp h
    obtain ⟨rfl, -⟩ := Prod.mk.inj (Except.ok.inj h)
    simp [Lexeme.Named]
  · obtain ⟨rfl, -⟩ := Prod.mk.inj (Except.ok.inj h)
    simp [Lexeme.Named]
  · next c rest' _ _ _ =>
      split at h
      · obtain ⟨rfl, -⟩ := Prod.mk.inj (Except.ok.inj h)
        simp [Lexeme.Named]
      · split at h
        · obtain ⟨_, rfl | rfl⟩ := takeNumber_eq_ok h <;> simp [Lexeme.Named]
        · split at h
          · next hstart =>
              obtain ⟨rfl, -⟩ := Prod.mk.inj (Except.ok.inj h)
              rintro text ⟨⟩
              have hcontinue : isNameContinue c := by simp [isNameContinue, hstart]
              simp [isName, hcontinue, hstart, List.all_takeWhile]
          · split at h <;> simp [faultBefore] at h

theorem scanFrom_named (steps : Nat) (pos : Pos) (cs : List Char) :
    ∀ token ∈ (scanFrom steps pos cs).tokens, token.lexeme.Named := by
  induction steps generalizing pos cs with
  | zero => simp [scanFrom]
  | succ steps ih =>
      unfold scanFrom
      split
      · exact ih _ _
      · simp [Lexeme.Named]
      · split
        · exact ih _ _
        · split
          · simp
          · next l rest htake =>
              intro token htoken
              rcases List.mem_cons.mp htoken with rfl | htoken
              · exact takeLexeme_named htake
              · exact ih _ _ token htoken

namespace Reader

variable {α β : Type} {rule : Reader α} {f : α → Reader β} {good : α → Prop} {fine : β → Prop}
  {bound : Nat}

/-! ## Sequences of rules -/

/-- Whether the names among the remaining tokens have the form of one. -/
def Named (feed : Feed) : Prop :=
  ∀ token ∈ feed.tokens, token.lexeme.Named

/-- The rule keeps the names among the remaining tokens, and what it answers is good. -/
def Yields (rule : Reader α) (good : α → Prop) : Prop :=
  ∀ (feed : Feed) a rest, Named feed → StateT.run rule feed = .ok (a, rest) → Named rest ∧ good a

/-- The rule keeps the names among the remaining tokens. -/
abbrev Keeps (rule : Reader α) : Prop :=
  Yields rule fun _ => True

theorem Yields.pure {a : α} (h : good a) : Yields (pure a) good := by
  intro feed b rest hfeed hrun
  obtain ⟨rfl, rfl⟩ := Prod.mk.inj (Except.ok.inj hrun)
  exact ⟨hfeed, h⟩

theorem Yields.bind (hrule : Yields rule good) (hf : ∀ a, good a → Yields (f a) fine) :
    Yields (rule >>= f) fine := by
  intro feed b rest hfeed hrun
  rw [run_bind] at hrun
  cases hfirst : StateT.run rule feed with
  | error fault => simp [hfirst] at hrun
  | ok answer =>
      obtain ⟨a, middle⟩ := answer
      rw [hfirst] at hrun
      obtain ⟨hmiddle, ha⟩ := hrule feed a middle hfeed hfirst
      exact hf a ha middle b rest hmiddle hrun

theorem Yields.imp {other : α → Prop} (h : Yields rule good) (hgood : ∀ a, good a → other a) :
    Yields rule other := by
  intro feed a rest hfeed hrun
  obtain ⟨hrest, ha⟩ := h feed a rest hfeed hrun
  exact ⟨hrest, hgood a ha⟩

theorem Yields.keeps (h : Yields rule good) : Keeps rule :=
  h.imp fun _ _ => trivial

theorem named_of_keeps {feed rest : Feed} {a : α} (hrule : Keeps rule) (hfeed : Named feed)
    (hrun : StateT.run rule feed = .ok (a, rest)) : Named rest :=
  (hrule feed a rest hfeed hrun).1

/-- A rule whose answer does not matter in front of others. -/
theorem Yields.next (hrule : Yields rule good) (hf : ∀ a, Yields (f a) fine) :
    Yields (rule >>= f) fine :=
  hrule.bind fun a _ => hf a

theorem Yields.map {g : α → β} (hrule : Yields rule good) (hg : ∀ a, good a → fine (g a)) :
    Yields (g <$> rule) fine := by
  rw [← bind_pure_comp]
  exact hrule.bind fun a ha => .pure (hg a ha)

theorem Yields.ite {c : Prop} [Decidable c] {other : Reader α} (hrule : Yields rule good)
    (hother : Yields other good) : Yields (if c then rule else other) good := by
  split
  · exact hrule
  · exact hother

/-- Either of two rules in front of others. -/
theorem Yields.join {c : Prop} [Decidable c] {other : Reader α} (hrule : Yields rule good)
    (hother : Yields other good) (hf : ∀ a, good a → Yields (f a) fine) :
    Yields (if c then rule >>= f else other >>= f) fine :=
  .ite (hrule.bind hf) (hother.bind hf)

theorem yields_failAt (pos : Pos) (fault : ReadFault) :
    Yields (failAt pos fault : Reader α) good := by
  intro feed a rest _ hrun
  cases hrun

/-! ## Single tokens -/

theorem yields_get : Yields get Named := by
  rintro feed a rest hfeed ⟨⟩
  exact ⟨hfeed, hfeed⟩

theorem keeps_set {feed : Feed} (h : Named feed) : Keeps (set feed) := by
  rintro feed' a rest - ⟨⟩
  exact ⟨h, trivial⟩

theorem keeps_modify {g : Feed → Feed} (h : ∀ feed, Named feed → Named (g feed)) :
    Keeps (modify g) := by
  rintro feed a rest hfeed ⟨⟩
  exact ⟨h feed hfeed, trivial⟩

theorem yields_current : Yields current fun token => token.lexeme.Named := by
  rintro feed token rest hfeed ⟨⟩
  refine ⟨hfeed, ?_⟩
  cases htokens : feed.tokens with
  | nil => simp [Lexeme.Named]
  | cons first more => exact hfeed first (htokens ▸ List.mem_cons_self)

theorem keeps_here : Keeps here :=
  yields_current.next fun _ => .pure trivial

theorem yields_fail (fault : ReadFault) : Yields (fail fault : Reader α) good :=
  keeps_here.next fun pos => yields_failAt pos fault

theorem yields_refuse : Yields (refuse : Reader α) good :=
  yields_current.next fun token => yields_fail (.unexpected token.lexeme)

theorem keeps_reach (token : Token) : Keeps (reach token) := by
  apply yields_get.bind
  intro feed hfeed
  split
  · exact .pure trivial
  · exact .pure trivial
  · exact yields_failAt _ _
  · exact keeps_set hfeed

theorem keeps_advance : Keeps advance := by
  apply yields_get.bind
  intro feed hfeed
  split
  · next token next more htokens =>
      have hmore : ∀ token ∈ next :: more, token.lexeme.Named := fun token htoken =>
        hfeed token (htokens ▸ List.mem_cons_of_mem _ htoken)
      exact (keeps_reach next).next fun _ => keeps_modify fun _ _ => hmore
  · apply yields_get.next
    intro feed
    split
    · exact yields_failAt _ _
    · exact .pure trivial

theorem yields_lookahead : Yields lookahead fun token => token.lexeme.Named := by
  apply yields_get.bind
  intro feed hfeed
  split
  · next token next more htokens => exact .pure (hfeed next (by simp [htokens]))
  · next token htokens =>
      split
      · exact yields_failAt _ _
      · exact .pure (hfeed token (by simp [htokens]))
  · exact .pure (by simp [Lexeme.Named])

theorem keeps_peek (m : Mark) : Keeps (peek m) :=
  yields_current.next fun _ => .pure trivial

theorem keeps_peekName : Keeps peekName := by
  apply yields_current.next
  intro token
  split <;> exact .pure trivial

theorem keeps_expect (m : Mark) : Keeps (expect m) :=
  yields_current.next fun _ => .ite keeps_advance (yields_fail _)

theorem keeps_accept (m : Mark) : Keeps (accept m) :=
  (keeps_peek m).next fun _ => .ite (keeps_advance.next fun _ => .pure trivial) (.pure trivial)

theorem keeps_expectWord (word : String) : Keeps (expectWord word) :=
  yields_current.next fun _ => .ite keeps_advance (yields_fail _)

theorem keeps_acceptWord (word : String) : Keeps (acceptWord word) :=
  yields_current.next fun _ => .ite (keeps_advance.next fun _ => .pure trivial) (.pure trivial)

theorem yields_name : Yields name fun n => isName n.text.toList := by
  apply yields_current.bind
  intro token htoken
  split
  · next text hlexeme => exact keeps_advance.next fun _ => .pure (htoken text hlexeme)
  · exact yields_fail _

theorem yields_nameText : Yields nameText fun text => isName text.toList :=
  yields_name.bind fun _ hn => .pure hn

theorem keeps_note (pos : Pos) : Keeps (note pos) :=
  keeps_modify fun _ hfeed => hfeed

theorem yields_mention : Yields mention fun text => isName text.toList :=
  yields_name.bind fun n hn => (keeps_note n.pos).next fun _ => .pure hn

/-! ## Lists -/

theorem yields_itemsUntil {close : Mark} (hitem : Yields rule good) :
    Yields (itemsUntil close rule bound) fun items => ∀ x ∈ items, good x := by
  induction bound with
  | zero => exact yields_refuse
  | succ bound ih =>
      refine (keeps_accept close).next fun _ => .ite (.pure (by simp)) ?_
      exact hitem.bind fun a ha => ih.bind fun rest hrest =>
        .pure (List.forall_mem_cons.mpr ⟨ha, hrest⟩)

theorem yields_many {opening close : Mark} (hitem : Yields rule good) :
    Yields (many bound opening close rule) fun items => ∀ x ∈ items, good x :=
  (keeps_expect opening).next fun _ => hitem.bind fun _ ha =>
    (yields_itemsUntil hitem).bind fun _ hrest => .pure (List.forall_mem_cons.mpr ⟨ha, hrest⟩)

theorem yields_optionalMany {opening close : Mark} (hitem : Yields rule good) :
    Yields (optionalMany bound opening close rule) fun items => ∀ x ∈ items, good x :=
  (keeps_peek opening).next fun _ => .ite (yields_many hitem) (.pure (by simp))

theorem keeps_any {opening close : Mark} (hitem : Keeps rule) :
    Keeps (any bound opening close rule) :=
  (keeps_expect opening).next fun _ => (yields_itemsUntil hitem).keeps

theorem keeps_moreSeparated {separator : Mark} (hitem : Keeps rule) :
    Keeps (moreSeparated separator rule bound) := by
  induction bound with
  | zero => exact yields_refuse
  | succ bound ih =>
      refine (keeps_accept separator).next fun _ => .ite ?_ (.pure trivial)
      exact hitem.next fun _ => ih.next fun _ => .pure trivial

theorem keeps_separated {separator : Mark} (hitem : Keeps rule) :
    Keeps (separated bound separator rule) :=
  (keeps_accept separator).next fun _ => hitem.next fun _ =>
    (keeps_moreSeparated hitem).next fun _ => .pure trivial

/-! ## Types and values -/

theorem yields_unmarkedType {item : Reader (TypeExpr × Pos)}
    (hitem : Yields item fun typed => typed.1.isWritten) :
    Yields (unmarkedType item) fun typed => typed.1.isNonNull = false ∧ typed.1.isWritten := by
  refine (keeps_accept .bracketOpen).next fun _ => .ite ?_ ?_
  · refine hitem.bind fun ⟨type, pos⟩ htype => ?_
    exact (keeps_expect .bracketClose).next fun _ => .pure ⟨rfl, htype⟩
  · exact yields_name.bind fun base hbase => .pure ⟨rfl, hbase⟩

theorem yields_placedType : Yields (placedType bound) fun typed => typed.1.isWritten := by
  induction bound with
  | zero => exact yields_refuse
  | succ bound ih =>
      rw [placedType_succ]
      refine (yields_unmarkedType ih).bind fun ⟨type, pos⟩ ⟨hnonNull, htype⟩ => ?_
      refine (keeps_accept .bang).next fun _ => .ite (.pure ?_) (.pure htype)
      have hinner : (type.isNonNull = false) := hnonNull
      simp [TypeExpr.isWritten, hinner, show type.isWritten from htype]

theorem yields_type : Yields (type bound) fun type => type.isWritten :=
  yields_placedType.bind fun ⟨_, pos⟩ htype => (keeps_note pos).next fun _ => .pure htype

theorem keeps_fieldOf {value : Reader Value} (hvalue : Keeps value) : Keeps (fieldOf value) :=
  yields_name.next fun _ => (keeps_expect .colon).next fun _ => hvalue.next fun _ => .pure trivial

theorem keeps_value {constant : Bool} : Keeps (value constant bound) := by
  induction bound with
  | zero => exact yields_refuse
  | succ bound ih =>
      apply yields_current.next
      intro token
      dsimp only
      split
      · exact (keeps_any ih).next fun _ => .pure trivial
      · exact (keeps_any (keeps_fieldOf ih)).next fun _ => .pure trivial
      all_goals first
        | exact keeps_advance.next fun _ => .pure trivial
        | exact yields_fail _
        | skip
      · apply keeps_advance.next
        intro _
        split
        · apply yields_current.next
          intro _
          split <;> exact yields_failAt _ _
        · exact yields_nameText.next fun _ => .pure trivial

theorem keeps_argument {constant : Bool} : Keeps (argument constant bound) :=
  (keeps_fieldOf keeps_value).next fun _ => .pure trivial

theorem keeps_arguments {constant : Bool} : Keeps (arguments constant bound) :=
  (yields_optionalMany keeps_argument).keeps

theorem keeps_directives {constant : Bool} : Keeps (directives constant bound) := by
  induction bound with
  | zero => exact yields_refuse
  | succ bound ih =>
      refine (keeps_peek .atSign).next fun _ => .ite ?_ (.pure trivial)
      refine keeps_here.next fun _ => (keeps_expect .atSign).next fun _ => ?_
      refine yields_nameText.next fun _ => keeps_arguments.next fun _ => ?_
      exact ih.next fun _ => .pure trivial

/-! ## Operations and fragments -/

theorem keeps_operationKind : Keeps operationKind :=
  yields_name.next fun _ =>
    .ite (.pure trivial) (.ite (.pure trivial) (.ite (.pure trivial) (yields_failAt _ _)))

theorem keeps_someValue : Keeps (some <$> value true bound) :=
  keeps_value.map fun _ _ => trivial

theorem keeps_variableDef : Keeps (variableDef bound) := by
  refine keeps_here.next fun _ => (keeps_expect .dollar).next fun _ => yields_name.next fun _ => ?_
  refine (keeps_expect .colon).next fun _ => keeps_here.next fun _ => ?_
  refine yields_placedType.next fun _ => (keeps_accept .equals).next fun _ => ?_
  apply keeps_someValue.join (.pure trivial)
  intro _ _
  exact keeps_directives.next fun _ => .pure trivial

theorem keeps_variableDefs : Keeps (variableDefs bound) :=
  (yields_optionalMany keeps_variableDef).keeps

theorem yields_fragmentName : Yields fragmentName fun n => isName n.text.toList := by
  apply yields_current.next
  intro _
  split
  · exact yields_refuse
  · exact yields_refuse
  · exact yields_refuse
  · exact yields_name

theorem keeps_selection : Keeps (selection bound) := by
  induction bound with
  | zero => exact yields_refuse
  | succ bound ih =>
      refine keeps_here.next fun _ => (keeps_peek .spread).next fun _ => .ite ?_ ?_
      · refine (keeps_expect .spread).next fun _ => (keeps_acceptWord "on").next fun _ => ?_
        refine keeps_peekName.next fun _ => .ite ?_ ?_
        · exact yields_fragmentName.next fun _ => keeps_directives.next fun _ => .pure trivial
        · have hcondition : Keeps (some <$> name) := yields_name.map fun _ _ => trivial
          refine hcondition.join (.pure trivial) fun _ _ => keeps_directives.next fun _ => ?_
          exact (yields_many ih).next fun _ => .pure trivial
      · refine yields_nameText.next fun first => (keeps_accept .colon).next fun _ => ?_
        have hpair (pair : Option String × String) : Keeps (pure pair : Reader _) := .pure trivial
        refine .ite (yields_nameText.next fun _ => (hpair _).next fun _ => ?_)
          ((hpair _).next fun _ => ?_)
        all_goals
          refine keeps_arguments.next fun _ => keeps_directives.next fun _ => ?_
          exact keeps_here.next fun _ => (yields_optionalMany ih).next fun _ => .pure trivial

theorem keeps_selectionSet : Keeps (selectionSet bound) :=
  (yields_many keeps_selection).keeps

theorem yields_operationDef : Yields (operationDef bound) Definition.Written := by
  refine keeps_here.next fun _ => (keeps_peek .braceOpen).next fun _ => .ite ?_ ?_
  · exact keeps_selectionSet.next fun _ => .pure ⟨nofun, nofun, nofun⟩
  · refine keeps_operationKind.next fun _ => keeps_peekName.next fun _ => ?_
    have hname : Yields (some <$> name) fun (n : Option Name) => ∀ m ∈ n, isName m.text.toList :=
      yields_name.map fun n hn => by simpa using hn
    apply hname.join (.pure (by simp))
    intro n hn
    refine keeps_variableDefs.next fun _ => keeps_directives.next fun _ => ?_
    refine keeps_selectionSet.next fun _ => .pure ⟨?_, nofun, nofun⟩
    simpa [Definition.name?] using hn

theorem yields_fragmentDef : Yields (fragmentDef bound) Definition.Written := by
  refine keeps_here.next fun _ => (keeps_expectWord "fragment").next fun _ => ?_
  refine yields_fragmentName.bind fun n hn => yields_get.next fun _ => ?_
  apply keeps_variableDefs.join (.pure trivial)
  intro _ _
  refine (keeps_expectWord "on").next fun _ => yields_name.next fun _ => ?_
  refine keeps_directives.next fun _ => keeps_selectionSet.next fun _ => .pure ⟨?_, nofun, nofun⟩
  rintro _ ⟨⟩
  exact hn

/-! ## Definitions of the schema -/

theorem keeps_peekDescription : Keeps peekDescription := by
  apply yields_current.next
  intro _
  split <;> exact .pure trivial

theorem keeps_description : Keeps description := by
  apply yields_current.next
  intro _
  split
  · exact keeps_advance.next fun _ => .pure trivial
  · exact keeps_advance.next fun _ => .pure trivial
  · exact .pure trivial

theorem yields_inputDef :
    Yields (inputDef bound) fun d => isName d.name.toList ∧ d.type.isWritten := by
  refine keeps_description.next fun _ => yields_nameText.bind fun n hn => ?_
  refine (keeps_expect .colon).next fun _ => yields_type.bind fun t ht => ?_
  apply (keeps_accept .equals).next
  intro _
  apply keeps_someValue.join (.pure trivial)
  intro _ _
  exact keeps_directives.next fun _ => .pure ⟨hn, ht⟩

theorem yields_fieldDef :
    Yields (fieldDef bound) fun d => isName d.name.toList ∧ d.type.isWritten := by
  refine keeps_description.next fun _ => yields_nameText.bind fun n hn => ?_
  refine (yields_optionalMany yields_inputDef).next fun _ => (keeps_expect .colon).next fun _ => ?_
  exact yields_type.bind fun t ht => keeps_directives.next fun _ => .pure ⟨hn, ht⟩

theorem keeps_enumValueDef : Keeps (enumValueDef bound) := by
  refine keeps_description.next fun description => yields_current.next fun _ => ?_
  have hvalue : Keeps (do
      let name ← nameText
      return (⟨description, name, ← directives true bound⟩ : EnumValueDef)) :=
    yields_nameText.next fun _ => keeps_directives.next fun _ => .pure trivial
  have hreserved (text : String) : Keeps (fail (.reservedEnumValue text) : Reader Unit) :=
    yields_fail _
  split
  · exact (hreserved _).next fun _ => hvalue
  · exact (hreserved _).next fun _ => hvalue
  · exact (hreserved _).next fun _ => hvalue
  · exact hvalue

theorem yields_rootDef : Yields rootDef fun d => isName d.type.toList :=
  keeps_operationKind.next fun _ => (keeps_expect .colon).next fun _ =>
    yields_mention.bind fun _ hn => .pure hn

theorem keeps_interfaces : Keeps (interfaces bound) :=
  (keeps_acceptWord "implements").next fun _ =>
    .ite (keeps_separated yields_mention.keeps) (.pure trivial)

theorem keeps_members : Keeps (members bound) :=
  (keeps_accept .equals).next fun _ =>
    .ite (keeps_separated yields_mention.keeps) (.pure trivial)

/-- What a definition of a type needs to be written. -/
theorem written_type {d : TypeDef} (hname : isName d.name.toList)
    (hfields : ∀ f ∈ (Definition.type d).fields, isName f.name.toList ∧ f.type.isWritten) :
    (Definition.type d).Written :=
  ⟨by simpa [Definition.name?] using hname, hfields, nofun⟩

theorem yields_typeDef (word : String) (description : Option Description) :
    Yields (typeDef bound word description) fun d => (Definition.type d).Written := by
  refine (keeps_expectWord word).next fun _ => yields_nameText.bind fun n hn => ?_
  refine keeps_interfaces.join (.pure trivial) fun _ _ => keeps_directives.next fun _ => ?_
  refine .ite ?_ (.ite ?_ (.ite ?_ (.ite ?_ (.ite ?_ ?_))))
  · exact (yields_optionalMany yields_fieldDef).bind fun _ hfields =>
      .pure (written_type hn hfields)
  · exact (yields_optionalMany yields_fieldDef).bind fun _ hfields =>
      .pure (written_type hn hfields)
  · exact keeps_members.next fun _ => .pure (written_type hn nofun)
  · exact (yields_optionalMany keeps_enumValueDef).next fun _ => .pure (written_type hn nofun)
  · apply (yields_optionalMany yields_inputDef).bind
    intro fields hfields
    refine .pure (written_type hn fun f hf => ?_)
    obtain ⟨d, hd, rfl⟩ := List.mem_map.mp hf
    exact hfields d hd
  · exact .pure (written_type hn nofun)

theorem keeps_directiveLocation : Keeps directiveLocation :=
  yields_name.next fun _ => .ite (.pure trivial) (yields_failAt _ _)

theorem yields_directiveDef (description : Option Description) :
    Yields (directiveDef bound description) Definition.Written := by
  refine (keeps_expectWord "directive").next fun _ => (keeps_expect .atSign).next fun _ => ?_
  refine yields_nameText.bind fun n hn => (yields_optionalMany yields_inputDef).next fun _ => ?_
  refine (keeps_acceptWord "repeatable").next fun _ => (keeps_expectWord "on").next fun _ => ?_
  refine (keeps_separated keeps_directiveLocation).next fun _ => .pure ⟨?_, nofun, nofun⟩
  rintro _ ⟨⟩
  exact hn

theorem yields_schemaDef (description : Option Description) :
    Yields (schemaDef bound description) Definition.Written := by
  refine (keeps_expectWord "schema").next fun _ => keeps_directives.next fun _ => ?_
  refine (yields_many yields_rootDef).bind fun roots hroots => .pure ⟨nofun, nofun, ?_⟩
  simpa [Definition.rootTypes] using hroots

theorem yields_schemaExtension : Yields (schemaExtension bound) Definition.Written := by
  refine (keeps_expectWord "extend").next fun _ => (keeps_expectWord "schema").next fun _ => ?_
  refine keeps_directives.next fun _ => (yields_optionalMany yields_rootDef).next fun _ => ?_
  exact .ite yields_refuse (.pure ⟨nofun, nofun, nofun⟩)

theorem yields_extensionDef : Yields (extensionDef bound) Definition.Written := by
  apply yields_lookahead.next
  intro token
  split
  · refine .ite yields_schemaExtension (.ite ?_ (yields_failAt _ _))
    apply (keeps_expectWord "extend").next
    intro _
    refine (yields_typeDef _ none).bind fun d hd => .ite (.pure ?_) yields_refuse
    exact ⟨hd.name, hd.fields, nofun⟩
  · exact yields_failAt _ _

/-! ## Documents -/

theorem yields_definition : Yields (definition bound) Definition.Written := by
  refine (keeps_peek .braceOpen).next fun _ => .ite yields_operationDef ?_
  apply keeps_peekDescription.next
  intro _
  apply yields_lookahead.keeps.join yields_current.keeps
  intro token _
  dsimp only
  split
  · refine .ite ?_ (.ite ?_ (.ite ?_ (.ite (yields_fail _) (.ite yields_operationDef
      (.ite yields_fragmentDef (.ite yields_extensionDef (yields_failAt _ _)))))))
    · exact keeps_description.next fun _ => yields_schemaDef _
    · exact keeps_description.next fun _ => yields_directiveDef _
    · exact keeps_description.next fun _ => (yields_typeDef _ _).bind fun _ hd => .pure hd
  · exact yields_failAt _ _

theorem yields_definitionsUntilEnd (steps : Nat) :
    Yields (definitionsUntilEnd bound steps) fun ds => ∀ d ∈ ds, d.Written := by
  induction steps with
  | zero => exact yields_refuse
  | succ steps ih =>
      refine yields_current.next fun _ => .ite (.pure (by simp)) ?_
      exact yields_definition.bind fun _ hd => ih.bind fun _ hds =>
        .pure (List.forall_mem_cons.mpr ⟨hd, hds⟩)

theorem yields_definitions : Yields (definitions bound) fun ds => ∀ d ∈ ds, d.Written :=
  yields_definition.bind fun _ hd => (yields_definitionsUntilEnd bound).bind fun _ hds =>
    .pure (List.forall_mem_cons.mpr ⟨hd, hds⟩)

/-- What a rule answers to the tokens of a text. -/
theorem Yields.run {rule : Nat → Reader α} {options : ReadOptions} {scan : Scan} {a : α}
    (hrule : ∀ bound, Yields (rule bound) good)
    (hscan : ∀ token ∈ scan.tokens, token.lexeme.Named)
    (h : Reader.run options scan rule = .ok a) : good a := by
  obtain ⟨⟨_, feed⟩, hstart, h⟩ := bind_eq_ok.mp h
  obtain ⟨⟨b, rest⟩, hanswer, h⟩ := bind_eq_ok.mp h
  obtain rfl := Except.ok.inj h
  have hfeed : Named feed := by
    refine named_of_keeps ?_ (fun token htoken => hscan token htoken) hstart
    split
    · exact keeps_reach _
    · exact yields_failAt _ _
    · exact .pure trivial
  exact (hrule _ feed _ _ hfeed hanswer).2

end Reader

/-- The document that a text is read as calls things by names. -/
theorem readDocument_written {options : ReadOptions} {text : String} {document : Document}
    (h : readDocument options text = .ok document) : document.Written := by
  obtain ⟨definitions, hrun, h⟩ := bind_eq_ok.mp h
  obtain rfl := Except.ok.inj h
  unfold withoutPlace at hrun
  split at hrun
  · next answer hanswer =>
      obtain rfl := Except.ok.inj hrun
      have hwritten : ∀ d ∈ answer, d.Written := by
        refine Reader.Yields.run (fun bound => Reader.yields_definitions) ?_ hanswer
        intro token htoken
        obtain ⟨placed, hplaced, rfl⟩ := List.mem_map.mp htoken
        exact scanFrom_named _ _ _ placed hplaced
      exact hwritten
  · simp at hrun

end RecordApi.Language

namespace RecordApi

open RecordApi.Language

/-- A fragment of a schema calls things by names if it is a text, or else if it is such. -/
theorem Source.load_written {options : ReadOptions} {source : Source} {document : Document}
    (hgiven : ∀ d, source = .document d → d.Written) (h : source.load options = .ok document) :
    document.Written := by
  cases source with
  | text text =>
      cases hread : readDocument options text with
      | error fault => simp [Source.load, hread] at h
      | ok document =>
          obtain rfl : document = _ := by simpa [Source.load, hread] using h
          exact readDocument_written hread
  | document d =>
      obtain rfl := Except.ok.inj h
      exact hgiven _ rfl
  | foreign kind => simp [Source.load] at h

theorem Source.written_singleton {document : Document} (h : document.Written) :
    ∀ d, .document d ∈ [Source.document document] → d.Written := by
  intro d hd
  obtain rfl : d = document := by simpa using hd
  exact h

namespace Merge

theorem isName_key {d : Definition} (h : d.Written) {key : String} (hkey : key? d = some key) :
    isName key.toList := by
  cases d with
  | schema d =>
      obtain rfl := Option.some.inj hkey
      decide
  | schemaExtension d => simp [key?] at hkey
  | typeExtension d => simp [key?] at hkey
  | _ => exact h.name key hkey

theorem combine_written {policy : MergePolicy} {key : String} {earlier later : Definition}
    (hearlier : earlier.Written) (hlater : later.Written) (hkey : key? earlier = some key) :
    (combine policy key earlier later).Written := by
  cases policy with
  | override => exact hlater
  | fieldUnion =>
      apply Reader.written_type (isName_key hearlier hkey)
      intro f hf
      rcases mem_of_mem_nameMerge hf with hf | hf
      · exact hearlier.fields f hf
      · exact hlater.fields f hf

/-- Merging keeps names. -/
theorem mergeDocuments_written {table : PolicyTable} {documents : List Document}
    {merged : Document} (hdocuments : ∀ document ∈ documents, document.Written)
    (h : mergeDocuments table documents = .ok merged) : merged.Written :=
  forall_mergeDocuments (fun _ _ _ _ hkey _ hearlier hlater =>
    combine_written hearlier hlater hkey)
    hdocuments h

end Merge

end RecordApi
