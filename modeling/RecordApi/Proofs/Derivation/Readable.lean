import RecordApi.Derivation.Fragment
import RecordApi.Proofs.Derivation.InputGraph
import RecordApi.Proofs.Language.Unreadable
import RecordApi.Proofs.NameSpellings

/-!
# Generated types are read back

All types of a fragment are bare: their names are made from names, and their descriptions are on
one line. So the text of a fragment is read back as the same types, unless the name of its entry
points is none, which makes it unreadable.
-/

namespace RecordApi

open RecordApi.Language

/-! ## Names -/

theorem isName_append {a b : List Char} (ha : isName a) (hb : b.all isNameContinue) :
    isName (a ++ b) := by
  cases a with
  | nil => simp [isName] at ha
  | cons c cs =>
      simp only [isName, Bool.and_eq_true, List.cons_append, List.all_append] at ha ⊢
      exact ⟨ha.1, ha.2, hb⟩

theorem isName_suffix {name suffix : String} (h : isName name.toList)
    (hsuffix : suffix.toList.all isNameContinue) : isName (name ++ suffix).toList := by
  rw [String.toList_append]
  exact isName_append h hsuffix

theorem InputPair.isName_inputName {p : InputPair} (h : isName p.typeName.toList) :
    isName p.inputName.toList := by
  obtain ⟨typeName, mode⟩ := p
  cases mode
  · exact isName_suffix h (by decide)
  · exact isName_suffix h (by decide)

namespace Naming

theorem isNameContinue_of_isWordChar {c : Char} (h : isWordChar c) :
    isNameContinue c ∧ isNameContinue c.toLower ∧ isNameContinue c.toUpper := by
  have hall : ∀ n : Fin 128, isWordChar (Char.ofNat n) → isNameContinue (Char.ofNat n) ∧
      isNameContinue (Char.ofNat n).toLower ∧ isNameContinue (Char.ofNat n).toUpper := by
    decide +kernel
  simpa using hall ⟨c.toNat, bounds_of_isWordChar h⟩ (by simpa using h)

theorem all_lowerLead {word : List Char} (h : ∀ c ∈ word, isWordChar c) :
    ∀ c ∈ lowerLead word, isNameContinue c := by
  intro c hc
  rcases List.mem_append.mp hc with hc | hc
  · obtain ⟨d, hd, rfl⟩ := List.mem_map.mp hc
    exact (isNameContinue_of_isWordChar (h d (List.mem_of_mem_take hd))).2.1
  · exact (isNameContinue_of_isWordChar (h c (List.mem_of_mem_drop hc))).1

theorem all_raiseFirst {word : List Char} (h : ∀ c ∈ word, isWordChar c) :
    ∀ c ∈ raiseFirst word, isNameContinue c := by
  cases word with
  | nil => simp [raiseFirst]
  | cons d ds =>
      intro c hc
      rcases List.mem_cons.mp hc with rfl | hc
      · exact (isNameContinue_of_isWordChar (h d List.mem_cons_self)).2.2
      · exact (isNameContinue_of_isWordChar (h c (List.mem_cons_of_mem d hc))).1

/-- The lower camel case form of a name holds only characters of names. -/
theorem all_lowerCamel (name : String) : (lowerCamel name).toList.all isNameContinue := by
  rw [lowerCamel, String.toList_ofList, lowerCamelChars, List.all_eq_true]
  have hwords (piece : List Char) (hpiece : piece ∈ pieces (fun c => !isWordChar c) name.toList)
      (c : Char) (hc : c ∈ piece) : isWordChar c := by
    simpa using (pieces_plain _ _ piece hpiece).2 c hc
  cases hpieces : pieces (fun c => !isWordChar c) name.toList with
  | nil => simp
  | cons first rest =>
      rw [hpieces] at hwords
      intro c hc
      rcases List.mem_append.mp hc with hc | hc
      · exact all_lowerLead (hwords first List.mem_cons_self) c hc
      · obtain ⟨_, hraised, hc⟩ := List.mem_flatten.mp hc
        obtain ⟨piece, hpiece, rfl⟩ := List.mem_map.mp hraised
        exact all_raiseFirst (hwords piece (List.mem_cons_of_mem first hpiece)) c hc

end Naming

/-! ## Types -/

theorem isWritten_nonNull {e : TypeExpr} :
    (TypeExpr.nonNull e).isWritten ↔ e.isNonNull = false ∧ e.isWritten := by
  simp [TypeExpr.isWritten]

namespace TypeRef

theorem isNonNull_rename (f : NamedRef → NamedRef) (ref : TypeRef) :
    (ref.rename f).toExpr.isNonNull = ref.toExpr.isNonNull := by
  cases ref <;> rfl

theorem isWritten_rename {f : NamedRef → NamedRef} {ref : TypeRef} (h : ref.toExpr.isWritten)
    (hf : isName (f ref.base).name.toList) : (ref.rename f).toExpr.isWritten := by
  induction ref with
  | named ref => exact hf
  | list item ih => exact ih h hf
  | nonNull inner ih =>
      obtain ⟨hplain, hinner⟩ := isWritten_nonNull.mp h
      refine isWritten_nonNull.mpr ⟨?_, ih hinner hf⟩
      rwa [isNonNull_rename]

theorem isWritten_nullable {ref : TypeRef} (h : ref.toExpr.isWritten) :
    ref.nullable.toExpr.isWritten := by
  cases ref with
  | named ref => exact h
  | list item => exact h
  | nonNull inner => exact (isWritten_nonNull.mp h).2

theorem isWritten_required {ref : TypeRef} (h : ref.toExpr.isWritten) :
    ref.required.toExpr.isWritten := by
  cases ref with
  | named ref => exact isWritten_nonNull.mpr ⟨rfl, h⟩
  | list item => exact isWritten_nonNull.mpr ⟨rfl, h⟩
  | nonNull inner => exact h

theorem isWritten_fieldType {mode : InputMode} {ref : TypeRef} (h : ref.toExpr.isWritten) :
    (mode.fieldType ref).toExpr.isWritten := by
  cases mode
  · exact h
  · exact isWritten_nullable h

end TypeRef

/-- Whether all names and types that a derivation works from can be written. -/
structure Basis.Plain (basis : Basis) : Prop where
  names : ∀ name, (basis.nestedFields? name).isSome → isName name.toList
  fields : ∀ name fields, basis.nestedFields? name = some fields → ∀ f ∈ fields,
    isName f.name.toList ∧ f.type.toExpr.isWritten
  query : isName basis.roots.query.toList
  mutation : isName basis.roots.mutation.toList
  ns : basis.options.ns.toList.all isNameContinue

/-- Whether the names and the identifier type of a descriptor can be written. -/
structure Descriptor.Plain (d : Descriptor) : Prop where
  typeName : isName d.typeName.toList
  idName : isName d.idName.toList
  idType : d.idType.toExpr.isWritten

variable {basis : Basis}

/-- Whether the names and the types of a source can be written. -/
structure InputSource.Plain (s : InputSource) : Prop where
  typeName : isName s.typeName.toList
  fields : ∀ f ∈ s.fields, isName f.name.toList ∧ f.type.toExpr.isWritten

theorem bare_inputFrom (h : basis.Plain) {s : InputSource} (hs : s.Plain) :
    (basis.inputFrom s).Bare where
  description := rfl
  name := InputPair.isName_inputName (p := ⟨s.typeName, s.mode⟩) hs.typeName
  directives := rfl
  body := by
    refine .inr ⟨_, rfl, fun d hd => ?_⟩
    obtain ⟨⟨name, ref⟩, hentry, rfl⟩ := List.mem_map.mp hd
    obtain ⟨f, hf, hentry⟩ := List.mem_filterMap.mp hentry
    obtain ⟨hname, htype⟩ := hs.fields f hf
    obtain ⟨rfl, ⟨target, -, htarget, rfl⟩ | ⟨-, rfl⟩⟩ := Basis.inputEntry_eq_some hentry
    · have hinput : isName (InputPair.inputName ⟨target, s.mode⟩).toList :=
        InputPair.isName_inputName (h.names target htarget)
      exact ⟨by simp, hname, TypeRef.isWritten_fieldType (TypeRef.isWritten_rename htype hinput),
        rfl, rfl⟩
    · exact ⟨by simp, hname, TypeRef.isWritten_fieldType htype, rfl, rfl⟩

theorem bare_inputOf (h : basis.Plain) {p : InputPair}
    (hp : (basis.nestedFields? p.typeName).isSome) : (basis.inputOf p).Bare := by
  obtain ⟨fields, hfields⟩ := Option.isSome_iff_exists.mp hp
  have hbare : (basis.inputFrom ⟨p.typeName, p.mode, fields⟩).Bare :=
    bare_inputFrom h ⟨h.names p.typeName hp, h.fields p.typeName fields hfields⟩
  rwa [Basis.inputOf, Basis.inputEntries, hfields]

/-! ## Output types -/

namespace Fragment

theorem bare_plainArgument {name : String} {type : TypeExpr} (hname : isName name.toList)
    (htype : type.isWritten) : (plainArgument none name type).Bare :=
  ⟨by simp [plainArgument], hname, htype, rfl, rfl⟩

theorem bare_describedArgument {text name : String} {type : TypeExpr} (hne : text.toList ≠ [])
    (htext : text.toList.all isPrinted) (hname : isName name.toList) (htype : type.isWritten) :
    (plainArgument (some text) name type).Bare := by
  refine ⟨?_, hname, htype, rfl, rfl⟩
  rintro _ ⟨⟩
  exact ⟨rfl, hne, htext⟩

theorem bare_plainField {name : String} {arguments : List InputDef} {type : TypeExpr}
    (hname : isName name.toList) (harguments : ∀ a ∈ arguments, a.Bare) (htype : type.isWritten) :
    (plainField name arguments type).Bare :=
  ⟨rfl, hname, harguments, htype, rfl, rfl, rfl⟩

theorem bare_objectType {name : String} {fields : List FieldDef} (hname : isName name.toList)
    (hfields : ∀ f ∈ fields, f.Bare) : (objectType name fields).Bare :=
  ⟨rfl, hname, rfl, .inl ⟨fields, rfl, hfields⟩⟩

theorem isPrinted_toString (n : Int) : (toString n).toList.all isPrinted := by
  have hdigits (m : Nat) : m.repr.toList.all isPrinted := by
    rw [Nat.toList_repr, List.all_eq_true]
    intro c hc
    have hdigit := Nat.isDigit_of_mem_toDigits (by decide) (by decide) hc
    simp only [Char.isDigit, ge_iff_le, Bool.and_eq_true, decide_eq_true_eq,
      UInt32.le_iff_toNat_le] at hdigit
    simp only [isPrinted, Bool.and_eq_true, decide_eq_true_eq, Char.le_def,
      UInt32.le_iff_toNat_le]
    simp at hdigit ⊢
    omega
  rw [Int.toString_eq_repr, Int.repr_eq_if]
  split
  · exact hdigits _
  · rw [String.toList_append, List.all_append, hdigits]
    decide

theorem bare_edgeType {typeName : String} (h : isName typeName.toList) :
    (edgeType typeName).Bare := by
  apply bare_objectType (isName_suffix h (by decide))
  simp only [List.mem_cons, List.not_mem_nil, or_false]
  rintro f (rfl | rfl)
  · exact bare_plainField (by decide) (by simp) (isWritten_nonNull.mpr ⟨rfl, h⟩)
  · exact bare_plainField (by decide) (by simp) (by decide)

theorem bare_connectionType {ns typeName : String} (hns : ns.toList.all isNameContinue)
    (h : isName typeName.toList) : (connectionType ns typeName).Bare := by
  apply bare_objectType (isName_suffix h (by decide))
  simp only [List.mem_cons, List.not_mem_nil, or_false]
  rintro f (rfl | rfl)
  · exact bare_plainField (by decide) (by simp)
      (isWritten_nonNull.mpr ⟨rfl, isWritten_nonNull.mpr ⟨rfl, isName_suffix h (by decide)⟩⟩)
  · exact bare_plainField (by decide) (by simp)
      (isWritten_nonNull.mpr ⟨rfl, isName_suffix (by decide) hns⟩)

theorem bare_listArguments {ns : String} (hns : ns.toList.all isNameContinue) (mostPerPage : Int) :
    ∀ a ∈ listArguments ns mostPerPage, a.Bare := by
  have hcount (before : String) (hbefore : before.toList.all isPrinted) :
      (before ++ ("(at most " ++ toString mostPerPage ++ ").")).toList.all isPrinted := by
    simp only [String.toList_append, List.all_append, hbefore, isPrinted_toString, Bool.and_true]
    decide
  have hlist (name : String) (hname : isName name.toList) :
      (listOf (name ++ ns)).isWritten :=
    isWritten_nonNull.mpr ⟨rfl, isName_suffix hname hns⟩
  simp only [listArguments, List.mem_cons, List.not_mem_nil, or_false]
  rintro a (rfl | rfl | rfl | rfl | rfl | rfl)
  · exact bare_describedArgument (by decide) (by decide) (by decide) (by decide)
  · exact bare_describedArgument (by decide) (by decide) (by decide) (by decide)
  · exact bare_describedArgument (by simp) (hcount _ (by decide)) (by decide) (by decide)
  · exact bare_describedArgument (by simp) (hcount _ (by decide)) (by decide) (by decide)
  · exact bare_describedArgument (by decide) (by decide) (by decide) (hlist _ (by decide))
  · exact bare_describedArgument (by decide) (by decide) (by decide) (hlist _ (by decide))

theorem bare_queryType {options : Options} {d : Descriptor} (hd : d.Plain)
    (hns : options.ns.toList.all isNameContinue) : (queryType options d).Bare := by
  apply bare_objectType (isName_suffix hd.typeName (by decide))
  simp only [List.mem_cons, List.not_mem_nil, or_false]
  rintro f (rfl | rfl)
  · refine bare_plainField (by decide) ?_ hd.typeName
    simpa using bare_plainArgument hd.idName hd.idType
  · exact bare_plainField (by decide) (bare_listArguments hns options.mostPerPage)
      (isName_suffix hd.typeName (by decide))

theorem bare_mutationType {d : Descriptor} (hd : d.Plain) : (mutationType d).Bare := by
  have hid (ref : TypeRef) (h : ref.toExpr.isWritten) :
      (plainArgument none d.idName ref.toExpr).Bare :=
    bare_plainArgument hd.idName h
  have hdata (mode : InputMode) :
      (plainArgument none "data" (.nonNull (.named (mode.inputName d.typeName)))).Bare :=
    bare_plainArgument (by decide) (isWritten_nonNull.mpr
      ⟨rfl, InputPair.isName_inputName (p := ⟨d.typeName, mode⟩) hd.typeName⟩)
  apply bare_objectType (isName_suffix hd.typeName (by decide))
  simp only [List.mem_cons, List.not_mem_nil, or_false]
  rintro f (rfl | rfl | rfl | rfl)
  · refine bare_plainField (by decide) ?_ (TypeRef.isWritten_required hd.idType)
    simpa using ⟨hid _ (TypeRef.isWritten_nullable hd.idType), hdata .create⟩
  · refine bare_plainField (by decide) ?_ (by decide)
    simpa using ⟨hid _ hd.idType, hdata .update⟩
  · refine bare_plainField (by decide) ?_ (by decide)
    simpa using ⟨hid _ hd.idType, hdata .create⟩
  · refine bare_plainField (by decide) ?_ (by decide)
    simpa using hid _ hd.idType

/-- The types between the input types and the entry points of a fragment. -/
def pageTypes (options : Options) (d : Descriptor) : List TypeDef :=
  [edgeType d.typeName, connectionType options.ns d.typeName, queryType options d, mutationType d]

theorem outputTypes_eq (basis : Basis) (d : Descriptor) :
    outputTypes basis d = pageTypes basis.options d ++ entryPoints basis.roots d.typeName := rfl

theorem bare_pageTypes {options : Options} {d : Descriptor} (hd : d.Plain)
    (hns : options.ns.toList.all isNameContinue) : ∀ t ∈ pageTypes options d, t.Bare := by
  simp only [pageTypes, List.mem_cons, List.not_mem_nil, or_false]
  rintro t (rfl | rfl | rfl | rfl)
  · exact bare_edgeType hd.typeName
  · exact bare_connectionType hns hd.typeName
  · exact bare_queryType hd hns
  · exact bare_mutationType hd

theorem bare_entryPoints {d : Descriptor} (h : basis.Plain) (hd : d.Plain)
    (hfield : isName (Naming.lowerCamel d.typeName).toList) :
    ∀ t ∈ entryPoints basis.roots d.typeName, t.Bare := by
  have hentry (suffix : String) (hsuffix : suffix.toList.all isNameContinue) :
      (plainField (Naming.lowerCamel d.typeName) [] (.named (d.typeName ++ suffix))).Bare :=
    bare_plainField hfield (by simp) (isName_suffix hd.typeName hsuffix)
  simp only [entryPoints, List.mem_cons, List.not_mem_nil, or_false]
  rintro t (rfl | rfl)
  · apply bare_objectType h.query
    simpa using hentry "Query" (by decide)
  · apply bare_objectType h.mutation
    simpa using hentry "Mutation" (by decide)

theorem bare_outputTypes {d : Descriptor} (h : basis.Plain) (hd : d.Plain)
    (hfield : isName (Naming.lowerCamel d.typeName).toList) :
    ∀ t ∈ outputTypes basis d, t.Bare := by
  rw [outputTypes_eq]
  exact List.forall_mem_append.mpr ⟨bare_pageTypes hd h.ns, bare_entryPoints h hd hfield⟩

/-- The text of a fragment is read back as the same types if its entry points have a name, unless a
limit on tokens forbids it, and not read at all if they have none. -/
theorem reread_eq {d : Descriptor} (h : basis.Plain) (hd : d.Plain) {inputs : List TypeDef}
    (hinputs : ∀ t ∈ inputs, t.Bare) (options : ReadOptions) :
    match reread options (inputs ++ outputTypes basis d) with
    | .ok definitions => isName (Naming.lowerCamel d.typeName).toList ∧
        definitions = (inputs ++ outputTypes basis d).map .type
    | .error failure => (∃ fault, failure = .misread fault) ∧
        (isName (Naming.lowerCamel d.typeName).toList → options.mostTokens ≠ none) := by
  by_cases hfield : isName (Naming.lowerCamel d.typeName).toList
  · have hall : ∀ t ∈ inputs ++ outputTypes basis d, t.Bare :=
      List.forall_mem_append.mpr ⟨hinputs, bare_outputTypes h hd hfield⟩
    have hread := readDocument_print (by simp [outputTypes]) hall options
    unfold reread
    cases hdocument : readDocument options (Document.ofDefinitions
        ((inputs ++ outputTypes basis d).map .type)).print with
    | error fault =>
        rw [hdocument] at hread
        obtain ⟨n, hlimit, -⟩ := hread
        exact ⟨⟨fault, rfl⟩, fun _ => by simp [hlimit]⟩
    | ok document =>
        rw [hdocument] at hread
        exact ⟨hfield, hread.1⟩
  · have hpages : ∀ t ∈ inputs ++ pageTypes basis.options d, t.Bare :=
      List.forall_mem_append.mpr ⟨hinputs, bare_pageTypes hd h.ns⟩
    rw [outputTypes_eq, ← List.append_assoc]
    obtain ⟨fault, hfault⟩ := readDocument_fails hpages h.query (Naming.all_lowerCamel d.typeName)
      (Bool.eq_false_iff.mpr hfield) (.named (d.typeName ++ "Query"))
      [objectType basis.roots.mutation
        [plainField (Naming.lowerCamel d.typeName) [] (.named (d.typeName ++ "Mutation"))]] options
    have hread : readDocument options (Document.ofDefinitions
        ((inputs ++ pageTypes basis.options d ++ entryPoints basis.roots d.typeName).map
          .type)).print = .error fault := hfault
    unfold reread
    rw [hread]
    exact ⟨⟨fault, rfl⟩, fun h => absurd h hfield⟩

/-- The text of a fragment is read back just if its entry points have a name and the limit on tokens
allows for it. -/
theorem reread_eq_ok {d : Descriptor} (h : basis.Plain) (hd : d.Plain) {inputs : List TypeDef}
    (hinputs : ∀ t ∈ inputs, t.Bare) {options : ReadOptions} {definitions : List Definition} :
    reread options (inputs ++ outputTypes basis d) = .ok definitions ↔
      isName (Naming.lowerCamel d.typeName).toList ∧
        (∀ n, options.mostTokens = some n → Reader.counted
          ((inputs ++ outputTypes basis d).flatMap TypeDef.lexemes) ≤ n.toNat) ∧
        definitions = (inputs ++ outputTypes basis d).map .type := by
  have hread := reread_eq h hd hinputs options
  have hprint (hfield : isName (Naming.lowerCamel d.typeName).toList) :=
    readDocument_print (by simp [outputTypes])
      (List.forall_mem_append.mpr ⟨hinputs, bare_outputTypes h hd hfield⟩) options
  unfold reread at hread ⊢
  cases hdocument : readDocument options (Document.ofDefinitions
      ((inputs ++ outputTypes basis d).map .type)).print with
  | error fault =>
      rw [hdocument] at hprint
      constructor
      · intro hok
        cases hok
      · rintro ⟨hfield, hlimit, -⟩
        obtain ⟨n, hn, hless⟩ := hprint hfield
        exact absurd (hlimit n hn) (Nat.not_le.mpr hless)
  | ok document =>
      rw [hdocument] at hread hprint
      obtain ⟨hfield, hsame⟩ := hread
      obtain ⟨-, hlimit⟩ := hprint hfield
      constructor
      · rintro ⟨⟩
        exact ⟨hfield, hlimit, hsame⟩
      · rintro ⟨-, -, rfl⟩
        exact congrArg Except.ok hsame

/-- What is read back behind input types is also read back without them, as a limit on tokens that
allows for all allows for some. -/
theorem reread_of_append {d : Descriptor} (h : basis.Plain) (hd : d.Plain) {inputs : List TypeDef}
    (hinputs : ∀ t ∈ inputs, t.Bare) {options : ReadOptions} {definitions : List Definition}
    (hread : reread options (inputs ++ outputTypes basis d) = .ok definitions) :
    reread options (outputTypes basis d) = .ok ((outputTypes basis d).map .type) := by
  have hfield : isName (Naming.lowerCamel d.typeName).toList := by
    have heq := reread_eq h hd hinputs options
    rw [hread] at heq
    exact heq.1
  have houtput := bare_outputTypes h hd hfield
  have hall := readDocument_print (by simp [outputTypes])
    (List.forall_mem_append.mpr ⟨hinputs, houtput⟩) options
  have hsome := readDocument_print (by simp [outputTypes]) houtput options
  unfold reread at hread ⊢
  cases hfirst : readDocument options (Document.ofDefinitions
      ((inputs ++ outputTypes basis d).map .type)).print with
  | error fault =>
      rw [hfirst] at hread
      cases hread
  | ok document =>
      rw [hfirst] at hall
      obtain ⟨-, hlimit⟩ := hall
      cases hsecond : readDocument options (Document.ofDefinitions
          ((outputTypes basis d).map .type)).print with
      | error fault =>
          rw [hsecond] at hsome
          obtain ⟨n, hn, hless⟩ := hsome
          have hallowed := hlimit n hn
          rw [List.flatMap_append, Reader.counted_append] at hallowed
          omega
      | ok document =>
          rw [hsecond] at hsome
          exact congrArg Except.ok hsome.1

end Fragment

end RecordApi
