import RecordApi.Proofs.Language.Spelling

/-!
# Printed types

Bare object and input types are printed as texts that spell their lexemes: their names, their marks
and the descriptions of their arguments.
-/

namespace RecordApi.Language

open Layout

/-! ## Lexemes of types -/

/-- Whether a type is one that can be written: its innermost name is a name, and no mark against
null stands on another. -/
def TypeExpr.isWritten : TypeExpr → Bool
  | named name => isName name.toList
  | list item => item.isWritten
  | nonNull inner => !inner.isNonNull && inner.isWritten

/-- The lexemes of a type. -/
def TypeExpr.lexemes : TypeExpr → List Lexeme
  | named name => [.name name]
  | list item => .mark .bracketOpen :: (item.lexemes ++ [.mark .bracketClose])
  | nonNull inner => inner.lexemes ++ [.mark .bang]

/-- Lexemes between two marks, or none at all. -/
def enclosed (opening close : Mark) (lexemes : List Lexeme) : List Lexeme :=
  if lexemes.isEmpty then [] else .mark opening :: (lexemes ++ [.mark close])

/-- The lexemes of an argument or a field of an input type. -/
def InputDef.lexemes (d : InputDef) : List Lexeme :=
  (d.description.map fun text => Lexeme.string text.text).toList ++
    .name d.name :: .mark .colon :: d.type.lexemes

/-- The lexemes of a field. -/
def FieldDef.lexemes (d : FieldDef) : List Lexeme :=
  .name d.name :: (enclosed .parenOpen .parenClose (d.arguments.flatMap InputDef.lexemes) ++
    .mark .colon :: d.type.lexemes)

/-- The lexemes of an object or an input type. -/
def TypeDef.lexemes (d : TypeDef) : List Lexeme :=
  match d.body with
  | .object _ fields => .name "type" :: .name d.name ::
      enclosed .braceOpen .braceClose (fields.flatMap FieldDef.lexemes)
  | .input fields => .name "input" :: .name d.name ::
      enclosed .braceOpen .braceClose (fields.flatMap InputDef.lexemes)
  | _ => []

/-- An argument or a field of an input type that has a name and a type, and at most a description
on one line beside them. -/
structure InputDef.Bare (d : InputDef) : Prop where
  description : ∀ text ∈ d.description,
    text.block = false ∧ text.text.toList ≠ [] ∧ text.text.toList.all isPrinted
  name : isName d.name.toList
  type : d.type.isWritten
  default : d.default = none
  directives : d.directives = []

/-- A field that has a name, bare arguments and a type, and nothing beside them. -/
structure FieldDef.Bare (d : FieldDef) : Prop where
  description : d.description = none
  name : isName d.name.toList
  arguments : ∀ a ∈ d.arguments, a.Bare
  type : d.type.isWritten
  default : d.default = none
  directives : d.directives = []
  takenOver : d.takenOver = false

/-- An object or an input type that has a name and bare fields, and nothing beside them. -/
structure TypeDef.Bare (d : TypeDef) : Prop where
  description : d.description = none
  name : isName d.name.toList
  directives : d.directives = []
  body : (∃ fields, d.body = .object [] fields ∧ ∀ f ∈ fields, f.Bare) ∨
    ∃ fields, d.body = .input fields ∧ ∀ f ∈ fields, f.Bare

/-! ## Layout -/

theorem Spells.eq_nil {lexemes : List Lexeme} (h : Spells [] lexemes) : lexemes = [] := by
  generalize hcs : ([] : List Char) = cs at h
  cases h with
  | nil => rfl
  | @name n cs lexemes hname =>
      rw [(List.append_eq_nil_iff.mp hcs.symm).1] at hname
      simp [isName] at hname
  | skip => simp at hcs
  | mark => simp at hcs
  | string => simp at hcs

theorem Spells.eq_nil_of_isEmpty {text : String} {lexemes : List Lexeme}
    (h : Spells text.toList lexemes) (hempty : text.isEmpty = true) : lexemes = [] := by
  rw [String.isEmpty_iff.mp hempty] at h
  exact h.eq_nil

/-- A text that does not begin with a name ends a name in front of it. -/
theorem Spells.ends {cs : List Char} {lexemes : List Lexeme} (h : Spells cs lexemes)
    (hhead : ∀ n, lexemes.head? ≠ some (.name n)) : Ends cs := by
  cases h with
  | nil => exact ends_nil
  | skip hskip => exact ends_cons.mpr (isSkipped_cases hskip).1
  | mark hmark => exact ends_cons.mpr (markOf?_some hmark).2.1
  | name => simp at hhead
  | string => exact ends_cons.mpr (by decide)

theorem join_cons (separator text : String) (texts : List String) :
    join separator (text :: texts) =
      if text.isEmpty then join separator texts
      else if texts.all String.isEmpty then text
      else text ++ separator ++ join separator texts := by
  unfold join
  by_cases htext : text.isEmpty
  · simp [htext]
  · rw [List.filter_cons_of_pos (by simpa using htext), if_neg htext]
    by_cases hall : texts.all String.isEmpty
    · have hnone : (texts.filter fun t => !t.isEmpty) = [] := by
        simpa [List.filter_eq_nil_iff] using hall
      rw [if_pos hall, hnone, String.intercalate_singleton]
    · have hsome : (texts.filter fun t => !t.isEmpty) ≠ [] := by
        simpa [List.filter_eq_nil_iff] using hall
      rw [if_neg hall, String.intercalate_cons_of_ne_nil hsome]

/-- Whether a text stands between lexemes without meaning. -/
def Separates (separator : String) : Prop :=
  separator.toList ≠ [] ∧ separator.toList.all isSkipped = true

instance (separator : String) : Decidable (Separates separator) :=
  inferInstanceAs (Decidable (_ ∧ _))

theorem Spells.skipAll {blanks cs : List Char} {lexemes : List Lexeme}
    (hblanks : blanks.all isSkipped = true) (h : Spells cs lexemes) :
    Spells (blanks ++ cs) lexemes := by
  induction blanks with
  | nil => exact h
  | cons c blanks ih =>
      simp only [List.all_cons, Bool.and_eq_true] at hblanks
      exact (ih hblanks.2).skip hblanks.1

theorem Separates.ends {separator : String} (h : Separates separator) (rest : List Char) :
    Ends (separator.toList ++ rest) := by
  obtain ⟨hne, hall⟩ := h
  cases hcs : separator.toList with
  | nil => exact absurd hcs hne
  | cons c cs =>
      rw [hcs, List.all_cons, Bool.and_eq_true] at hall
      exact ends_cons.mpr (isSkipped_cases hall.1).1

theorem spells_join {separator : String} (hseparator : Separates separator)
    {pieces : List (String × List Lexeme)} (h : ∀ p ∈ pieces, Spells p.1.toList p.2) :
    Spells (join separator (pieces.map Prod.fst)).toList (pieces.flatMap Prod.snd) := by
  induction pieces with
  | nil => exact .nil
  | cons piece rest ih =>
      have hpiece := h piece List.mem_cons_self
      have hrest := ih fun p hp => h p (List.mem_cons_of_mem piece hp)
      rw [List.map_cons, List.flatMap_cons, join_cons]
      split
      · next hempty => rwa [hpiece.eq_nil_of_isEmpty hempty]
      · split
        · next hall =>
            have hnone : rest.flatMap Prod.snd = [] := by
              rw [List.flatMap_eq_nil_iff]
              intro p hp
              have hempty := List.all_eq_true.mp hall p.1 (List.mem_map_of_mem hp)
              exact (h p (List.mem_cons_of_mem piece hp)).eq_nil_of_isEmpty hempty
            rwa [hnone, List.append_nil]
        · rw [String.append_assoc, String.toList_append, String.toList_append]
          exact hpiece.append (hseparator.ends _) (hrest.skipAll hseparator.2)

/-- Items whose texts spell their lexemes, joined. -/
theorem spells_join_map {α : Type} {separator : String} (hseparator : Separates separator)
    {items : List α} {text : α → String} {lexemes : α → List Lexeme}
    (h : ∀ x ∈ items, Spells (text x).toList (lexemes x)) :
    Spells (join separator (items.map text)).toList (items.flatMap lexemes) := by
  have hpieces : ∀ p ∈ items.map fun x => (text x, lexemes x), Spells p.1.toList p.2 := by
    simpa using h
  simpa [List.map_map, List.flatMap_map, Function.comp_def] using
    spells_join hseparator hpieces

theorem spells_wrap {opening close : Mark} {before after text : String} {lexemes : List Lexeme}
    (hbefore : ∀ cs more, Spells cs more → Spells (before.toList ++ cs) (.mark opening :: more))
    (hafter : Spells after.toList [.mark close]) (hends : Ends after.toList)
    (h : Spells text.toList lexemes) (hempty : text = "" ↔ lexemes = []) :
    Spells (wrap before text after).toList (enclosed opening close lexemes) := by
  by_cases htext : text = ""
  · simpa [wrap, enclosed, htext, hempty.mp htext] using Spells.nil
  · have hne : lexemes ≠ [] := mt hempty.mpr htext
    rw [wrap, enclosed, if_neg (by simpa using htext), if_neg (by simpa using hne),
      String.append_assoc, String.toList_append, String.toList_append]
    exact hbefore _ _ (h.append hends hafter)

theorem spells_indent {text : String} {lexemes : List Lexeme} (h : Spells text.toList lexemes) :
    Spells (indent text).toList lexemes := by
  unfold indent wrap
  split
  · next hempty =>
      have hnone : text.toList.flatMap setIn = [] := by simpa using hempty
      rw [show lexemes = [] from (hnone ▸ h.setIn).eq_nil]
      exact .nil
  · simp only [String.toList_append, String.toList_ofList, String.append_empty]
    exact .skip (by decide) (.skip (by decide) h.setIn)

theorem indent_eq_empty {text : String} : indent text = "" ↔ text = "" := by
  unfold indent wrap
  by_cases htext : text = ""
  · simp [htext]
  · obtain ⟨c, cs, hcs⟩ := List.exists_cons_of_ne_nil (mt String.toList_eq_nil_iff.mp htext)
    by_cases hc : c = '\n' <;> simp [htext, hcs, setIn, hc]

section Items

variable {α : Type} {items : List α} {text : α → String} {lexemes : α → List Lexeme}

/-- Joined items are empty only if there are none. -/
theorem join_map_eq_empty {separator : String}
    (h : ∀ x ∈ items, Spells (text x).toList (lexemes x)) (hne : ∀ x ∈ items, lexemes x ≠ []) :
    join separator (items.map text) = "" ↔ items.flatMap lexemes = [] := by
  cases items with
  | nil => simp [join]
  | cons x rest =>
      have hlexemes : lexemes x ≠ [] := hne x List.mem_cons_self
      have htext : text x ≠ "" := fun hempty =>
        hlexemes ((h x List.mem_cons_self).eq_nil_of_isEmpty (String.isEmpty_iff.mpr hempty))
      rw [List.map_cons, join_cons, if_neg (by simpa using htext)]
      split <;> simp [htext, hlexemes]

section Laid

variable (h : ∀ x ∈ items, Spells (text x).toList (lexemes x)) (hne : ∀ x ∈ items, lexemes x ≠ [])

include h hne

/-- Items on lines of their own between marks that stand on lines of their own. -/
theorem spells_lines {opening close : Mark} {before after : Char}
    (hbefore : markOf? before = some opening) (hafter : markOf? after = some close) :
    Spells (wrap (String.ofList [before, '\n']) (indent (join "\n" (items.map text)))
        (String.ofList ['\n', after])).toList
      (enclosed opening close (items.flatMap lexemes)) := by
  have hjoin := spells_join_map (show Separates "\n" by decide) h
  refine spells_wrap (fun cs more hcs => ?_) ?_ ?_ (spells_indent hjoin) ?_
  · rw [String.toList_ofList]
    exact .mark hbefore (.skip (by decide) hcs)
  · rw [String.toList_ofList]
    exact .skip (by decide) (.mark hafter .nil)
  · rw [String.toList_ofList]
    exact ends_cons.mpr (by decide)
  · rw [indent_eq_empty, join_map_eq_empty h hne]

theorem spells_block :
    Spells (block (items.map text)).toList
      (enclosed .braceOpen .braceClose (items.flatMap lexemes)) :=
  spells_lines h hne rfl rfl

theorem spells_inFittedParens :
    Spells (inFittedParens (items.map text)).toList
      (enclosed .parenOpen .parenClose (items.flatMap lexemes)) := by
  unfold inFittedParens
  split
  · exact spells_lines h hne rfl rfl
  · have hjoin := spells_join_map (show Separates ", " by decide) h
    exact spells_wrap (fun cs more hcs => .mark rfl hcs) (.mark rfl .nil)
      (ends_cons.mpr (by decide)) hjoin (join_map_eq_empty h hne)

end Laid

end Items

/-! ## Parts of types -/

theorem spells_name {name : String} (h : isName name.toList) {cs : List Char}
    {lexemes : List Lexeme} (hends : Ends cs) (hcs : Spells cs lexemes) :
    Spells (name.toList ++ cs) (.name name :: lexemes) := by
  simpa using Spells.name h hends hcs

theorem TypeExpr.spells_text {type : TypeExpr} (h : type.isWritten) :
    Spells type.text.toList type.lexemes := by
  induction type with
  | named name => simpa [text, lexemes] using spells_name h ends_nil .nil
  | list item ih =>
      simp only [text, String.toList_append, lexemes]
      exact .mark rfl ((ih h).append (ends_cons.mpr (by decide)) (.mark rfl .nil))
  | nonNull inner ih =>
      simp only [isWritten, Bool.and_eq_true] at h
      simp only [text, String.toList_append, lexemes]
      exact (ih h.2).append (ends_cons.mpr (by decide)) (.mark rfl .nil)

@[simp] theorem join_plain (separator text : String) : join separator [text, "", ""] = text := by
  by_cases htext : text.isEmpty <;> simp_all [join]

theorem InputDef.lexemes_ne_nil (d : InputDef) : d.lexemes ≠ [] := by
  simp [lexemes]

theorem InputDef.spells_print {d : InputDef} (h : d.Bare) : Spells d.print.toList d.lexemes := by
  have hbare : Spells (d.name ++ ": " ++ d.type.text).toList
      (.name d.name :: .mark .colon :: d.type.lexemes) := by
    rw [String.append_assoc, String.toList_append, String.toList_append]
    exact spells_name h.name (ends_cons.mpr (by decide))
      (.mark rfl (.skip (by decide) (TypeExpr.spells_text h.type)))
  have hdefault : printDefault none = "" := rfl
  have hdirectives : printDirectives [] = "" := rfl
  simp only [print, h.default, h.directives, hdefault, hdirectives, join_plain]
  cases hd : d.description with
  | none => simpa [described, wrap, lexemes, hd] using hbare
  | some text =>
      obtain ⟨hblock, hne, hprinted⟩ := h.description text hd
      have hstring := Spells.string hne hprinted (hbare.skip (c := '\n') (by decide))
      simpa [described, wrap, Description.print, lineString, hblock, lexemes, hd] using hstring

theorem FieldDef.lexemes_ne_nil (d : FieldDef) : d.lexemes ≠ [] := by
  simp [lexemes]

theorem FieldDef.spells_print {d : FieldDef} (h : d.Bare) : Spells d.print.toList d.lexemes := by
  have hdefault : printDefault none = "" := rfl
  have hdirectives : printDirectives [] = "" := rfl
  simp only [print, h.default, h.directives, hdefault, hdirectives, join_plain, h.description]
  have harguments := spells_inFittedParens (fun a ha => InputDef.spells_print (h.arguments a ha))
    fun a _ => a.lexemes_ne_nil
  have htype : Spells (": " ++ d.type.text).toList (.mark .colon :: d.type.lexemes) := by
    rw [String.toList_append]
    exact .mark rfl (.skip (by decide) (TypeExpr.spells_text h.type))
  have hrest := harguments.append (htype.ends (by simp)) htype
  have hends := hrest.ends (by
    intro n
    unfold enclosed
    split <;> simp)
  simpa [described, wrap, lexemes] using spells_name h.name hends hrest

/-- Words and a block, apart from each other. -/
theorem spells_heading {word name block : String} {lexemes : List Lexeme}
    (hword : isName word.toList) (hname : isName name.toList)
    (hblock : Spells block.toList lexemes) (blanks : List String)
    (hblanks : ∀ blank ∈ blanks, blank = "") :
    Spells (join " " (word :: name :: (blanks ++ [block]))).toList
      (.name word :: .name name :: lexemes) := by
  have hone {text : String} (h : isName text.toList) : Spells text.toList [.name text] := by
    simpa only [List.append_nil] using spells_name h ends_nil .nil
  have hpieces : ∀ p ∈ (word, [.name word]) :: (name, [.name name]) ::
      (blanks.map (fun blank => (blank, [])) ++ [(block, lexemes)]), Spells p.1.toList p.2 := by
    simp only [List.mem_cons, List.mem_append, List.mem_map, List.not_mem_nil, or_false]
    rintro p (rfl | rfl | ⟨blank, hblank, rfl⟩ | rfl)
    · exact hone hword
    · exact hone hname
    · rw [hblanks blank hblank]
      exact .nil
    · exact hblock
  have hnone : blanks.flatMap (fun _ => ([] : List Lexeme)) = [] := by simp
  simpa [List.flatMap_map, Function.comp_def, hnone] using
    spells_join (show Separates " " by decide) hpieces

/-- Bare types are printed as texts that spell their lexemes. -/
theorem TypeDef.spells_printBare {d : TypeDef} (h : d.Bare) :
    Spells d.printBare.toList d.lexemes := by
  have hdirectives : printDirectives [] = "" := rfl
  have hinterfaces : printInterfaces [] = "" := rfl
  rcases h.body with ⟨fields, hbody, hfields⟩ | ⟨fields, hbody, hfields⟩
  · have hblock := spells_block (fun f hf => FieldDef.spells_print (hfields f hf))
      fun f _ => f.lexemes_ne_nil
    simp only [printBare, lexemes, hbody, h.directives, hdirectives, hinterfaces]
    exact spells_heading (by decide) h.name hblock ["", ""] (by simp)
  · have hblock := spells_block (fun f hf => InputDef.spells_print (hfields f hf))
      fun f _ => f.lexemes_ne_nil
    simp only [printBare, lexemes, hbody, h.directives, hdirectives]
    exact spells_heading (by decide) h.name hblock [""] (by simp)

end RecordApi.Language
