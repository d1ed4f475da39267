import Mathlib.Data.List.Nodup
import Mathlib.Data.List.Pairwise
import RecordApi.Proofs.Validation.Declarations

/-!
# Members of types

A rule on members remembers for every type what its definition and its extensions have given it.
In a document without reports no member is given to a type twice, so a field is told by the names of
its type and its own; and no argument is given to a field twice.
-/

namespace RecordApi.Validation

open RecordApi.Language

namespace Rule

theorem repeated_cons_eq_nil {message : String → String} {name : Name} {rest seen : List Name}
    (h : (repeated message (name :: rest) seen).1 = []) :
    name.text ∉ seen.map (·.text) ∧ (repeated message rest (seen ++ [name])).1 = [] := by
  have hnew : name.text ∉ seen.map (·.text) :=
    (repeated_spec message (name :: rest) seen).2 h name.text (by simp)
  have hnone : seen.find? (·.text == name.text) = none := by
    rw [List.find?_eq_none]
    intro other hother hsame
    exact hnew ((beq_iff_eq.mp hsame : other.text = name.text) ▸ List.mem_map_of_mem hother)
  refine ⟨hnew, ?_⟩
  rw [repeated_eq, List.foldl_cons, meet] at h
  simp only [hnone] at h
  exact h

/-- Names that nothing is reported on are distinct. -/
theorem nodup_of_repeated {message : String → String} {names seen : List Name}
    (h : (repeated message names seen).1 = []) : (names.map (·.text)).Nodup := by
  induction names generalizing seen with
  | nil => exact List.nodup_nil
  | cons name rest ih =>
      obtain ⟨-, hrest⟩ := repeated_cons_eq_nil h
      refine List.nodup_cons.mpr ⟨fun hagain => ?_, ih hrest⟩
      exact (repeated_spec message rest (seen ++ [name])).2 hrest name.text hagain (by simp)

end Rule

/-! ## One rule on members -/

section Members

variable (members : TypeBody → List String)

/-- What a part gives to types, each member under the name of its type. -/
def Part.given : Part → List (String × String)
  | .type d | .typeExtension d => (members d.body).map fun member => (d.name, member)
  | _ => []

/-- What a visit gives to types: a part counts when it is entered. -/
def Visit.given {σ : Type} (visit : Visit σ) : List (String × String) :=
  if visit.entering then visit.part.given members else []

/-- What a memory holds under the name of a type. -/
def remembered (memory : List (String × List Name)) (member : String × String) : Prop :=
  member.2 ∈ ((memory.lookup member.1).getD []).map (·.text)

/-- What a rule on members reports at one visit, and what it remembers by then. -/
def Visit.remember {σ : Type} (message : String → String → String) (visit : Visit σ)
    (memory : List (String × List Name)) : List Report × List (String × List Name) :=
  match visit.entering, visit.part with
  | true, .type d | true, .typeExtension d =>
    let (reports, seen) := Rule.repeated (message d.name) ((members d.body).map unplaced)
      ((memory.lookup d.name).getD [])
    (reports, (d.name, seen) :: memory)
  | _, _ => ([], memory)

theorem uniqueMembers_eq {σ : Type} (message : String → String → String) :
    (uniqueMembers members message : Rule σ) =
      Rule.remembering (Visit.remember members message) [] :=
  rfl

variable {members} {σ : Type}

theorem remembered_cons {memory : List (String × List Name)} {name : String} {seen : List Name}
    {member : String × String} :
    remembered ((name, seen) :: memory) member ↔
      if member.1 = name then member.2 ∈ seen.map (·.text) else remembered memory member := by
  by_cases h : member.1 = name
  · simp [remembered, h]
  · simp [remembered, List.lookup_cons, h, beq_false_of_ne h]

/-- What a type is given at one visit without reports is distinct and new. It is remembered, and so
is all that was remembered before. -/
theorem remembered_step {message : String → String} {d : TypeDef}
    {memory : List (String × List Name)}
    (h : (Rule.repeated message ((members d.body).map unplaced)
      ((memory.lookup d.name).getD [])).1 = []) :
    let given := (members d.body).map fun member => (d.name, member)
    let after := (d.name, (Rule.repeated message ((members d.body).map unplaced)
      ((memory.lookup d.name).getD [])).2) :: memory
    given.Nodup ∧ (∀ member ∈ given, ¬ remembered memory member) ∧
      ∀ member, member ∈ given ∨ remembered memory member → remembered after member := by
  intro given after
  obtain ⟨hkept, hnew⟩ := Rule.repeated_spec message ((members d.body).map unplaced)
    ((memory.lookup d.name).getD [])
  have htexts : ((members d.body).map unplaced).map (·.text) = members d.body := by
    rw [List.map_map]
    exact List.map_id _
  rw [htexts] at hkept hnew
  refine ⟨?_, fun member hmember => ?_, fun member hmember => ?_⟩
  · have hnodup := Rule.nodup_of_repeated h
    rw [htexts] at hnodup
    exact List.Nodup.map (fun _ _ hsame => (Prod.mk.inj hsame).2) hnodup
  · obtain ⟨member, hmem, rfl⟩ := List.mem_map.mp hmember
    exact hnew h member hmem
  · rw [remembered_cons]
    rcases hmember with hgiven | hbefore
    · obtain ⟨member, hmem, rfl⟩ := List.mem_map.mp hgiven
      exact (if_pos rfl).mpr (hkept _ (.inr hmem))
    · split
      · next hname => exact hkept _ (.inl (hname ▸ hbefore))
      · exact hbefore

/-- A rule on members that reports nothing has met no member twice, and none that it remembered. -/
theorem nodup_of_uniqueMembers {message : String → String → String} {visits : List (Visit σ)}
    (h : (uniqueMembers members message visits).flatten = []) :
    (visits.flatMap (Visit.given members)).Nodup := by
  have hmemory (visits : List (Visit σ)) (memory : List (String × List Name))
      (h : (Rule.remembering (Visit.remember members message) memory visits).flatten = []) :
      (visits.flatMap (Visit.given members)).Nodup ∧
        ∀ member ∈ visits.flatMap (Visit.given members), ¬ remembered memory member := by
    induction visits generalizing memory with
    | nil => simp
    | cons visit rest ih =>
        rw [Rule.remembering_cons, List.flatten_cons, List.append_eq_nil_iff] at h
        obtain ⟨hvisit, hrest⟩ := h
        obtain ⟨hnodup, hapart⟩ := ih _ hrest
        -- Whatever is remembered behind this visit does not come again.
        have hstep (given : List (String × String)) {after : List (String × List Name)}
            (hgiven : visit.given members = given)
            (hafter : ∀ member ∈ rest.flatMap (Visit.given members), ¬ remembered after member)
            (h : given.Nodup ∧ (∀ member ∈ given, ¬ remembered memory member) ∧
              ∀ member, member ∈ given ∨ remembered memory member → remembered after member) :
            ((visit :: rest).flatMap (Visit.given members)).Nodup ∧
              ∀ member ∈ (visit :: rest).flatMap (Visit.given members),
                ¬ remembered memory member := by
          obtain ⟨hown, hnew, hkept⟩ := h
          rw [List.flatMap_cons, hgiven]
          refine ⟨List.nodup_append.mpr ⟨hown, hnodup, ?_⟩, fun member hmember => ?_⟩
          · rintro member hmember _ hagain rfl
            exact hafter member hagain (hkept member (.inl hmember))
          · rcases List.mem_append.mp hmember with hmember | hmember
            · exact hnew member hmember
            · exact fun hbefore => hafter member hmember (hkept member (.inr hbefore))
        have hnothing : ([] : List (String × String)).Nodup ∧
            (∀ member ∈ ([] : List (String × String)), ¬ remembered memory member) ∧
              ∀ member, member ∈ ([] : List (String × String)) ∨ remembered memory member →
                remembered memory member := by
          simp
        obtain ⟨entering, part, scope⟩ := visit
        cases entering with
        | false => exact hstep [] rfl hapart hnothing
        | true =>
            cases part with
            | type d => exact hstep _ rfl hapart (remembered_step hvisit)
            | typeExtension d => exact hstep _ rfl hapart (remembered_step hvisit)
            | _ => exact hstep [] rfl hapart hnothing
  exact (hmemory visits [] (uniqueMembers_eq members message ▸ h)).1

end Members

/-! ## Fields -/

/-- What a definition or an extension gives to its type, under the name of the type. -/
def givenFields : Definition → List (String × FieldDef)
  | .type d => (Definition.type d).fields.map (d.name, ·)
  | .typeExtension d => (Definition.typeExtension d).fields.map (d.name, ·)
  | _ => []

/-- The name of the type and that of the field. -/
def memberOf (given : String × FieldDef) : String × String :=
  (given.1, given.2.name)

theorem mem_givenFields {d : Definition} {name : String} {f : FieldDef} :
    (name, f) ∈ givenFields d ↔ d.name? = some name ∧ f ∈ d.fields := by
  have hmem (typeName : String) (fields : List FieldDef) :
      (name, f) ∈ fields.map (typeName, ·) ↔ some typeName = some name ∧ f ∈ fields := by
    simp [and_comm]
  cases d with
  | type t => exact hmem t.name _
  | typeExtension t => exact hmem t.name _
  | _ => simp [givenFields, Definition.fields]

theorem map_memberOf_fields (d : TypeDef) :
    ((Definition.type d).fields.map (d.name, ·)).map memberOf =
      (fieldNames d.body).map fun member => (d.name, member) := by
  obtain ⟨_, name, _, body⟩ := d
  cases body <;> simp [Definition.fields, fieldNames, memberOf, InputDef.toField]

/-- The visits of a definition show what it gives to its type. -/
theorem given_sublist (d : Definition) :
    ((givenFields d).map memberOf).Sublist
      ((definitionVisits (fun _ scope => scope) d ()).flatMap (Visit.given fieldNames)) := by
  cases d with
  | type t => exact map_memberOf_fields t ▸ List.sublist_append_left _ _
  | typeExtension t => exact map_memberOf_fields t ▸ List.sublist_append_left _ _
  | _ => exact List.nil_sublist _

/-- In a document without reports no type is given two fields of one name. -/
theorem nodup_givenFields {definitions : List Definition}
    (h : declarationReports definitions = []) :
    ((definitions.flatMap givenFields).map memberOf).Nodup := by
  have hunique :
      (uniqueFields (documentVisits (fun _ scope => scope) definitions ())).flatten = [] :=
    (Rule.reports_eq_nil (total_declarationRules definitions)).mp h _ (by simp [declarationRules])
  have heach (definitions : List Definition) :
      ((definitions.flatMap givenFields).map memberOf).Sublist
        ((each (definitionVisits fun _ scope => scope) definitions ()).flatMap
          (Visit.given fieldNames)) := by
    induction definitions with
    | nil => exact List.nil_sublist _
    | cons d rest ih =>
        rw [List.flatMap_cons, List.map_append, each, List.flatMap_cons, List.flatMap_append]
        exact (given_sublist d).append ih
  have hvisits : (documentVisits (fun _ scope => scope) definitions ()).flatMap
      (Visit.given fieldNames) =
        (each (definitionVisits fun _ scope => scope) definitions ()).flatMap
          (Visit.given fieldNames) := by
    simp [documentVisits, around, Visit.given, Part.given]
  have hgiven := nodup_of_uniqueMembers hunique
  rw [hvisits] at hgiven
  exact hgiven.sublist (heach _)

/-- In a document without reports, what two definitions give to one type differs by name. -/
theorem name_ne_of_given {definitions : List Definition} (h : declarationReports definitions = [])
    {d e : Definition} (hd : d ∈ definitions) (he : e ∈ definitions) (hne : d ≠ e) {name : String}
    (hdname : d.name? = some name) (hename : e.name? = some name) {f g : FieldDef}
    (hf : f ∈ d.fields) (hg : g ∈ e.fields) : f.name ≠ g.name := by
  have hnodup := nodup_givenFields h
  rw [List.map_flatMap, List.nodup_flatMap] at hnodup
  have hsymm : Std.Symm (Function.onFun List.Disjoint fun d => (givenFields d).map memberOf) :=
    ⟨fun _ _ hapart member hfirst hsecond => hapart hsecond hfirst⟩
  have hapart := hnodup.2.forall hd he hne
  intro hsame
  refine hapart (List.mem_map_of_mem (mem_givenFields.mpr ⟨hdname, hf⟩)) ?_
  rw [show memberOf (name, f) = memberOf (name, g) from congrArg (name, ·) hsame]
  exact List.mem_map_of_mem (mem_givenFields.mpr ⟨hename, hg⟩)

/-- In a document without reports, fields of one name that one type is given are the same. -/
theorem eq_of_given {definitions : List Definition} (h : declarationReports definitions = [])
    {d e : Definition} (hd : d ∈ definitions) (he : e ∈ definitions) {name : String}
    (hdname : d.name? = some name) (hename : e.name? = some name) {f g : FieldDef}
    (hf : f ∈ d.fields) (hg : g ∈ e.fields) (hsame : f.name = g.name) : f = g := by
  have hgiven : (name, f) = (name, g) := List.inj_on_of_nodup_map (nodup_givenFields h)
    (List.mem_flatMap.mpr ⟨d, hd, mem_givenFields.mpr ⟨hdname, hf⟩⟩)
    (List.mem_flatMap.mpr ⟨e, he, mem_givenFields.mpr ⟨hename, hg⟩⟩)
    (congrArg (name, ·) hsame)
  exact (Prod.mk.inj hgiven).2

/-! ## Arguments of fields -/

theorem Rule.nodup_of_duplicates {names : List String} (h : Rule.duplicates names = []) :
    names.Nodup := by
  rw [List.nodup_iff_count_le_one]
  intro name
  by_contra hmore
  have hfound : name ∈ Rule.duplicates names := by
    refine List.mem_filter.mpr ⟨List.mem_eraseDups.mpr ?_, by simpa using hmore⟩
    exact List.count_pos_iff.mp (by omega)
  rw [h] at hfound
  cases hfound

/-- In a document without reports no field takes two arguments of one name. -/
theorem nodup_arguments {definitions : List Definition} (h : declarationReports definitions = [])
    {d : Definition} (hd : d ∈ definitions) {f : FieldDef} (hf : f ∈ d.fields) :
    (f.arguments.map (·.name)).Nodup := by
  have hunique :
      (uniqueArgumentDefs (documentVisits (fun _ scope => scope) definitions ())).flatten = [] :=
    (Rule.reports_eq_nil (total_declarationRules definitions)).mp h _ (by simp [declarationRules])
  have hnone (visit : Visit Unit) (rest : List (Visit Unit))
      (hvisits : definitionVisits (fun _ scope => scope) d () = visit :: rest) :
      (uniqueArgumentDefs [visit]).flatten = [] := by
    have hmem : visit ∈ documentVisits (fun _ scope => scope) definitions () := by
      refine List.mem_cons_of_mem _ (List.mem_append_left _ (List.mem_flatMap.mpr ⟨d, hd, ?_⟩))
      rw [hvisits]
      exact List.mem_cons_self
    rw [uniqueArgumentDefs, Rule.entering, Rule.looking, List.flatten_eq_nil_iff] at hunique ⊢
    intro reports hreports
    refine hunique reports ?_
    obtain rfl := List.mem_singleton.mp hreports
    exact List.mem_map_of_mem hmem
  -- The arguments of all fields are looked at on entering the type.
  have hfields (t : TypeDef) (ht : (Definition.type t).fields = d.fields)
      (hlook : (uniqueArgumentDefs [(⟨true, .type t, ()⟩ : Visit Unit)]).flatten = []) :
      (f.arguments.map (·.name)).Nodup := by
    rw [← ht] at hf
    obtain ⟨_, name, _, body⟩ := t
    cases body with
    | object _ fields | interface _ fields =>
        have hall : fields.flatMap (fun f =>
            repeatedArgumentDefs (name ++ "." ++ f.name) f.arguments) = [] := by
          simpa [uniqueArgumentDefs, Rule.entering, Rule.looking] using hlook
        have hnone := List.flatMap_eq_nil_iff.mp hall f hf
        exact Rule.nodup_of_duplicates (List.map_eq_nil_iff.mp hnone)
    | input fields =>
        obtain ⟨field, -, rfl⟩ := List.mem_map.mp hf
        exact List.nodup_nil
    | _ => cases hf
  cases d with
  | type t => exact hfields t rfl (hnone _ _ rfl)
  | typeExtension t => exact hfields t rfl (hnone ⟨true, .typeExtension t, ()⟩ _ rfl)
  | _ => cases hf

end RecordApi.Validation
