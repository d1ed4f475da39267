import RecordApi.Proofs.Validation.Members

/-!
# Names of types in documents

A document without reports defines no two types of one name. Whatever type its types and its
schema definitions name is defined or a standard one, and whatever its extensions extend is
defined.
-/

namespace RecordApi.Validation

open RecordApi.Language

variable {σ : Type}

/-! ## Types of one name -/

/-- The name of the type whose definition a visit enters. -/
def Visit.defined (visit : Visit σ) : List String :=
  match visit.entering, visit.part with
  | true, .type d => [d.name]
  | _, _ => []

/-- Where no type is reported as defined twice, none is. -/
theorem nodup_of_uniqueTypes {visits : List (Visit σ)}
    (h : (uniqueTypes visits).flatten = []) : (visits.flatMap Visit.defined).Nodup := by
  have hmemory (visits : List (Visit σ)) (step : Visit σ → List Name → List Report × List Name)
      (hdefined : ∀ visit seen, (step visit seen).1 = [] →
        ∀ name ∈ visit.defined, name ∉ seen.map (·.text) ∧
          name ∈ (step visit seen).2.map (·.text))
      (hkept : ∀ visit seen, ∀ name ∈ seen.map (·.text), name ∈ (step visit seen).2.map (·.text))
      (seen : List Name) (h : (Rule.remembering step seen visits).flatten = []) :
      (visits.flatMap Visit.defined).Nodup ∧
        ∀ name ∈ visits.flatMap Visit.defined, name ∉ seen.map (·.text) := by
    induction visits generalizing seen with
    | nil => exact ⟨List.nodup_nil, nofun⟩
    | cons visit rest ih =>
        rw [Rule.remembering_cons, List.flatten_cons, List.append_eq_nil_iff] at h
        obtain ⟨hnodup, hunseen⟩ := ih _ h.2
        have hown := hdefined visit seen h.1
        rw [List.flatMap_cons]
        refine ⟨List.nodup_append.mpr ⟨?_, hnodup, ?_⟩, fun name hname => ?_⟩
        · unfold Visit.defined
          split <;> simp
        · rintro name hname _ hlater rfl
          exact hunseen name hlater (hown name hname).2
        · rcases List.mem_append.mp hname with hname | hname
          · exact (hown name hname).1
          · exact fun hseen => hunseen name hname (hkept visit seen name hseen)
  refine (hmemory visits _ ?_ ?_ [] h).1
  · intro visit seen hnone name hname
    unfold Visit.defined at hname
    split at hname
    · next d hentering hpart =>
        obtain rfl := List.mem_singleton.mp hname
        simp only [hentering, hpart] at hnone ⊢
        exact ⟨(Rule.repeated_cons_eq_nil hnone).1,
          (Rule.repeated_spec _ _ seen).1 d.name (.inr (List.mem_singleton_self _))⟩
    · cases hname
  · intro visit seen name hname
    split
    · exact (Rule.repeated_spec _ _ seen).1 name (.inl hname)
    · exact hname

/-- A document without reports defines no two types of one name. -/
theorem nodup_types_of_reports {document : Document}
    (h : declarationReports document.definitions = []) :
    (document.types.map (·.name)).Nodup := by
  have hunique : (uniqueTypes
      (documentVisits (fun _ scope => scope) document.definitions ())).flatten = [] :=
    (Rule.reports_eq_nil (total_declarationRules document.definitions)).mp h _
      (by simp [declarationRules])
  have heach (definitions : List Definition) :
      ((Document.ofDefinitions definitions).types.map (·.name)).Sublist
        ((each (definitionVisits fun _ scope => scope) definitions ()).flatMap Visit.defined) := by
    induction definitions with
    | nil => exact List.nil_sublist _
    | cons d rest ih =>
        rw [each, List.flatMap_cons, List.flatMap_append]
        cases d with
        | type t =>
            refine List.Sublist.append (List.singleton_sublist.mpr ?_) ih
            simp [definitionVisits, around, Visit.defined]
        | _ => exact ih.trans (List.sublist_append_right _ _)
  have hdefined := nodup_of_uniqueTypes hunique
  refine hdefined.sublist ((heach document.definitions).trans ?_)
  simp [documentVisits, around, Visit.defined]

/-! ## Types that are named -/

/-- Whether a type is defined by a document or needs no definition. -/
def Known (document : Document) (name : String) : Prop :=
  name ∈ document.types.map (·.name) ∨ name ∈ standardNames

theorem mem_each {α : Type} {visits : α → σ → List (Visit σ)} {things : List α} {scope : σ}
    {thing : α} (hthing : thing ∈ things) {visit : Visit σ} (h : visit ∈ visits thing scope) :
    visit ∈ each visits things scope :=
  List.mem_flatMap.mpr ⟨thing, hthing, h⟩

theorem known_of_visit {document : Document} (h : declarationReports document.definitions = [])
    {name : String}
    (hvisit : ⟨true, .typeName true ⟨name, Pos.nowhere⟩, ()⟩ ∈
      each (definitionVisits fun _ scope => scope) document.definitions ()) :
    Known document name := by
  have hknown : (knownTypes (Vocabulary.extend [] standardDirectives document.definitions)
      (documentVisits (fun _ scope => scope) document.definitions ())).flatten = [] :=
    (Rule.reports_eq_nil (total_declarationRules document.definitions)).mp h _
      (by simp [declarationRules])
  have hmem : (⟨true, .typeName true ⟨name, Pos.nowhere⟩, ()⟩ : Visit Unit) ∈
      documentVisits (fun _ scope => scope) document.definitions () := by
    simp [documentVisits, around, hvisit]
  have hnone := List.flatten_eq_nil_iff.mp hknown _ (List.mem_map_of_mem hmem)
  simp only [if_true] at hnone
  split at hnone
  · next hfound =>
      rw [Bool.or_eq_true, Bool.true_and] at hfound
      refine hfound.imp (fun hdefined => ?_) List.contains_iff_mem.mp
      obtain ⟨d, hd, hname⟩ := List.mem_filterMap.mp
        (show name ∈ document.definitions.filterMap _ from List.contains_iff_mem.mp hdefined)
      cases d with
      | type t =>
          obtain rfl := Option.some.inj hname
          exact List.mem_map_of_mem (List.mem_filterMap.mpr ⟨_, hd, rfl⟩)
      | _ => cases hname
  · cases hnone

/-- What an extension extends is defined in a document without reports. -/
theorem defined_of_extension {document : Document}
    (h : declarationReports document.definitions = []) {d : TypeDef}
    (hd : .typeExtension d ∈ document.definitions) : d.name ∈ document.types.map (·.name) := by
  have hpossible : (possibleExtensions document.definitions
      (documentVisits (fun _ scope => scope) document.definitions ())).flatten = [] :=
    (Rule.reports_eq_nil (total_declarationRules document.definitions)).mp h _
      (by simp [declarationRules])
  have hvisit : (⟨true, .typeExtension d, ()⟩ : Visit Unit) ∈
      definitionVisits (fun _ scope => scope) (.typeExtension d) () := List.mem_cons_self
  have hmem : (⟨true, .typeExtension d, ()⟩ : Visit Unit) ∈
      documentVisits (fun _ scope => scope) document.definitions () := by
    simp [documentVisits, around, mem_each hd hvisit]
  have hnone := List.flatten_eq_nil_iff.mp hpossible _ (List.mem_map_of_mem hmem)
  simp only [if_true] at hnone
  split at hnone
  · next defined hfind =>
      have hname : defined.name = d.name := by simpa using List.find?_some hfind
      exact hname ▸ List.mem_map_of_mem (List.mem_reverse.mp (List.mem_of_find?_eq_some hfind))
  · cases hnone

/-- The types of fields are known in a document without reports. -/
theorem known_of_field {document : Document} (h : declarationReports document.definitions = [])
    {t : TypeDef} (ht : .type t ∈ document.definitions) {f : FieldDef}
    (hf : f ∈ (Definition.type t).fields) : Known document f.type.baseName := by
  refine known_of_visit h (mem_each ht ?_)
  obtain ⟨_, _, _, body⟩ := t
  cases body with
  | object interfaces fields | interface interfaces fields =>
      have hvisit : (⟨true, .typeName true ⟨f.type.baseName, Pos.nowhere⟩, ()⟩ : Visit Unit) ∈
          fieldDefVisits (fun _ scope => scope) f () := by
        simp [fieldDefVisits, around, andThen, mentionVisits, typeVisits, alone]
      simp only [definitionVisits, around, bodyVisits, andThen, List.mem_append, List.mem_cons]
      exact .inl (.inr (.inr (.inr (mem_each hf hvisit))))
  | input fields =>
      obtain ⟨i, hi, rfl⟩ := List.mem_map.mp hf
      have hvisit : (⟨true, .typeName true ⟨i.type.baseName, Pos.nowhere⟩, ()⟩ : Visit Unit) ∈
          inputDefVisits (fun _ scope => scope) "INPUT_FIELD_DEFINITION" i () := by
        simp [inputDefVisits, around, andThen, mentionVisits, typeVisits, alone]
      simp only [definitionVisits, around, bodyVisits, andThen, List.mem_append, List.mem_cons]
      exact .inl (.inr (.inr (mem_each hi hvisit)))
  | _ => cases hf

/-- The types that a schema definition names are known in a document without reports. -/
theorem known_of_root {document : Document} (h : declarationReports document.definitions = [])
    {d : SchemaDef} (hd : .schema d ∈ document.definitions) {root : RootDef}
    (hroot : root ∈ d.roots) : Known document root.type := by
  refine known_of_visit h (mem_each hd ?_)
  have hvisit : (⟨true, .typeName true ⟨root.type, Pos.nowhere⟩, ()⟩ : Visit Unit) ∈
      mentionVisits (fun _ scope => scope) root.type () := by
    simp [around, mentionVisits, typeVisits, alone]
  simp only [definitionVisits, around, schemaVisits, andThen, List.mem_append, List.mem_cons]
  exact .inl (.inr (.inr (mem_each hroot hvisit)))

end RecordApi.Validation
