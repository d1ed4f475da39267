import RecordApi.Proofs.Request.Acceptance
import RecordApi.Proofs.Schema.RequiredInputs

/-!
# Input types that can be filled

A schema has no enumeration without values, and an input type of it is one of its document. So a
value can be sent for an input type whose requirements lead to no cycle: it is made once values have
been made for all that the input type requires.
-/

namespace RecordApi

open RecordApi.Language Relation

/-! ## Types of a schema -/

namespace SchemaBuild

/-- Extensions make no input type of another type. -/
theorem body_of_foldl_extendType {extensions : List TypeDef} {d : TypeDef} {fields : List InputDef}
    (h : (extensions.foldl extendType d).body = .input fields) : ∃ own, d.body = .input own := by
  induction extensions generalizing d with
  | nil => exact ⟨fields, h⟩
  | cons more rest ih =>
      obtain ⟨own, hown⟩ := ih h
      unfold extendType at hown
      split at hown
      · obtain ⟨_, _, _, body⟩ := d
        obtain ⟨_, _, _, extra⟩ := more
        cases body with
        | input fields => exact ⟨fields, rfl⟩
        | _ => cases extra <;> cases hown
      · exact ⟨own, hown⟩

end SchemaBuild

open SchemaBuild

namespace Schema

variable {document : Document} {schema : Schema} {name : String}

/-- An input type of a schema is one of its document. -/
theorem isInput_of_shape? (h : Schema.ofDefinitions document.definitions = .ok schema)
    {slots : List InputSlot} (hshape : schema.shape? (.named name) = some (.input slots)) :
    document.IsInput name := by
  obtain ⟨⟨shapes, builtins, hbuiltins, htypes⟩, -⟩ := ofDefinitions_eq_ok h
  obtain ⟨t, hfind, hslots⟩ := Option.map_eq_some_iff.mp hshape
  rw [type?, htypes, List.append_assoc, List.find?_append, Option.or_eq_some_iff] at hfind
  rcases hfind with hdeclared | ⟨-, hstandard⟩
  · rw [List.find?_map] at hdeclared
    obtain ⟨e, he, rfl⟩ := Option.map_eq_some_iff.mp hdeclared
    have hfound : (extendedTypes document.definitions).find? (·.name == name) = some e := he
    have hname : e.name = name := by simpa using List.find?_some hfound
    have hplain := not_standard_of_mem_extendedTypes (List.mem_of_find?_eq_some he)
    rw [find?_extendedTypes (hname ▸ hplain)] at hfound
    obtain ⟨d, hd, rfl⟩ := Option.map_eq_some_iff.mp hfound
    obtain ⟨fields, hfields⟩ : ∃ fields,
        ((extensionsOf document.definitions).foldl extendType d).body = .input fields := by
      revert hslots
      unfold shapeOf
      cases ((extensionsOf document.definitions).foldl extendType d).body <;> simp
    obtain ⟨own, hown⟩ := body_of_foldl_extendType hfields
    exact ⟨d, own, hd, hown⟩
  · rcases List.mem_append.mp (List.mem_of_find?_eq_some hstandard) with hbuiltin | hown
    · obtain ⟨scalar, -, rfl⟩ := List.mem_map.mp (hbuiltins t hbuiltin)
      cases hslots
    · have hnone : ∀ t ∈ introspectionTypes, t.shape.isInputObject = false := by decide
      have hother := hnone t hown
      rw [hslots] at hother
      cases hother

/-- The enumerations of a schema have values. -/
theorem options_ne_nil (h : Schema.build document = .ok schema) {options : List EnumOption}
    (hshape : schema.shape? (.named name) = some (.enum options)) : options ≠ [] := by
  rintro rfl
  obtain ⟨-, hbuilt, hfaults⟩ := build_eq_ok h
  obtain ⟨t, hfind, hoptions⟩ := Option.map_eq_some_iff.mp hshape
  have hmem := List.mem_of_find?_eq_some hfind
  by_cases hstandard : t.name ∈ standardNames
  · obtain ⟨⟨shapes, builtins, hbuiltins, htypes⟩, -⟩ := ofDefinitions_eq_ok hbuilt
    rw [htypes, List.mem_append, List.mem_append] at hmem
    rcases hmem with (hdeclared | hbuiltin) | hown
    · obtain ⟨d, hd, rfl⟩ := List.mem_map.mp hdeclared
      exact not_standard_of_mem_extendedTypes hd hstandard
    · obtain ⟨scalar, -, rfl⟩ := List.mem_map.mp (hbuiltins t hbuiltin)
      cases hoptions
    · have hnone : ∀ t ∈ introspectionTypes, t.shape ≠ .enum [] := by decide
      exact hnone t hown hoptions
  · obtain ⟨visited, hnone⟩ :=
      typeFaults_of_mem hfaults (List.mem_filter.mpr ⟨hmem, by simpa using hstandard⟩)
    simp [typeFaults, hoptions] at hnone

end Schema

/-! ## Values of input types -/

namespace Sources

variable {s : Sources}

/-- What an input field holds if it is marked against null: a list, or one named type. -/
theorem eq_nonNull_of_inputField {mode : InputMode} {f : FieldDef} (hwritten : f.type.isWritten)
    (h : (s.inputField mode f).type.isNonNull) :
    (∃ item, (s.inputField mode f).type = .nonNull (.list item)) ∨
      ∃ name, (s.inputField mode f).type = .nonNull (.named name) := by
  cases mode with
  | update =>
      have hnullable := nullable_of_written hwritten (s.inputBase .update)
      exact absurd (hnullable.symm.trans h) Bool.false_ne_true
  | create =>
      change (f.type.withBase (s.inputBase .create)).isNonNull at h
      change (∃ item, f.type.withBase (s.inputBase .create) = _) ∨
        ∃ name, f.type.withBase (s.inputBase .create) = _
      cases htype : f.type with
      | nonNull inner =>
          cases inner with
          | named name => exact .inr ⟨_, rfl⟩
          | list item => exact .inl ⟨_, rfl⟩
          | nonNull more =>
              rw [htype] at hwritten
              cases hwritten
      | _ =>
          rw [htype] at h
          cases h

end Sources

section Filled

open Request Validation

variable {s : Sources} {descriptors : List Descriptor} {generated : List (List Definition)}
  {merged : Document} {schema : Schema}
  (hreports : declarationReports s.working.definitions = [])
  (hnone : ∀ t ∈ s.working.types, ∀ fields, t.body ≠ .input fields)
  (hroots : s.roots.eraseDups.mapM (Assembly.describeRoot s.working s.options.selector) =
    .ok descriptors)
  (hwritten : s.working.Written)
  (hns : s.options.ns.toList.all isNameContinue)
  (hgenerated : Assembly.fragments (Assembly.rootBasis s.working s.options descriptors)
    descriptors = .ok generated)
  (hmerged : Merge.mergeDocuments (mergedPolicies s) (mergedDocuments s generated) = .ok merged)
  (hschema : Schema.build (Assembly.completeSchema merged) = .ok schema)

include hreports hroots hwritten hns hgenerated hmerged hschema

/-- An emitted input type comes into the schema as it stands. Each of its fields is of a type that
values can be given for, and if it is marked against null it holds a list or what is demanded. -/
theorem shape?_emitted {p : InputPair} (hp : s.Emitted p) :
    ∃ slots, schema.shape? (.named p.inputName) = some (.input slots) ∧
      (∀ slot ∈ slots, ∀ other ∈ slots, other.name = slot.name → other = slot) ∧
      ∀ slot ∈ slots, schema.isOf TypeShape.isInput slot.type ∧
        (slot.type.isNonNull → (∃ item, slot.type = .nonNull (.list item)) ∨
          ∃ other, slot.type = .nonNull (.named other) ∧
            (Assembly.completeSchema merged).Demands p.inputName other) := by
  obtain ⟨fields, shapes, hfields, ht, hshape, hinputs⟩ := shape?_input
    (Validation.nodup_types_of_reports hreports) hroots hwritten hns hgenerated hmerged hschema
    (Sources.undeclared_of_emitted hp)
    (not_includes_of_emitted hreports hp) hp
  refine ⟨_, hshape, fun slot hslot other hother hname => ?_, fun slot hslot => ?_⟩
  · obtain ⟨i, hi, rfl⟩ := List.mem_map.mp hslot
    obtain ⟨j, hj, rfl⟩ := List.mem_map.mp hother
    rw [Schema.eq_of_inputs hschema ht rfl hj hi hname]
  · obtain ⟨i, hi, rfl⟩ := List.mem_map.mp hslot
    obtain ⟨f, hf, rfl⟩ := List.mem_map.mp hi
    obtain ⟨hsingle, hunion⟩ := List.mem_filter.mp hf
    refine ⟨hinputs f hsingle (by simpa using hunion), fun hrequired => ?_⟩
    obtain ⟨source, hsource, -, hmem⟩ := Sources.exists_type_of_fields? hfields
    have hwritten := ((hwritten _ hsource).fields f (hmem f hsingle)).2
    refine (Sources.eq_nonNull_of_inputField hwritten hrequired).imp id ?_
    rintro ⟨other, hother⟩
    exact ⟨other, hother, _, _, _, ht, rfl, hi, hother⟩

include hnone

/-- An emitted input type whose requirements lead to no cycle accepts a record. The induction is on
what it requires. -/
theorem exists_accepted_emitted {p : InputPair} (hp : s.Emitted p)
    (hacyclic : ¬ LeadsToCycle (s.Needs (Assembly.completeSchema merged)) p) :
    ∃ entries, Accepted schema (.named p.inputName) (.record entries) := by
  obtain ⟨-, hbuilt, -⟩ := Schema.build_eq_ok hschema
  induction (acc_needs_iff hreports hroots hwritten hns hgenerated).mpr hacyclic with
  | intro p _ ih =>
      obtain ⟨slots, hshape, hsame, hslots⟩ :=
        shape?_emitted hreports hroots hwritten hns hgenerated hmerged hschema hp
      refine exists_accepted_record hshape hsame fun slot hslot hrequired => ?_
      obtain ⟨hinput, hholds⟩ := hslots slot hslot
      obtain ⟨item, hitem⟩ | ⟨other, hother, hdemands⟩ := hholds hrequired
      · rw [hitem]
        exact ⟨.list [], accepted_nonNull nofun (accepted_nil item)⟩
      · rw [hother] at hinput ⊢
        obtain ⟨d, hd, haccepted⟩ : ∃ d, d ≠ .null ∧ Accepted schema (.named other) d := by
          obtain ⟨shape, hfind, hsort⟩ := (Option.any_eq_true _ _).mp hinput
          replace hfind : schema.shape? (.named other) = some shape := hfind
          cases shape with
          | scalar link => exact exists_accepted_scalar hfind
          | enum options =>
              exact exists_accepted_enum hfind (Schema.options_ne_nil hschema hfind)
          | input more =>
              obtain ⟨q, hq, rfl⟩ := exists_emitted_of_demands hreports hnone hroots hwritten hns
                hgenerated hmerged hp hdemands (Schema.isInput_of_shape? hbuilt hfind)
              have hstep : s.Needs (Assembly.completeSchema merged) p q := ⟨hp, hq, hdemands⟩
              obtain ⟨entries, hentries⟩ := ih q hstep hq fun ⟨r, hpath, hcycle⟩ =>
                hacyclic ⟨r, hpath.head hstep, hcycle⟩
              exact ⟨.record entries, nofun, hentries⟩
          | _ => cases hsort
        exact ⟨d, accepted_nonNull hd haccepted⟩

end Filled

/-! ## Requirements of an assembled schema -/

section Requirements

open Request Validation

variable {sources : List Source} {s : Sources} {assembled : Assembled}
  (hgiven : ∀ d, .document d ∈ sources → d.Written)
  (hload : Assembly.workingDocument s.options.reading sources = .ok s.working)
  (hreports : declarationReports s.working.definitions = [])
  (hnone : ∀ t ∈ s.working.types, ∀ fields, t.body ≠ .input fields)
  (hbuilt : Assembly.assemble sources s.roots s.options = .ok assembled)

include hgiven hload hreports hbuilt

/-- An input type of an assembled schema requires itself, be it through others, just if its source
does. -/
theorem cycle_needs_assembled_iff {p : InputPair} :
    TransGen (s.Needs assembled.document) p p ↔ TransGen s.Demands p p := by
  have hwritten := workingDocument_written hgiven hload
  obtain ⟨hroots, hns, generated, merged, hgenerated, hmerged, hdocument⟩ :=
    assembleFrom_eq_ok (assembleFrom_of_assemble hload hbuilt)
  rw [hdocument]
  exact cycle_needs_iff hreports hroots hwritten hns hgenerated hmerged

include hnone

/-- An emitted input type has a value that ends just if its source leads to no cycle. -/
theorem fillable_assembled_iff {p : InputPair} (hp : s.Emitted p) :
    assembled.document.Fillable p.inputName ↔ ¬ LeadsToCycle s.Demands p := by
  have hwritten := workingDocument_written hgiven hload
  obtain ⟨hroots, hns, generated, merged, hgenerated, hmerged, hdocument⟩ :=
    assembleFrom_eq_ok (assembleFrom_of_assemble hload hbuilt)
  rw [hdocument, fillable_iff hreports hnone hroots hwritten hns hgenerated hmerged hp,
    leadsToCycle_needs_iff hreports hroots hwritten hns hgenerated hmerged]

/-- Where the working document follows the rules on definitions and declares no input types, those
of the assembled schema are the emitted ones and primitives. An emitted one requires itself just if
its source does, for the marks against null are kept on creation, and it has a value that ends just
if its source leads to no such cycle. Then a value can be sent for it, if the document makes a
schema. -/
theorem input_requirements :
    (∀ t ∈ assembled.document.types, ∀ fields, t.body = .input fields →
      (∃ p, s.Emitted p ∧ p.inputName = t.name) ∨ t.name ∈ Primitives.names s.options.ns) ∧
    (∀ p, TransGen (s.Needs assembled.document) p p ↔ TransGen s.Demands p p) ∧
    (∀ p, s.Emitted p →
      (assembled.document.Fillable p.inputName ↔ ¬ LeadsToCycle s.Demands p)) ∧
    ∀ p, s.Emitted p → ¬ LeadsToCycle s.Demands p →
      ∀ schema, Schema.build assembled.document = .ok schema →
        ∀ v : VariableDef, v.type = .nonNull (.named p.inputName) →
          ∃ given value, variableValues schema [v] given = .ok [(v.name.text, value)] := by
  have hwritten := workingDocument_written hgiven hload
  obtain ⟨hroots, hns, generated, merged, hgenerated, hmerged, hdocument⟩ :=
    assembleFrom_eq_ok (assembleFrom_of_assemble hload hbuilt)
  refine ⟨fun t ht fields hbody => ?_,
    fun p => cycle_needs_assembled_iff hgiven hload hreports hbuilt,
    fun p hp => fillable_assembled_iff hgiven hload hreports hnone hbuilt hp,
    fun p hp hacyclic schema hschema v htype => ?_⟩
  · rw [hdocument] at ht
    exact emitted_of_input hreports hnone hroots hwritten hns hgenerated hmerged ht hbody
  · rw [hdocument] at hschema
    obtain ⟨entries, hentries⟩ := exists_accepted_emitted hreports hnone hroots hwritten hns
      hgenerated hmerged hschema hp fun hcycle => hacyclic
        ((leadsToCycle_needs_iff hreports hroots hwritten hns hgenerated hmerged).mp hcycle)
    have haccepted : Accepted schema v.type (.record entries) := by
      rw [htype]
      exact accepted_nonNull nofun hentries
    exact ⟨_, exists_variableValues (d := .record entries) nofun haccepted⟩

end Requirements

/-- A library with a book, whose author has books again. -/
def library : Sources where
  working := Document.ofDefinitions
    [ .type (Fragment.objectType "Query"
        [Fragment.plainField "library" [] (.named "Library")]),
      .type (Fragment.objectType "Library"
        [ Fragment.plainField "id" [] (.nonNull (.named "ID")),
          Fragment.plainField "featured" [] (.nonNull (.named "Book")) ]),
      .type (Fragment.objectType "Book"
        [ Fragment.plainField "title" [] (.nonNull (.named "String")),
          Fragment.plainField "genre" [] (.nonNull (.named "Genre")),
          Fragment.plainField "author" [] (.nonNull (.named "Author")) ]),
      .type (Fragment.objectType "Author"
        [Fragment.plainField "books" [] (.nonNull (Fragment.listOf "Book"))]),
      .type ⟨none, "Genre", [], .enum [⟨none, "POETRY", []⟩]⟩ ]
  options := {}
  roots := ["Library"]

/-- How far a type is from a library. -/
def libraryRank (name : String) : Nat :=
  match name with
  | "Library" => 0
  | "Book" => 1
  | "Author" => 2
  | _ => 3

theorem acyclic_library (p : InputPair) : ¬ LeadsToCycle library.Demands p := by
  have hfields : ∀ t ∈ library.working.types, ∀ f ∈ (Definition.type t).fields,
      f.type = .nonNull (.named f.type.baseName) →
        libraryRank t.name < libraryRank f.type.baseName := by
    decide
  have hstep {p q : InputPair} (h : library.Demands p q) :
      libraryRank p.typeName < libraryRank q.typeName := by
    obtain ⟨-, -, -, -, fields, f, hfound, hf, htype⟩ := h
    obtain ⟨t, ht, hname, hmem⟩ := Sources.exists_type_of_fields? hfound
    have hbase : f.type.baseName = q.typeName := by rw [htype]; rfl
    rw [← hname, ← hbase]
    exact hfields t (mem_types.mpr ht) f (hmem f hf) (by rw [hbase, htype])
  have hless {p q : InputPair} (h : TransGen library.Demands p q) :
      libraryRank p.typeName < libraryRank q.typeName := by
    induction h with
    | single h => exact hstep h
    | tail _ h ih => exact ih.trans (hstep h)
  rintro ⟨q, -, hcycle⟩
  exact (hless hcycle).false

/-- Values can be sent for the input types of a library, though books lead to authors and authors to
books. -/
theorem input_requirements_library :
    (∀ d, .document d ∈ [Source.document library.working] → d.Written) ∧
    Assembly.workingDocument library.options.reading [.document library.working] =
      .ok library.working ∧
    Validation.declarationReports library.working.definitions = [] ∧
    (∀ t ∈ library.working.types, ∀ fields, t.body ≠ .input fields) ∧
    ∃ assembled, Assembly.assemble [.document library.working] library.roots library.options =
        .ok assembled ∧
      ∃ schema, Schema.build assembled.document = .ok schema ∧
        library.Emitted ⟨"Library", .create⟩ ∧
        assembled.document.Fillable "LibraryInput" ∧
        ∀ v : VariableDef, v.type = .nonNull (.named "LibraryInput") →
          ∃ given value, Request.variableValues schema [v] given = .ok [(v.name.text, value)] := by
  have hgiven : ∀ d, .document d ∈ [Source.document library.working] → d.Written := by
    intro d hd
    obtain rfl : d = library.working := by simpa using hd
    decide
  have hload : Assembly.workingDocument library.options.reading [.document library.working] =
      .ok library.working := rfl
  have hreports : Validation.declarationReports library.working.definitions = [] := by
    decide +kernel
  have hkinds : ∀ t ∈ library.working.types, Kind.ofBody t.body ≠ .input := by decide
  have hnone : ∀ t ∈ library.working.types, ∀ fields, t.body ≠ .input fields :=
    fun t ht fields hbody => hkinds t ht (hbody ▸ rfl)
  obtain ⟨assembled, hbuilt, schema, hschema⟩ : ∃ assembled,
      Assembly.assemble [.document library.working] library.roots library.options =
        .ok assembled ∧ ∃ schema, Schema.build assembled.document = .ok schema := by
    refine ⟨_, (assemble_singleton
      [⟨"Author", .create⟩, ⟨"Book", .create⟩, ⟨"Library", .create⟩, ⟨"Author", .update⟩,
        ⟨"Book", .update⟩, ⟨"Library", .update⟩] hload rfl (by decide) (by decide) rfl rfl
      (by decide) rfl (by decide)).2, ?_⟩
    exact (exists_ok_of_any (p := fun _ => true) (by decide +kernel)).imp fun _ h => h.1
  have hlibrary : library.Emitted ⟨"Library", .create⟩ :=
    .inl (.inr (.start ⟨by decide, fun _ => False.elim⟩))
  obtain ⟨-, -, hfillable, hsent⟩ := input_requirements hgiven hload hreports hnone hbuilt
  exact ⟨hgiven, hload, hreports, hnone, assembled, hbuilt, schema, hschema, hlibrary,
    (hfillable _ hlibrary).mpr (acyclic_library _),
    hsent _ hlibrary (acyclic_library _) schema hschema⟩

/-- Desks and lamps that must have each other. -/
def desks : Sources where
  working := Document.ofDefinitions
    [ .type (Fragment.objectType "Query" [Fragment.plainField "desk" [] (.named "Desk")]),
      .type (Fragment.objectType "Desk"
        [ Fragment.plainField "id" [] (.nonNull (.named "ID")),
          Fragment.plainField "lamp" [] (.nonNull (.named "Lamp")) ]),
      .type (Fragment.objectType "Lamp"
        [ Fragment.plainField "id" [] (.nonNull (.named "ID")),
          Fragment.plainField "desk" [] (.nonNull (.named "Desk")) ]) ]
  options := {}
  roots := ["Desk"]

theorem cycle_desks : TransGen desks.Demands ⟨"Desk", .create⟩ ⟨"Desk", .create⟩ := by
  have hdesk : desks.Met (fun _ => False) ⟨"Desk", .create⟩ ⟨"Desk", .create⟩ :=
    .start ⟨by decide, fun _ => False.elim⟩
  have hlamp : desks.Met (fun _ => False) ⟨"Desk", .create⟩ ⟨"Lamp", .create⟩ :=
    .field (f := Fragment.plainField "lamp" [] (.nonNull (.named "Lamp"))) hdesk rfl
      List.mem_cons_self (by decide) ⟨by decide, fun _ => False.elim⟩
  have hdeskEmitted : desks.Emitted ⟨"Desk", .create⟩ := .inl (.inr hdesk)
  have hlampEmitted : desks.Emitted ⟨"Lamp", .create⟩ := .inl (.inr hlamp)
  refine .tail (.single (b := ⟨"Lamp", .create⟩) ?_) ?_
  · exact ⟨hdeskEmitted, hlampEmitted, rfl, rfl, _, _, rfl, List.mem_cons_self, rfl⟩
  · exact ⟨hlampEmitted, hdeskEmitted, rfl, rfl, _, _, rfl,
      List.mem_cons_of_mem _ List.mem_cons_self, rfl⟩

/-- The document of desks and lamps makes a schema, but the input types derived from them require
each other. That of desks has no value that ends, and the assembled document makes no schema. -/
theorem input_requirements_desks :
    (∃ valid, Schema.build desks.working = .ok valid) ∧
    (∀ t ∈ desks.working.types, ∀ fields, t.body ≠ .input fields) ∧
    ∃ assembled, Assembly.assemble [.document desks.working] desks.roots desks.options =
        .ok assembled ∧
      TransGen (desks.Needs assembled.document) ⟨"Desk", .create⟩ ⟨"Desk", .create⟩ ∧
      ¬ assembled.document.Fillable "DeskInput" ∧
      ¬ ∃ schema, Schema.build assembled.document = .ok schema := by
  have hgiven : ∀ d, .document d ∈ [Source.document desks.working] → d.Written := by
    intro d hd
    obtain rfl : d = desks.working := by simpa using hd
    decide
  have hload : Assembly.workingDocument desks.options.reading [.document desks.working] =
      .ok desks.working := rfl
  obtain ⟨valid, hvalid, -⟩ : ∃ valid, Schema.build desks.working = .ok valid ∧ true :=
    exists_ok_of_any (p := fun _ => true) (by decide +kernel)
  obtain ⟨hreports, -⟩ := Schema.build_eq_ok hvalid
  have hkinds : ∀ t ∈ desks.working.types, Kind.ofBody t.body ≠ .input := by decide
  have hnone : ∀ t ∈ desks.working.types, ∀ fields, t.body ≠ .input fields :=
    fun t ht fields hbody => hkinds t ht (hbody ▸ rfl)
  obtain ⟨assembled, hbuilt, hrefused⟩ : ∃ assembled,
      Assembly.assemble [.document desks.working] desks.roots desks.options = .ok assembled ∧
        (Schema.build assembled.document).toOption.isSome = false := by
    refine ⟨_, (assemble_singleton
      [⟨"Lamp", .create⟩, ⟨"Desk", .create⟩, ⟨"Lamp", .update⟩, ⟨"Desk", .update⟩] hload rfl
      (by decide) (by decide) rfl rfl (by decide) rfl (by decide)).2, by decide +kernel⟩
  refine ⟨⟨valid, hvalid⟩, hnone, assembled, hbuilt,
    (cycle_needs_assembled_iff hgiven hload hreports hbuilt).mpr cycle_desks, ?_, ?_⟩
  · obtain ⟨_, hstep, -⟩ := TransGen.head'_iff.mp cycle_desks
    exact fun hfillable => (fillable_assembled_iff hgiven hload hreports hnone hbuilt hstep.1).mp
      hfillable ⟨_, .refl, cycle_desks⟩
  · rintro ⟨schema, hschema⟩
    rw [hschema] at hrefused
    cases hrefused

end RecordApi
