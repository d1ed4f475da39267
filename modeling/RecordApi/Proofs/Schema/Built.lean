import RecordApi.Proofs.Derivation.Redescribed
import RecordApi.Proofs.Validation.Declarations
import RecordApi.Schema.Build

/-!
# Schemas that have been built

The schema of a document has every type under its name, with what its extensions add behind its own
fields, except for a type that is called like a standard one. Its root types are those that the
document names, if the schema definition names them all or the types of the usual names are there.
-/

namespace RecordApi

open RecordApi.Language

/-! ## Types with their extensions -/

namespace SchemaBuild

theorem name_foldl_extendType (extensions : List TypeDef) (d : TypeDef) :
    (extensions.foldl extendType d).name = d.name := by
  induction extensions generalizing d with
  | nil => rfl
  | cons more rest ih =>
      rw [List.foldl_cons, ih, extendType]
      split <;> rfl

/-- The fields that an extension adds to the object type of a name. -/
def addedBy (name : String) (more : TypeDef) : List FieldDef :=
  match more.body with
  | .object _ fields => if more.name = name then fields else []
  | _ => []

theorem body_extendType (more : TypeDef) {d : TypeDef} {interfaces : List String}
    {fields : List FieldDef} (h : d.body = .object interfaces fields) :
    ∃ allInterfaces, (extendType d more).body =
      .object allInterfaces (fields ++ addedBy d.name more) := by
  unfold extendType addedBy
  by_cases hname : more.name = d.name
  · simp only [if_pos hname, h]
    cases more.body with
    | object moreInterfaces moreFields => exact ⟨_, rfl⟩
    | _ => exact ⟨interfaces, by simp [extendBody]⟩
  · refine ⟨interfaces, ?_⟩
    simp only [if_neg hname, h]
    cases more.body <;> simp

/-- An object type has its own fields first, and behind them those that extensions add in turn. -/
theorem body_foldl_extendType (extensions : List TypeDef) {d : TypeDef} {interfaces : List String}
    {fields : List FieldDef} (h : d.body = .object interfaces fields) :
    ∃ allInterfaces, (extensions.foldl extendType d).body =
      .object allInterfaces (fields ++ extensions.flatMap (addedBy d.name)) := by
  induction extensions generalizing d interfaces fields with
  | nil => exact ⟨interfaces, by simpa using h⟩
  | cons more rest ih =>
      obtain ⟨someInterfaces, hbody⟩ := body_extendType more h
      obtain ⟨allInterfaces, hrest⟩ := ih hbody
      have hname : (extendType d more).name = d.name := name_foldl_extendType [more] d
      refine ⟨allInterfaces, ?_⟩
      rw [List.foldl_cons, hrest, hname, List.flatMap_cons, List.append_assoc]

/-- The extensions of types in a document. -/
def extensionsOf (definitions : List Definition) : List TypeDef :=
  definitions.filterMap fun
    | .typeExtension d => some d
    | _ => none

/-- The fields that the extensions in a document add to the object type of a name. -/
def addedFields (definitions : List Definition) (name : String) : List FieldDef :=
  (extensionsOf definitions).flatMap (addedBy name)

theorem find?_extendedTypes {document : Document} {name : String} (h : name ∉ standardNames) :
    (extendedTypes document.definitions).find? (·.name == name) =
      (document.typeNamed? name).map
        fun d => (extensionsOf document.definitions).foldl extendType d := by
  have hnames (extensions : List TypeDef) :
      ((fun d : TypeDef => d.name == name) ∘ fun d => extensions.foldl extendType d) =
        fun d => d.name == name := by
    funext d
    rw [Function.comp_apply, name_foldl_extendType]
  rw [extendedTypes, List.find?_map, hnames]
  refine congrArg (Option.map _) ?_
  rw [Document.typeNamed?, Document.types, ← List.head?_filter, ← List.head?_filter,
    List.filter_filterMap, List.filter_filterMap]
  refine congrArg List.head? (List.filterMap_congr fun definition _ => ?_)
  cases definition with
  | type d =>
      by_cases hstandard : d.name ∈ standardNames
      · have hother : d.name ≠ name := fun hd => h (hd ▸ hstandard)
        simp [hstandard, Option.filter, hother]
      · simp [hstandard]
  | _ => rfl

theorem not_standard_of_mem_extendedTypes {definitions : List Definition} {d : TypeDef}
    (h : d ∈ extendedTypes definitions) : d.name ∉ standardNames := by
  obtain ⟨e, he, rfl⟩ := List.mem_map.mp h
  rw [name_foldl_extendType]
  obtain ⟨definition, -, hsome⟩ := List.mem_filterMap.mp he
  cases definition with
  | type t =>
      dsimp only at hsome
      split at hsome
      · cases hsome
      · next hplain =>
          obtain rfl := Option.some.inj hsome
          simpa using hplain
  | _ => simp at hsome

end SchemaBuild

open SchemaBuild

namespace Schema

variable {document : Document} {schema : Schema}

/-- The types of a schema: those of the document, the built-in ones in use, and those by which the
schema describes itself. -/
theorem types_eq {definitions : List Definition}
    (h : Schema.ofDefinitions definitions = .ok schema) :
    ∃ shapes directives roots, schema.types = (extendedTypes definitions).map
        (fun d => ⟨textOf d.description, d.name, shapeOf shapes d⟩) ++
      usedBuiltins definitions (extendedTypes definitions) directives roots ++
        introspectionTypes := by
  obtain ⟨-, -, h⟩ := bind_eq_ok.mp h
  obtain ⟨-, -, h⟩ := bind_eq_ok.mp h
  obtain rfl := Except.ok.inj h
  exact ⟨_, _, _, rfl⟩

/-- What a schema is made of. -/
theorem ofDefinitions_eq_ok {definitions : List Definition}
    (h : Schema.ofDefinitions definitions = .ok schema) :
    (∃ shapes builtins, (∀ t ∈ builtins, t ∈ builtinTypes) ∧
      schema.types = (extendedTypes definitions).map
        (fun d => ⟨textOf d.description, d.name, shapeOf shapes d⟩) ++ builtins ++
          introspectionTypes) ∧
    schema.query = rootOf definitions (extendedTypes definitions) .query "Query" ∧
    schema.mutation = rootOf definitions (extendedTypes definitions) .mutation "Mutation" := by
  obtain ⟨shapes, directives, roots, htypes⟩ := types_eq h
  obtain ⟨-, -, h⟩ := bind_eq_ok.mp h
  obtain ⟨-, -, h⟩ := bind_eq_ok.mp h
  obtain rfl := Except.ok.inj h
  exact ⟨⟨shapes, usedBuiltins definitions _ directives roots,
    fun t ht => (List.mem_filter.mp ht).1, htypes⟩, rfl, rfl⟩

/-- A type of a document is in the schema with its extensions. -/
theorem shape?_extended (h : Schema.ofDefinitions document.definitions = .ok schema)
    {name : String} (hname : name ∉ standardNames) {t : TypeDef}
    (ht : document.typeNamed? name = some t) :
    ∃ shapes, schema.shape? (.named name) =
      some (shapeOf shapes ((extensionsOf document.definitions).foldl extendType t)) := by
  obtain ⟨⟨shapes, builtins, -, htypes⟩, -⟩ := ofDefinitions_eq_ok h
  have hfind : (extendedTypes document.definitions).find? (·.name == name) = _ :=
    find?_extendedTypes hname
  rw [ht, Option.map_some] at hfind
  refine ⟨shapes, ?_⟩
  rw [shape?, type?, htypes, List.append_assoc, List.find?_append, List.find?_map]
  have hcomp : ((fun type : SchemaType => type.name == TypeExpr.baseName (.named name)) ∘ fun d =>
      ⟨textOf d.description, d.name, shapeOf shapes d⟩) = fun d : TypeDef => d.name == name := rfl
  rw [hcomp, hfind, Option.map_some, Option.some_or, Option.map_some]

/-- An object type of a document has its fields in the schema, and behind them those that extensions
add. -/
theorem shape?_of_typeNamed? (h : Schema.ofDefinitions document.definitions = .ok schema)
    {name : String} (hname : name ∉ standardNames) {t : TypeDef}
    (ht : document.typeNamed? name = some t) {interfaces : List String} {fields : List FieldDef}
    (hbody : t.body = .object interfaces fields) :
    ∃ shapes allInterfaces, schema.shape? (.named name) =
      some (.object allInterfaces
        ((fields ++ addedFields document.definitions name).map (fieldOf shapes))) := by
  obtain ⟨shapes, hshape⟩ := shape?_extended h hname ht
  obtain ⟨allInterfaces, hextended⟩ :=
    body_foldl_extendType (extensionsOf document.definitions) hbody
  have hsame : t.name = name := by simpa using List.find?_some ht
  rw [shapeOf, hextended, hsame] at hshape
  exact ⟨shapes, allInterfaces, hshape⟩

/-- An object type of a document is an object type of the schema, with the same fields and
arguments. -/
theorem fields_of_typeNamed? (h : Schema.ofDefinitions document.definitions = .ok schema)
    {name : String} (hname : name ∉ standardNames) {t : TypeDef}
    (ht : document.typeNamed? name = some t) {interfaces : List String} {fields : List FieldDef}
    (hbody : t.body = .object interfaces fields) :
    schema.isOf TypeShape.isObject (.named name) ∧ ∀ f ∈ fields, ∃ g ∈ schema.fieldsOf name,
      g.name = f.name ∧ g.arguments.map (·.name) = f.arguments.map (·.name) := by
  obtain ⟨shapes, allInterfaces, hshape⟩ := shape?_of_typeNamed? h hname ht hbody
  refine ⟨by rw [isOf, hshape]; rfl, fun f hf => ⟨fieldOf shapes f, ?_, rfl, ?_⟩⟩
  · rw [fieldsOf, hshape]
    exact List.mem_map_of_mem (List.mem_append_left _ hf)
  · exact List.map_map

/-- An object type of a schema is declared, or is one by which the schema describes itself. -/
theorem not_standard_of_isObject {definitions : List Definition}
    (h : Schema.ofDefinitions definitions = .ok schema) {name : String}
    (hobject : schema.isOf TypeShape.isObject (.named name)) :
    name ∉ standardNames ∨ ∃ t ∈ introspectionTypes, t.name = name := by
  obtain ⟨⟨shapes, builtins, hbuiltins, htypes⟩, -⟩ := ofDefinitions_eq_ok h
  obtain ⟨shape, hshape, hsort⟩ : ∃ shape, schema.shape? (.named name) = some shape ∧
      shape.isObject := by
    rw [isOf, Option.any_eq_true] at hobject
    exact hobject
  obtain ⟨t, hfind, rfl⟩ := Option.map_eq_some_iff.mp hshape
  rw [type?, TypeExpr.baseName] at hfind
  have hname : t.name = name := by simpa using List.find?_some hfind
  have hmem := List.mem_of_find?_eq_some hfind
  rw [htypes, List.mem_append, List.mem_append] at hmem
  rcases hmem with (hdeclared | hbuiltin) | hintrospection
  · obtain ⟨d, hd, rfl⟩ := List.mem_map.mp hdeclared
    exact .inl (hname ▸ not_standard_of_mem_extendedTypes hd : name ∉ standardNames)
  · obtain ⟨scalar, -, rfl⟩ := List.mem_map.mp (hbuiltins t hbuiltin)
    cases hsort
  · exact .inr ⟨t, hintrospection, hname⟩

/-! ## Schemas without faults -/

theorem build_eq_ok (h : Schema.build document = .ok schema) :
    Validation.declarationReports document.definitions = [] ∧
      Schema.ofDefinitions document.definitions = .ok schema ∧ schema.faults = [] := by
  obtain ⟨assumed, hassume, h⟩ := bind_eq_ok.mp h
  have hfaults : assumed.faults = [] ∧ assumed = schema := by
    split at h
    · next hnone => exact ⟨hnone, Except.ok.inj h⟩
    · cases h
  obtain ⟨hfaults, rfl⟩ := hfaults
  unfold assume at hassume
  split at hassume
  · cases hassume
  · split at hassume
    · next hreports =>
        split at hassume
        · next hbuilt =>
            obtain rfl := Except.ok.inj hassume
            exact ⟨hreports, hbuilt, hfaults⟩
        · cases hassume
    · cases hassume

/-- The types of a schema that serve queries and mutations are object types. -/
theorem isObject_of_root (h : schema.faults = []) {name : String}
    (hname : schema.query = some name ∨ schema.mutation = some name) :
    schema.isOf TypeShape.isObject (.named name) := by
  simp only [faults, rootFaults, List.append_eq_nil_iff] at h
  obtain ⟨⟨⟨⟨hquery, hmutation⟩, -⟩, -⟩, -⟩ := h
  rcases hname with hname | hname
  · rw [hname] at hquery
    by_contra hother
    simp [hother] at hquery
  · rw [hname] at hmutation
    by_contra hother
    simp [otherRootFaults, hother] at hmutation

/-- No declared type of a schema without faults has a fault. -/
theorem typeFaults_of_mem (h : schema.faults = []) {t : SchemaType} (ht : t ∈ schema.declared) :
    ∃ visited, (schema.typeFaults t visited).1 = [] := by
  have hlist : schema.typeListFaults schema.declared [] = [] := by
    simp only [faults, List.append_eq_nil_iff] at h
    exact h.2
  have hall (types : List SchemaType) (visited : List String)
      (hnone : schema.typeListFaults types visited = []) (hmem : t ∈ types) :
      ∃ visited, (schema.typeFaults t visited).1 = [] := by
    induction types generalizing visited with
    | nil => cases hmem
    | cons first rest ih =>
        rw [typeListFaults, List.append_eq_nil_iff] at hnone
        rcases List.mem_cons.mp hmem with rfl | hrest
        · exact ⟨visited, hnone.1⟩
        · exact ih _ hnone.2 hrest
  exact hall _ _ hlist ht

/-- No type of a schema without faults has a reserved name. -/
theorem nameFaults_of_mem (h : schema.faults = []) {t : SchemaType} (ht : t ∈ schema.declared) :
    nameFaults t.name = [] := by
  have hplain : standardNames.contains t.name = false := by
    simpa using (List.mem_filter.mp ht).2
  obtain ⟨visited, hnone⟩ := typeFaults_of_mem h ht
  unfold typeFaults at hnone
  simp only [hplain, Bool.false_eq_true, if_false] at hnone
  split at hnone <;> simp_all

/-- A document whose schema can be built gives no type a reserved name. -/
theorem not_reserved_of_build (h : Schema.build document = .ok schema) {name : String}
    (hname : name ∉ standardNames) (hdeclared : (document.typeNamed? name).isSome) :
    nameFaults name = [] := by
  obtain ⟨-, hbuilt, hfaults⟩ := build_eq_ok h
  obtain ⟨⟨shapes, builtins, -, htypes⟩, -⟩ := ofDefinitions_eq_ok hbuilt
  obtain ⟨d, hd⟩ := Option.isSome_iff_exists.mp hdeclared
  have hfind : (extendedTypes document.definitions).find? (·.name == name) = _ :=
    find?_extendedTypes hname
  rw [hd, Option.map_some] at hfind
  generalize (extensionsOf document.definitions).foldl extendType d = extended at hfind
  obtain rfl : extended.name = name := by simpa using List.find?_some hfind
  have hmem : (⟨textOf extended.description, extended.name, shapeOf shapes extended⟩ : SchemaType) ∈
      schema.types := by
    rw [htypes, List.mem_append, List.mem_append]
    exact .inl (.inl (List.mem_map.mpr ⟨extended, List.mem_of_find?_eq_some hfind, rfl⟩))
  exact nameFaults_of_mem hfaults (List.mem_filter.mpr ⟨hmem, by simpa using hname⟩)

end Schema

/-! ## Root types -/

/-- The type that is named for a kind of operation; the last one counts. -/
def RootDef.typeFor? (operation : OperationKind) (roots : List RootDef) : Option String :=
  (roots.reverse.find? (·.operation == operation)).map (·.type)

theorem RootDef.typeFor?_cons (operation : OperationKind) (root : RootDef) (rest : List RootDef) :
    typeFor? operation (root :: rest) =
      (typeFor? operation rest).or
        (if root.operation = operation then some root.type else none) := by
  by_cases h : root.operation = operation <;> simp [typeFor?, List.find?_append, h]

theorem RootDef.typeFor?_eq_none {operation : OperationKind} {roots : List RootDef}
    (h : operation ∉ roots.map (·.operation)) : typeFor? operation roots = none := by
  rw [typeFor?, Option.map_eq_none_iff, List.find?_eq_none]
  intro root hroot hsame
  have hoperation : root.operation = operation := by simpa using hsame
  exact h (hoperation ▸ List.mem_map_of_mem (List.mem_reverse.mp hroot))

theorem RootNames.foldl_set (roots : List RootDef) (start : RootNames) :
    roots.foldl RootNames.set start =
      ⟨(RootDef.typeFor? .query roots).getD start.query,
        (RootDef.typeFor? .mutation roots).getD start.mutation⟩ := by
  induction roots generalizing start with
  | nil => rfl
  | cons root rest ih =>
      obtain ⟨operation, type⟩ := root
      rw [List.foldl_cons, ih, RootDef.typeFor?_cons, RootDef.typeFor?_cons]
      cases operation <;> cases RootDef.typeFor? .query rest <;>
        cases RootDef.typeFor? .mutation rest <;> rfl

/-- What the schema definitions of a document name. -/
def schemaRoots (definitions : List Definition) : List (List RootDef) :=
  definitions.filterMap fun
    | .schema d => some d.roots
    | _ => none

/-- What the extensions of the schema in a document name. -/
def extensionRoots (definitions : List Definition) : List RootDef :=
  definitions.flatMap fun
    | .schemaExtension d => d.roots
    | _ => []

theorem rootOf_eq (definitions : List Definition) (types : List TypeDef)
    (operation : OperationKind) (usual : String) :
    rootOf definitions types operation usual =
      match (schemaRoots definitions).getLast? with
      | some roots =>
        (RootDef.typeFor? operation (extensionRoots definitions)).or
          (RootDef.typeFor? operation roots)
      | none =>
        (if types.any (·.name == usual) then some usual else none).or
          (RootDef.typeFor? operation (extensionRoots definitions)) := rfl

theorem flatMap_rootsIn_eq (definitions : List Definition) :
    definitions.flatMap rootsIn = (schemaRoots definitions).flatten := by
  induction definitions with
  | nil => rfl
  | cons d rest ih =>
      rw [List.flatMap_cons, ih]
      cases d <;> rfl

theorem schemaRoots_eq_nil {definitions : List Definition}
    (h : ∀ d, .schema d ∉ definitions) : schemaRoots definitions = [] := by
  rw [schemaRoots, List.filterMap_eq_nil_iff]
  intro definition hmem
  cases definition with
  | schema d => exact absurd hmem (h d)
  | _ => rfl

/-- A document that declares no key twice has one schema definition at most. -/
theorem schemaRoots_of_mem {definitions : List Definition} (hkeys : Merge.UniqueKeys definitions)
    {d : SchemaDef} (hd : .schema d ∈ definitions) : schemaRoots definitions = [d.roots] := by
  induction definitions with
  | nil => cases hd
  | cons first rest ih =>
      obtain ⟨hfirst, hrest⟩ := Merge.uniqueKeys_cons.mp hkeys
      rcases List.mem_cons.mp hd with rfl | hmem
      · have hnone : schemaRoots rest = [] :=
          schemaRoots_eq_nil fun other hother => hfirst _ rfl ⟨.schema other, hother, rfl⟩
        exact congrArg (d.roots :: ·) hnone
      · cases first with
        | schema other => exact absurd ⟨.schema d, hmem, rfl⟩ (hfirst _ rfl)
        | _ => exact ih hrest hmem

/-- A schema definition counts alone for a kind of operation that it names, for no extension may
name it again. -/
theorem rootOf_of_schema {definitions : List Definition}
    (hreports : Validation.declarationReports definitions = [])
    (hkeys : Merge.UniqueKeys definitions) {d : SchemaDef} (hd : .schema d ∈ definitions)
    {operation : OperationKind} (hoperation : operation ∈ d.roots.map (·.operation))
    (types : List TypeDef) (usual : String) :
    rootOf definitions types operation usual = RootDef.typeFor? operation d.roots := by
  have hextended : RootDef.typeFor? operation (extensionRoots definitions) = none := by
    apply RootDef.typeFor?_eq_none
    intro hmem
    obtain ⟨root, hroot, hsame⟩ := List.mem_map.mp hmem
    obtain ⟨definition, hdefinition, hroot⟩ := List.mem_flatMap.mp hroot
    cases definition with
    | schemaExtension e =>
        exact Validation.extension_roots_disjoint hreports hd hdefinition hoperation
          (hsame ▸ List.mem_map_of_mem hroot)
    | _ => cases hroot
  rw [rootOf_eq, schemaRoots_of_mem hkeys hd, List.getLast?_singleton, hextended]
  rfl

/-- Without a schema definition the type of the usual name counts. -/
theorem rootOf_of_usual {definitions : List Definition} (h : ∀ d, .schema d ∉ definitions)
    {types : List TypeDef} {usual : String} (husual : types.any (·.name == usual))
    (operation : OperationKind) : rootOf definitions types operation usual = some usual := by
  rw [rootOf_eq, schemaRoots_eq_nil h, if_pos husual]
  rfl

/-- The root types of a schema are those that the document names, if a schema definition names both
or there are types of the usual names. -/
theorem Schema.roots_of_build {document : Document} {schema : Schema}
    (h : Schema.build document = .ok schema) (hkeys : Merge.UniqueKeys document.definitions)
    (hnamed : ∀ d, .schema d ∈ document.definitions →
      ∀ operation ∈ [OperationKind.query, .mutation], operation ∈ d.roots.map (·.operation))
    (husual : (∀ d, .schema d ∉ document.definitions) →
      ∀ name ∈ ["Query", "Mutation"], (document.typeNamed? name).isSome) :
    schema.query = some (RootNames.ofDocument document).query ∧
      schema.mutation = some (RootNames.ofDocument document).mutation := by
  obtain ⟨hreports, hbuilt, -⟩ := build_eq_ok h
  obtain ⟨-, hquery, hmutation⟩ := ofDefinitions_eq_ok hbuilt
  rw [hquery, hmutation, ofDocument_eq, flatMap_rootsIn_eq, RootNames.foldl_set]
  by_cases hschema : ∃ d, .schema d ∈ document.definitions
  · obtain ⟨d, hd⟩ := hschema
    have hsome (operation : OperationKind) (hmem : operation ∈ d.roots.map (·.operation)) :
        ∃ name, RootDef.typeFor? operation d.roots = some name := by
      obtain ⟨root, hroot, hsame⟩ := List.mem_map.mp hmem
      have hfound : (d.roots.reverse.find? (·.operation == operation)).isSome :=
        List.find?_isSome.mpr ⟨root, List.mem_reverse.mpr hroot, beq_iff_eq.mpr hsame⟩
      obtain ⟨last, hlast⟩ := Option.isSome_iff_exists.mp hfound
      exact ⟨last.type, congrArg (Option.map _) hlast⟩
    obtain ⟨query, hquery⟩ := hsome .query (hnamed d hd _ (by simp))
    obtain ⟨mutation, hmutation⟩ := hsome .mutation (hnamed d hd _ (by simp))
    rw [rootOf_of_schema hreports hkeys hd (hnamed d hd _ (by simp)),
      rootOf_of_schema hreports hkeys hd (hnamed d hd _ (by simp)), schemaRoots_of_mem hkeys hd,
      List.flatten_singleton, hquery, hmutation]
    exact ⟨rfl, rfl⟩
  · push Not at hschema
    have hany (name : String) (hname : name ∈ ["Query", "Mutation"]) :
        (extendedTypes document.definitions).any (·.name == name) := by
      have hplain : name ∉ standardNames := by
        revert name
        decide
      rw [List.any_eq_true, ← List.find?_isSome, find?_extendedTypes hplain, Option.isSome_map]
      exact husual hschema name hname
    rw [rootOf_of_usual hschema (hany _ (by simp)), rootOf_of_usual hschema (hany _ (by simp)),
      schemaRoots_eq_nil hschema]
    exact ⟨rfl, rfl⟩

end RecordApi
