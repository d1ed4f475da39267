import RecordApi.Data.Association
import RecordApi.Proofs.Derivation.Run
import RecordApi.Proofs.Language.Written

/-!
# What input types stand for

The input types of a schema are told from the working document alone: from the fields of its object
types and interfaces, from its root types, and from what their fields lead to. The tables that the
derivation works from hold just this.
-/

namespace RecordApi

open RecordApi.Language

namespace Language

/-- The type with another innermost name. -/
def TypeExpr.withBase (f : String → String) : TypeExpr → TypeExpr
  | named name => named (f name)
  | list item => list (item.withBase f)
  | nonNull inner => nonNull (inner.withBase f)

/-- The type that a document defines under a name. -/
def Document.typeNamed? (document : Document) (name : String) : Option TypeDef :=
  document.types.find? (·.name == name)

/-- The fields of an object type or an interface. -/
def TypeBody.composite? : TypeBody → Option (List FieldDef)
  | .object _ fields | .interface _ fields => some fields
  | _ => none

/-- The fields of the object type or the interface of a name. -/
def Document.composite? (document : Document) (name : String) : Option (List FieldDef) :=
  (document.typeNamed? name).bind (·.body.composite?)

/-- Whether a body is that of a union. -/
def TypeBody.isUnion : TypeBody → Bool
  | .union _ => true
  | _ => false

/-- Whether a name is that of a union. -/
def Document.isUnion (document : Document) (name : String) : Bool :=
  (document.typeNamed? name).any (·.body.isUnion)

end Language

/-- A working document, the options, and the names of the root types. -/
structure Sources where
  working : Document
  options : Options
  roots : List String

/-- The type of an input field: in update mode it may always be left out. -/
def InputMode.fieldExpr (mode : InputMode) (type : TypeExpr) : TypeExpr :=
  match mode with
  | create => type
  | update => type.nullable

namespace Sources

variable (s : Sources)

/-- The fields of a root type that its input types have: all but the identifier, and but the times
that are kept for records. -/
def dataFields (name : String) (fields : List FieldDef) : List FieldDef :=
  fields.filter fun f =>
    Descriptor.idNameOf fields name s.options.selector != some f.name &&
      !(s.options.timestamps && timestampFields.contains f.name)

/-- The fields of a type that its input types have. -/
def fields? (name : String) : Option (List FieldDef) :=
  (s.working.composite? name).map fun fields =>
    if name ∈ s.roots then s.dataFields name fields else fields

/-- The innermost name of an input field for a field of a type. -/
def inputBase (mode : InputMode) (name : String) : String :=
  if (s.working.composite? name).isSome then mode.inputName name else name

/-- The input field for a field. -/
def inputField (mode : InputMode) (f : FieldDef) : InputDef :=
  { description := none
    name := f.name
    type := mode.fieldExpr (f.type.withBase (s.inputBase mode))
    default := none
    directives := [] }

/-- The input type of a pair with fields for the given ones, but for those of unions. -/
def inputType (p : InputPair) (fields : List FieldDef) : TypeDef :=
  { description := none
    name := p.inputName
    directives := []
    body := .input ((fields.filter fun f => !s.working.isUnion f.type.baseName).map
      (s.inputField p.mode)) }

/-- The pairs whose input types are met from the root types. The consumer's own input types are not
gone past. -/
inductive Reachable : InputPair → Prop
  | root {name : String} (mode : InputMode) : name ∈ s.roots → Reachable ⟨name, mode⟩
  | field {p : InputPair} {fields : List FieldDef} {f : FieldDef} : Reachable p →
      p.inputName ∉ declaredNames s.working → s.fields? p.typeName = some fields → f ∈ fields →
      (s.working.composite? f.type.baseName).isSome → Reachable ⟨f.type.baseName, p.mode⟩

/-- The same document and options with other root types. -/
def withRoots (roots : List String) : Sources :=
  { s with roots := roots }

/-- Whether a pair has fields of unions only. -/
def Starved (p : InputPair) : Prop :=
  ∃ fields, s.fields? p.typeName = some fields ∧ ∀ f ∈ fields, s.working.isUnion f.type.baseName

end Sources

/-! ## Tables -/

section Tables

theorem find?_reverse_of_nodup {α : Type} {key : α → String} {xs : List α}
    (h : (xs.map key).Nodup) (name : String) :
    xs.reverse.find? (key · == name) = xs.find? (key · == name) := by
  induction xs with
  | nil => rfl
  | cons x rest ih =>
      obtain ⟨hx, hrest⟩ := List.nodup_cons.mp h
      rw [List.reverse_cons, List.find?_append, ih hrest]
      by_cases hname : key x = name
      · have hnone : rest.find? (key · == name) = none := by
          rw [List.find?_eq_none]
          intro y hy hsame
          exact hx (hname ▸ (beq_iff_eq.mp hsame) ▸ List.mem_map_of_mem hy)
        simp [hname, hnone]
      · simp [hname]

theorem lookup_map_key {α β : Type} (key : α → String) (value : α → β) (xs : List α)
    (name : String) :
    (xs.map fun x => (key x, value x)).lookup name =
      (xs.find? (key · == name)).map value := by
  induction xs with
  | nil => rfl
  | cons x rest ih =>
      rw [List.map_cons, Association.lookup_cons, ih]
      by_cases hname : key x = name
      · simp [hname]
      · rw [if_neg (Ne.symm hname), List.find?_cons_of_neg (by simpa using hname)]

theorem find?_eq_some_of_nodup {α : Type} {key : α → String} {xs : List α}
    (h : (xs.map key).Nodup) {name : String} {x : α} :
    xs.find? (key · == name) = some x ↔ x ∈ xs ∧ key x = name := by
  constructor
  · intro hfind
    exact ⟨List.mem_of_find?_eq_some hfind, by simpa using List.find?_some hfind⟩
  · rintro ⟨hx, rfl⟩
    induction xs with
    | nil => simp at hx
    | cons y rest ih =>
        obtain ⟨hy, hrest⟩ := List.nodup_cons.mp h
        rcases List.mem_cons.mp hx with rfl | hx
        · simp
        · have hne : key y ≠ key x := fun hsame => hy (hsame ▸ List.mem_map_of_mem hx)
          rw [List.find?_cons_of_neg (by simpa using hne)]
          exact ih hrest hx

variable {working : Document} (hdistinct : (working.types.map (·.name)).Nodup)

include hdistinct

theorem typeNamed?_eq_some {name : String} {d : TypeDef} :
    working.typeNamed? name = some d ↔ d ∈ working.types ∧ d.name = name :=
  find?_eq_some_of_nodup hdistinct

theorem lookup_kinds (name : String) :
    (KindTable.ofDocument working).lookup name =
      (working.typeNamed? name).map fun d => Kind.ofBody d.body := by
  unfold KindTable.ofDocument
  rw [← List.map_reverse, lookup_map_key, find?_reverse_of_nodup hdistinct]
  rfl

/-- A name is resolved as that of a composite type if it is declared as one or as a union. -/
theorem resolve_kinds (name : String) :
    (∃ target, (KindTable.ofDocument working).resolve name = .object target) ↔
      (working.composite? name).isSome ∨ working.isUnion name := by
  unfold KindTable.resolve KindTable.kindOf
  rw [lookup_kinds hdistinct, Document.composite?, Document.isUnion]
  cases working.typeNamed? name with
  | none => simp
  | some d =>
      obtain ⟨_, _, _, body⟩ := d
      cases body <;> simp [Kind.ofBody, TypeBody.composite?, TypeBody.isUnion]

omit hdistinct in
theorem not_isUnion_of_composite? {name : String} (h : (working.composite? name).isSome) :
    working.isUnion name = false := by
  unfold Document.composite? at h
  unfold Document.isUnion
  cases hnamed : working.typeNamed? name with
  | none => rfl
  | some d =>
      rw [hnamed] at h
      obtain ⟨_, _, _, body⟩ := d
      cases body <;> simp_all [TypeBody.composite?, TypeBody.isUnion]

theorem type?_fields (options : Options) (descriptors : List Descriptor) (name : String) :
    ((Assembly.rootBasis working options descriptors).type? name).map
        (fun d => (Definition.type d).fields) = working.composite? name := by
  have htypes : ((Assembly.rootBasis working options descriptors).types.map (·.name)).Nodup :=
    hdistinct.sublist (List.filter_sublist.map _)
  rw [Basis.type?, find?_reverse_of_nodup htypes]
  ext fields
  rw [Option.map_eq_some_iff, Document.composite?, Option.bind_eq_some_iff]
  constructor
  · rintro ⟨d, hfind, rfl⟩
    obtain ⟨hmem, hname⟩ := (find?_eq_some_of_nodup htypes).mp hfind
    obtain ⟨hmem, hbody⟩ := List.mem_filter.mp hmem
    refine ⟨d, (typeNamed?_eq_some hdistinct).mpr ⟨hmem, hname⟩, ?_⟩
    obtain ⟨_, _, _, body⟩ := d
    cases body <;> simp_all [TypeBody.composite?, Definition.fields]
  · rintro ⟨d, hfind, hbody⟩
    obtain ⟨hmem, hname⟩ := (typeNamed?_eq_some hdistinct).mp hfind
    obtain ⟨_, _, _, body⟩ := d
    refine ⟨_, (find?_eq_some_of_nodup htypes).mpr ⟨List.mem_filter.mpr ⟨hmem, ?_⟩, hname⟩, ?_⟩
    · cases body <;> simp_all [TypeBody.composite?]
    · cases body <;> simp_all [TypeBody.composite?, Definition.fields]

end Tables

/-! ## Root types -/

section Roots

/-- What the description of a root type tells of it. -/
theorem describeRoot_eq_ok {working : Document} {selector : Option IdSelector} {name : String}
    {d : Descriptor} (h : Assembly.describeRoot working selector name = .ok d) :
    d.typeName = name ∧ ∃ fields idField, Assembly.objectFields? working name = some fields ∧
      Descriptor.idNameOf fields name selector = some d.idName ∧ idField ∈ fields ∧
      idField.name = d.idName ∧
      d.idType = TypeRef.ofExpr (KindTable.ofDocument working) idField.type ∧
      d.fields = (fields.filter (·.name != d.idName)).map
        (Descriptor.dataField (KindTable.ofDocument working)) := by
  unfold Assembly.describeRoot at h
  split at h
  · simp at h
  · next fields hfields =>
      split at h
      · next d' hdescribe =>
          obtain rfl := Except.ok.inj h
          unfold Descriptor.describe at hdescribe
          split at hdescribe
          · simp at hdescribe
          · next idName hid =>
              split at hdescribe
              · simp at hdescribe
              · next idField hfind =>
                  obtain rfl := Except.ok.inj hdescribe
                  exact ⟨rfl, fields, idField, hfields, hid, List.mem_of_find?_eq_some hfind,
                    by simpa using List.find?_some hfind, rfl, rfl⟩
      · simp at h

/-- The fields of a root type are those of an object type of its name. -/
theorem exists_object_of_objectFields? {working : Document} {name : String}
    {fields : List FieldDef} (h : Assembly.objectFields? working name = some fields) :
    ∃ t ∈ working.types, t.name = name ∧ ∃ interfaces, t.body = .object interfaces fields := by
  obtain ⟨t, ht, hbody⟩ := List.exists_of_findSome?_eq_some h
  refine ⟨t, List.mem_reverse.mp ht, ?_⟩
  obtain ⟨_, _, _, body⟩ := t
  cases body <;> simp_all

theorem exists_type_of_objectFields? {working : Document} {name : String} {fields : List FieldDef}
    (h : Assembly.objectFields? working name = some fields) :
    ∃ t ∈ working.types, t.name = name ∧ (Definition.type t).fields = fields ∧
      t.body.composite? = some fields := by
  obtain ⟨t, ht, hname, interfaces, hbody⟩ := exists_object_of_objectFields? h
  refine ⟨t, ht, hname, ?_, ?_⟩
  · rw [Definition.fields, hbody]
  · rw [hbody, TypeBody.composite?]

variable {s : Sources} {descriptors : List Descriptor}
  (hdistinct : (s.working.types.map (·.name)).Nodup)
  (hroots : s.roots.eraseDups.mapM (Assembly.describeRoot s.working s.options.selector) =
    .ok descriptors)

include hdistinct in
theorem composite?_of_objectFields? {name : String} {fields : List FieldDef}
    (h : Assembly.objectFields? s.working name = some fields) :
    s.working.composite? name = some fields := by
  obtain ⟨t, ht, hname, -, hbody⟩ := exists_type_of_objectFields? h
  rw [Document.composite?, (typeNamed?_eq_some hdistinct).mpr ⟨ht, hname⟩]
  exact hbody

theorem Sources.mem_dataFields {name idName : String} {fields : List FieldDef}
    (hid : Descriptor.idNameOf fields name s.options.selector = some idName) {f : FieldDef} :
    f ∈ s.dataFields name fields ↔ f ∈ fields ∧ f.name ≠ idName ∧
      (s.options.timestamps → f.name ∉ timestampFields) := by
  rw [Sources.dataFields, List.mem_filter, hid, Bool.and_eq_true, bne_iff_ne, ne_eq,
    Option.some_inj, eq_comm]
  cases s.options.timestamps <;> simp

theorem nodup_eraseDups (names : List String) : names.eraseDups.Nodup := by
  induction hlength : names.length using Nat.strongRecOn generalizing names with
  | _ n ih =>
      cases names with
      | nil => simp
      | cons name rest =>
          rw [List.eraseDups_cons, List.nodup_cons]
          have hshorter : (rest.filter fun other => !other == name).length < n := by
            rw [← hlength]
            exact Nat.lt_succ_of_le (List.length_filter_le _ rest)
          exact ⟨by simp [List.mem_eraseDups], ih _ hshorter _ rfl⟩

include hroots in
theorem describeRoot_of_mem {d : Descriptor} (hd : d ∈ descriptors) :
    Assembly.describeRoot s.working s.options.selector d.typeName = .ok d := by
  have hmem : (.ok d : Except Failure Descriptor) ∈ descriptors.map .ok := List.mem_map_of_mem hd
  rw [← mapM_eq_ok.mp hroots] at hmem
  obtain ⟨name, -, hdescribe⟩ := List.mem_map.mp hmem
  rwa [(describeRoot_eq_ok hdescribe).1]

include hroots in
theorem typeNames_descriptors : descriptors.map (·.typeName) = s.roots.eraseDups := by
  have hall := mapM_eq_ok.mp hroots
  generalize s.roots.eraseDups = names at hall
  clear hroots
  induction names generalizing descriptors with
  | nil => simpa using hall
  | cons name rest ih =>
      cases descriptors with
      | nil => simp at hall
      | cons d more =>
          simp only [List.map_cons, List.cons.injEq] at hall
          rw [List.map_cons, (describeRoot_eq_ok hall.1).1, ih hall.2]

include hroots in
theorem lookup_descriptors {name : String} {d : Descriptor} :
    (descriptors.map fun d => (d.typeName, d)).lookup name = some d ↔
      d ∈ descriptors ∧ d.typeName = name := by
  rw [lookup_map_key, Option.map_id', find?_eq_some_of_nodup]
  rw [typeNames_descriptors hroots]
  exact nodup_eraseDups s.roots

include hroots in
theorem mem_roots {name : String} : name ∈ s.roots ↔ ∃ d ∈ descriptors, d.typeName = name := by
  rw [← List.mem_eraseDups, ← typeNames_descriptors hroots]
  exact List.mem_map

include hdistinct hroots in
/-- The input types of a root type have its data fields. -/
theorem fields?_of_objectFields? {d : Descriptor} (hd : d ∈ descriptors) {fields : List FieldDef}
    (h : Assembly.objectFields? s.working d.typeName = some fields) :
    s.fields? d.typeName = some (s.dataFields d.typeName fields) := by
  rw [Sources.fields?, composite?_of_objectFields? hdistinct h, Option.map_some,
    if_pos ((mem_roots hroots).mpr ⟨d, hd, rfl⟩)]

include hroots in
theorem lookup_descriptors_eq_none {name : String} :
    (descriptors.map fun d => (d.typeName, d)).lookup name = none ↔ name ∉ s.roots := by
  rw [mem_roots hroots, Option.eq_none_iff_forall_ne_some]
  simp only [ne_eq, lookup_descriptors hroots, not_exists]

theorem mem_of_type? {working : Document} {options : Options} {descriptors : List Descriptor}
    {name : String} {t : TypeDef}
    (h : (Assembly.rootBasis working options descriptors).type? name = some t) :
    t ∈ working.types ∧ t.name = name := by
  have hmem := List.mem_reverse.mp (List.mem_of_find?_eq_some h)
  exact ⟨(List.mem_filter.mp hmem).1, by simpa using List.find?_some h⟩

include hroots in
/-- Input types are derived from fields of types of the working document. -/
theorem exists_type_of_nestedFields? {name : String} {entries : List DataField}
    (h : (Assembly.rootBasis s.working s.options descriptors).nestedFields? name = some entries) :
    ∃ t ∈ s.working.types, t.name = name ∧ ∀ entry ∈ entries, ∃ f ∈ (Definition.type t).fields,
      entry = Descriptor.dataField (KindTable.ofDocument s.working) f := by
  unfold Basis.nestedFields? at h
  split at h
  · next d hlookup =>
      obtain ⟨hd, rfl⟩ := (lookup_descriptors hroots).mp hlookup
      obtain ⟨-, fields, idField, hfields, -, -, -, -, hdata⟩ :=
        describeRoot_eq_ok (describeRoot_of_mem hroots hd)
      obtain ⟨t, ht, hname, rfl, -⟩ := exists_type_of_objectFields? hfields
      obtain rfl := Option.some.inj h
      refine ⟨t, ht, hname, fun entry hentry => ?_⟩
      have hentry : entry ∈ d.fields := by
        unfold Basis.inputFields at hentry
        split at hentry
        · exact (List.mem_filter.mp hentry).1
        · exact hentry
      rw [hdata] at hentry
      obtain ⟨f, hf, rfl⟩ := List.mem_map.mp hentry
      exact ⟨f, (List.mem_filter.mp hf).1, rfl⟩
  · obtain ⟨t, ht, rfl⟩ := Option.map_eq_some_iff.mp h
    obtain ⟨hmem, hname⟩ := mem_of_type? ht
    refine ⟨t, hmem, hname, fun entry hentry => ?_⟩
    obtain ⟨f, hf, rfl⟩ := List.mem_map.mp hentry
    exact ⟨f, hf, rfl⟩

include hdistinct hroots

/-- The fields that input types are derived from are those of the working document. -/
theorem nestedFields?_rootBasis (name : String) :
    (Assembly.rootBasis s.working s.options descriptors).nestedFields? name =
      (s.fields? name).map
        (List.map (Descriptor.dataField (KindTable.ofDocument s.working))) := by
  unfold Basis.nestedFields? Sources.fields?
  cases hlookup : (Assembly.rootBasis s.working s.options descriptors).descriptors.lookup name with
  | none =>
      have hname : name ∉ s.roots := (lookup_descriptors_eq_none hroots).mp hlookup
      dsimp only
      rw [← type?_fields hdistinct s.options descriptors]
      simp [hname, Assembly.rootBasis, Basis.ofDocument, Function.comp_def]
  | some d =>
      obtain ⟨hd, rfl⟩ := (lookup_descriptors hroots).mp hlookup
      obtain ⟨-, fields, idField, hfields, hid, -, -, -, hdata⟩ :=
        describeRoot_eq_ok (describeRoot_of_mem hroots hd)
      have hname : d.typeName ∈ s.roots := (mem_roots hroots).mpr ⟨d, hd, rfl⟩
      rw [composite?_of_objectFields? hdistinct hfields]
      have hother (f : FieldDef) : (some d.idName != some f.name) = (f.name != d.idName) := by
        rw [Bool.eq_iff_iff, bne_iff_ne, bne_iff_ne, ne_comm, ne_eq, Option.some_inj]
      simp only [Option.map_some, if_pos hname, Sources.dataFields, hid, hother]
      change some (Basis.inputFields _ d) = _
      unfold Basis.inputFields
      change some (if s.options.timestamps then _ else _) = _
      cases s.options.timestamps
      · simp [hdata]
      · simp only [hdata, if_true, List.filter_map, List.filter_filter, Bool.true_and]
        congr 3
        funext f
        simp only [Descriptor.dataField, Function.comp_apply, Bool.and_comm]

end Roots

/-! ## Written types -/

namespace Language.TypeExpr

theorem withBase_congr {f g : String → String} {e : TypeExpr} (h : f e.baseName = g e.baseName) :
    e.withBase f = e.withBase g := by
  induction e with
  | named name => exact congrArg named h
  | list item ih => exact congrArg list (ih h)
  | nonNull inner ih => exact congrArg nonNull (ih h)

theorem withBase_self {f : String → String} {e : TypeExpr} (h : f e.baseName = e.baseName) :
    e.withBase f = e := by
  induction e with
  | named name => exact congrArg named h
  | list item ih => exact congrArg list (ih h)
  | nonNull inner ih => exact congrArg nonNull (ih h)

end Language.TypeExpr

namespace TypeRef

theorem base_ofExpr (kinds : KindTable) (e : TypeExpr) :
    (ofExpr kinds e).base = kinds.resolve e.baseName := by
  induction e with
  | named name => rfl
  | list item ih => exact ih
  | nonNull inner ih => exact ih

theorem baseName_toExpr (ref : TypeRef) : ref.toExpr.baseName = ref.base.name := by
  induction ref with
  | named ref => rfl
  | list item ih => exact ih
  | nonNull inner ih => exact ih

theorem base_fieldType (mode : InputMode) (ref : TypeRef) :
    (mode.fieldType ref).base = ref.base := by
  cases mode
  · rfl
  · exact base_nullable ref

theorem base_required (ref : TypeRef) : ref.required.base = ref.base := by
  cases ref <;> rfl

theorem toExpr_rename (kinds : KindTable) (e : TypeExpr) (target : NamedRef) :
    ((ofExpr kinds e).rename fun _ => target).toExpr = e.withBase fun _ => target.name := by
  induction e with
  | named name => rfl
  | list item ih => exact congrArg TypeExpr.list ih
  | nonNull inner ih => exact congrArg TypeExpr.nonNull ih

theorem toExpr_fieldType (mode : InputMode) (ref : TypeRef) :
    (mode.fieldType ref).toExpr = mode.fieldExpr ref.toExpr := by
  cases mode
  · rfl
  · cases ref <;> rfl

end TypeRef

/-- An input field has the name of its data field. It refers to the input type of an object, or
keeps what the data field is of. -/
theorem Basis.baseName_inputEntry {basis : Basis} {mode : InputMode} {field : DataField}
    {name : String} {ref : TypeRef} (h : basis.inputEntry mode field = some (name, ref)) :
    name = field.name ∧
      ((∃ target, field.type.base = .object target ∧ (basis.nestedFields? target).isSome ∧
          ref.toExpr.baseName = mode.inputName target) ∨
        (∀ target, field.type.base ≠ .object target) ∧
          ref.toExpr.baseName = field.type.base.name) := by
  rw [TypeRef.baseName_toExpr]
  obtain ⟨rfl, ⟨target, hbase, hsome, rfl⟩ | ⟨hbase, rfl⟩⟩ := Basis.inputEntry_eq_some h
  · refine ⟨rfl, .inl ⟨target, hbase, hsome, ?_⟩⟩
    rw [TypeRef.base_fieldType, TypeRef.base_rename]
    rfl
  · exact ⟨rfl, .inr ⟨hbase, by rw [TypeRef.base_fieldType]⟩⟩

/-! ## Pairs -/

section Pairs

variable {s : Sources} {descriptors : List Descriptor}
  (hdistinct : (s.working.types.map (·.name)).Nodup)
  (hroots : s.roots.eraseDups.mapM (Assembly.describeRoot s.working s.options.selector) =
    .ok descriptors)

include hdistinct

theorem base_dataField_eq_object {f : FieldDef} {target : String} :
    (Descriptor.dataField (KindTable.ofDocument s.working) f).type.base = .object target ↔
      f.type.baseName = target ∧
        ((s.working.composite? target).isSome ∨ s.working.isUnion target) := by
  rw [Descriptor.dataField, TypeRef.base_ofExpr]
  have hname := KindTable.name_resolve (KindTable.ofDocument s.working) f.type.baseName
  constructor
  · intro h
    rw [h] at hname
    obtain rfl : target = f.type.baseName := hname
    exact ⟨rfl, (resolve_kinds hdistinct _).mp ⟨_, h⟩⟩
  · rintro ⟨rfl, h⟩
    obtain ⟨target, htarget⟩ := (resolve_kinds hdistinct _).mpr h
    rw [htarget] at hname
    rw [htarget, show target = f.type.baseName from hname]

include hroots

/-- The entry for a field of the working document. -/
theorem inputEntry_rootBasis (mode : InputMode) (f : FieldDef) :
    ((Assembly.rootBasis s.working s.options descriptors).inputEntry mode
        (Descriptor.dataField (KindTable.ofDocument s.working) f)).map
          (fun entry => (⟨none, entry.1, entry.2.toExpr, none, []⟩ : InputDef)) =
      if s.working.isUnion f.type.baseName then none else some (s.inputField mode f) := by
  unfold Basis.inputEntry
  split
  · next target hbase =>
      obtain ⟨rfl, hkind⟩ := (base_dataField_eq_object hdistinct).mp hbase
      rw [nestedFields?_rootBasis hdistinct hroots, Sources.fields?]
      cases hfields : s.working.composite? f.type.baseName with
      | none =>
          have hunion : s.working.isUnion f.type.baseName := by simpa [hfields] using hkind
          simp [hunion]
      | some fields =>
          have hunion := not_isUnion_of_composite? (by rw [hfields]; rfl)
          have hinput : f.type.withBase (s.inputBase mode) =
              f.type.withBase fun _ => mode.inputName f.type.baseName :=
            TypeExpr.withBase_congr (by simp [Sources.inputBase, hfields])
          rw [hunion]
          simp only [Option.map_some, Bool.false_eq_true, if_false, Sources.inputField,
            Descriptor.dataField, TypeRef.toExpr_fieldType, TypeRef.toExpr_rename, NamedRef.name,
            hinput]
  · next hbase =>
      have hplain : ¬ ((s.working.composite? f.type.baseName).isSome ∨
          s.working.isUnion f.type.baseName) := fun hkind =>
        hbase _ ((base_dataField_eq_object hdistinct).mpr ⟨rfl, hkind⟩)
      obtain ⟨hcomposite, hunion⟩ := not_or.mp hplain
      have hinput : f.type.withBase (s.inputBase mode) = f.type :=
        TypeExpr.withBase_self (by simp [Sources.inputBase, hcomposite])
      rw [if_neg hunion]
      simp only [Option.map_some, Sources.inputField, Descriptor.dataField,
        TypeRef.toExpr_fieldType, TypeRef.toExpr_ofExpr, hinput]

theorem inputEntries_rootBasis {p : InputPair} {fields : List FieldDef}
    (h : s.fields? p.typeName = some fields) :
    ((Assembly.rootBasis s.working s.options descriptors).inputEntries p).map
      (fun entry => (⟨none, entry.1, entry.2.toExpr, none, []⟩ : InputDef)) =
        (fields.filter fun f => !s.working.isUnion f.type.baseName).map (s.inputField p.mode) := by
  rw [Basis.inputEntries, nestedFields?_rootBasis hdistinct hroots, h, Option.map_some,
    Option.getD_some, List.filterMap_map, List.map_filterMap]
  simp only [Function.comp_apply, inputEntry_rootBasis hdistinct hroots]
  clear h
  induction fields with
  | nil => rfl
  | cons f rest ih =>
      by_cases hunion : s.working.isUnion f.type.baseName
      · simpa [hunion] using ih
      · simpa [hunion] using ih

theorem inputOf_rootBasis {p : InputPair} {fields : List FieldDef}
    (h : s.fields? p.typeName = some fields) :
    (Assembly.rootBasis s.working s.options descriptors).inputOf p = s.inputType p fields :=
  congrArg (fun fields => (⟨none, p.inputName, [], .input fields⟩ : TypeDef))
    (inputEntries_rootBasis hdistinct hroots h)

theorem starved_rootBasis {p : InputPair} (h : (s.fields? p.typeName).isSome) :
    (Assembly.rootBasis s.working s.options descriptors).Starved p ↔ s.Starved p := by
  obtain ⟨fields, hfields⟩ := Option.isSome_iff_exists.mp h
  have hentries := inputEntries_rootBasis hdistinct hroots hfields
  unfold Basis.Starved Sources.Starved
  rw [← List.map_eq_nil_iff, hentries, List.map_eq_nil_iff, List.filter_eq_nil_iff]
  simp [hfields]

theorem follows_rootBasis {p q : InputPair} :
    (Assembly.rootBasis s.working s.options descriptors).Follows p q ↔
      p.inputName ∉ declaredNames s.working ∧ q.mode = p.mode ∧
        ∃ fields f, s.fields? p.typeName = some fields ∧ f ∈ fields ∧
          f.type.baseName = q.typeName ∧ (s.working.composite? q.typeName).isSome := by
  unfold Basis.Follows Basis.Targets
  simp only [nestedFields?_rootBasis hdistinct hroots, Option.isSome_map, Option.map_eq_some_iff]
  constructor
  · rintro ⟨hdeclared, _, ⟨fields, hfields, rfl⟩, hmode, hsome, _, hf, hbase⟩
    obtain ⟨f, hmem, rfl⟩ := List.mem_map.mp hf
    rw [Sources.fields?, Option.isSome_map] at hsome
    exact ⟨hdeclared, hmode, fields, f, hfields, hmem,
      ((base_dataField_eq_object hdistinct).mp hbase).1, hsome⟩
  · rintro ⟨hdeclared, hmode, fields, f, hfields, hf, hbase, hsome⟩
    refine ⟨hdeclared, _, ⟨fields, hfields, rfl⟩, hmode, ?_, _, List.mem_map_of_mem hf, ?_⟩
    · rwa [Sources.fields?, Option.isSome_map]
    · exact (base_dataField_eq_object hdistinct).mpr ⟨hbase, .inl hsome⟩

/-- The pairs that the derivation meets are the reachable ones. -/
theorem reaches_rootBasis {p : InputPair} :
    (Assembly.rootBasis s.working s.options descriptors).Reaches (Fragment.OfRoots descriptors) p ↔
      s.Reachable p := by
  constructor
  · rintro ⟨start, ⟨d, hd, hstart⟩, hpath⟩
    induction hpath with
    | refl =>
        obtain ⟨typeName, mode⟩ := start
        exact .root mode ((mem_roots hroots).mpr ⟨d, hd, hstart.symm⟩)
    | @tail q r _ hlast ih =>
        obtain ⟨hdeclared, hmode, fields, f, hfields, hf, hbase, hsome⟩ :=
          (follows_rootBasis hdistinct hroots).mp hlast
        obtain ⟨typeName, mode⟩ := r
        obtain rfl : f.type.baseName = typeName := hbase
        obtain rfl : mode = q.mode := hmode
        exact .field ih hdeclared hfields hf hsome
  · intro h
    induction h with
    | root mode hname =>
        obtain ⟨d, hd, rfl⟩ := (mem_roots hroots).mp hname
        exact ⟨⟨d.typeName, mode⟩, ⟨d, hd, rfl⟩, .refl⟩
    | field _ hdeclared hfields hf hsome ih =>
        obtain ⟨start, hstart, hpath⟩ := ih
        exact ⟨start, hstart, hpath.tail ((follows_rootBasis hdistinct hroots).mpr
          ⟨hdeclared, rfl, _, _, hfields, hf, rfl, hsome⟩)⟩

end Pairs

/-! ## Names -/

section Written

theorem isName_roots {working : Document} (h : working.Written) :
    isName (RootNames.ofDocument working).query.toList ∧
      isName (RootNames.ofDocument working).mutation.toList := by
  have hfold (roots : List RootDef) (names : RootNames)
      (hroots : ∀ root ∈ roots, isName root.type.toList)
      (hnames : isName names.query.toList ∧ isName names.mutation.toList) :
      isName (roots.foldl RootNames.set names).query.toList ∧
        isName (roots.foldl RootNames.set names).mutation.toList := by
    induction roots generalizing names with
    | nil => exact hnames
    | cons root rest ih =>
        apply ih _ (fun other hother => hroots other (List.mem_cons_of_mem root hother))
        have hroot := hroots root List.mem_cons_self
        unfold RootNames.set
        split
        · exact ⟨hroot, hnames.2⟩
        · exact ⟨hnames.1, hroot⟩
        · exact hnames
  refine hfold _ _ ?_ (by decide)
  intro root hroot
  obtain ⟨definition, hdefinition, hroot⟩ := List.mem_flatMap.mp hroot
  cases definition with
  | schema d => exact (h _ hdefinition).rootTypes root.type (List.mem_map_of_mem hroot)
  | _ => simp at hroot

theorem written_composite? {working : Document} (h : working.Written) {name : String}
    {fields : List FieldDef} (hfields : working.composite? name = some fields) :
    isName name.toList ∧ ∀ f ∈ fields, isName f.name.toList ∧ f.type.isWritten := by
  obtain ⟨d, hnamed, hbody⟩ := Option.bind_eq_some_iff.mp hfields
  have hmem := mem_types.mp (List.mem_of_find?_eq_some hnamed)
  have hsame : d.name = name := by simpa using List.find?_some hnamed
  refine ⟨hsame ▸ (h _ hmem).name d.name rfl, ?_⟩
  have hwritten := (h _ hmem).fields
  obtain ⟨_, _, _, body⟩ := d
  cases body <;> simp_all [TypeBody.composite?, Definition.fields]

/-- The working document of some fragments calls things by names. -/
theorem workingDocument_written {reading : ReadOptions} {sources : List Source} {working : Document}
    (hgiven : ∀ d, .document d ∈ sources → d.Written)
    (h : Assembly.workingDocument reading sources = .ok working) : working.Written := by
  obtain ⟨documents, hload, hmerge⟩ := bind_eq_ok.mp h
  refine Merge.mergeDocuments_written (fun document hdocument => ?_) hmerge
  have hmem : (.ok document : Except Failure Document) ∈ documents.map .ok :=
    List.mem_map_of_mem hdocument
  rw [← mapM_eq_ok.mp hload] at hmem
  obtain ⟨source, hsource, hread⟩ := List.mem_map.mp hmem
  refine Source.load_written (fun d hd => hgiven d ?_) hread
  exact hd ▸ hsource

variable {s : Sources} {descriptors : List Descriptor}
  (hroots : s.roots.eraseDups.mapM (Assembly.describeRoot s.working s.options.selector) =
    .ok descriptors)
  (hwritten : s.working.Written)

include hroots hwritten

theorem plain_rootBasis (hns : s.options.ns.toList.all isNameContinue) :
    (Assembly.rootBasis s.working s.options descriptors).Plain where
  names := by
    intro name hname
    obtain ⟨entries, hentries⟩ := Option.isSome_iff_exists.mp hname
    obtain ⟨t, ht, rfl, -⟩ := exists_type_of_nestedFields? hroots hentries
    exact (hwritten _ (mem_types.mp ht)).name t.name rfl
  fields := by
    intro name entries hentries entry hentry
    obtain ⟨t, ht, -, hfields⟩ := exists_type_of_nestedFields? hroots hentries
    obtain ⟨f, hf, rfl⟩ := hfields entry hentry
    simpa [Descriptor.dataField] using (hwritten _ (mem_types.mp ht)).fields f hf
  query := (isName_roots hwritten).1
  mutation := (isName_roots hwritten).2
  ns := hns

theorem plain_descriptors {d : Descriptor} (hd : d ∈ descriptors) : d.Plain := by
  obtain ⟨-, fields, idField, hfields, -, hid, hname, htype, -⟩ :=
    describeRoot_eq_ok (describeRoot_of_mem hroots hd)
  obtain ⟨t, ht, htypeName, rfl, -⟩ := exists_type_of_objectFields? hfields
  have hwritten := hwritten _ (mem_types.mp ht)
  obtain ⟨hidName, hidType⟩ := hwritten.fields idField hid
  exact ⟨htypeName ▸ hwritten.name t.name rfl, hname ▸ hidName,
    by rwa [htype, TypeRef.toExpr_ofExpr]⟩

end Written

end RecordApi
