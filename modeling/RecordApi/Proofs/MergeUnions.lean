import Mathlib.Data.List.Basic
import RecordApi.TypeRef
import RecordApi.Proofs.MergeRepeats

/-!
# Types that unite

The definitions of a key that unites its fields come to one object type. Its fields, directives and
interfaces are those of all the definitions, the last one of every name. Types of other kinds do not
stay what they are: values of enumerations and types of unions have no place in an object type, and
the fields of interfaces and input types become those of an object.
-/

namespace RecordApi

open RecordApi.Language

/-- A member of a type: a field, a value of an enumeration, or a type of a union. -/
inductive Member where
  | field (f : FieldDef)
  | value (v : EnumValueDef)
  | type (name : String)
deriving DecidableEq, Inhabited

/-- The name of a member. -/
def Member.name : Member → String
  | field f => f.name
  | value v => v.name
  | type name => name

/-- The members of a definition. The fields of an input type are fields without arguments. -/
def membersOf : Definition → List Member
  | .type t =>
    match t.body with
    | .scalar => []
    | .object _ fields | .interface _ fields => fields.map .field
    | .union members => members.map .type
    | .enum values => values.map .value
    | .input fields => fields.map fun f => .field f.toField
  | _ => []

/-- The kind of a type definition. -/
def kindOf? : Definition → Option Kind
  | .type t => some (Kind.ofBody t.body)
  | _ => none

theorem exists_type_of_kind {d : Definition} {kind : Kind} (h : kindOf? d = some kind) :
    ∃ t, d = .type t ∧ Kind.ofBody t.body = kind := by
  cases d with
  | type t => exact ⟨t, rfl, Option.some.inj h⟩
  | _ => cases h

namespace Merge

/-! ## Items by name -/

section ByName

variable {α β : Type} {name : α → String}

theorem map_putByName (item : α) (items : List α) :
    (putByName name item items).map name =
      if HasName name (name item) items then items.map name else items.map name ++ [name item] := by
  induction items with
  | nil => simp [putByName, HasName]
  | cons x rest ih =>
      by_cases hrest : HasName name (name item) rest
      · rw [putByName_cons_of_mem hrest, if_pos (hasName_cons.mpr (.inr hrest)), List.map_cons, ih,
          if_pos hrest, List.map_cons]
      · by_cases hx : name x = name item
        · rw [putByName_cons_of_last hx hrest, if_pos (hasName_cons.mpr (.inl hx)), List.map_cons,
            List.map_cons, hx]
        · have hnew : ¬ HasName name (name item) (x :: rest) := by
            rw [hasName_cons, not_or]
            exact ⟨hx, hrest⟩
          rw [putByName_of_new hnew, if_neg hnew, List.map_append, List.map_singleton]

theorem nodup_putByName {items : List α} (h : (items.map name).Nodup) (item : α) :
    ((putByName name item items).map name).Nodup := by
  rw [map_putByName]
  split
  · exact h
  · next hnew =>
      refine List.nodup_append.mpr ⟨h, by simp, ?_⟩
      rintro n hn m hm rfl
      obtain ⟨x, hx, hname⟩ := List.mem_map.mp hn
      exact hnew ⟨x, hx, hname.trans (List.mem_singleton.mp hm)⟩

/-- A list that repeats no name repeats none when another is united with it. -/
theorem nodup_nameMerge {first : List α} (h : (first.map name).Nodup) (second : List α) :
    ((nameMerge name first second).map name).Nodup := by
  induction second generalizing first with
  | nil => exact h
  | cons item rest ih => exact ih (nodup_putByName h item)

theorem eq_nil_of_lastOfName? (name : α → String) {items : List α}
    (h : ∀ n, lastOfName? name n items = none) : items = [] := by
  refine List.eq_nil_iff_forall_not_mem.mpr fun x hx => ?_
  exact lastOfName?_eq_none.mp (h (name x)) ⟨x, hx, rfl⟩

theorem lastOfName?_map {other : β → String} {f : α → β} (h : ∀ x, other (f x) = name x)
    (n : String) (items : List α) :
    lastOfName? other n (items.map f) = (lastOfName? name n items).map f := by
  have hsame : (fun y => decide (other y = n)) ∘ f = fun x => decide (name x = n) := by
    funext x
    rw [Function.comp_apply, h]
  rw [lastOfName?, ← List.map_reverse, List.find?_map, hsame]
  rfl

end ByName

/-! ## Parts of united definitions -/

/-- Whether the named items of a definition are those of some definitions: the last one of every
name, and none twice unless the first of the definitions repeats it. -/
structure Unites {α : Type} (name : α → String) (part : Definition → List α) (d : Definition)
    (later : List Definition) (m : Definition) : Prop where
  last : ∀ n, lastOfName? name n (part m) = lastOfName? name n ((d :: later).flatMap part)
  nodup : ((part d).map name).Nodup → ((part m).map name).Nodup

section Parts

variable {α : Type} {name : α → String} (key : String) (part : Definition → List α)
  (hpart : ∀ earlier later,
    part (fieldUnion key earlier later) = nameMerge name (part earlier) (part later))

include hpart

theorem part_foldl_fieldUnion (d : Definition) (later : List Definition) :
    part (later.foldl (combine .fieldUnion key) d) =
      nameMerge name (part d) (later.flatMap part) := by
  induction later generalizing d with
  | nil => rfl
  | cons e rest ih =>
      calc
        part ((e :: rest).foldl (combine .fieldUnion key) d) =
            nameMerge name (part (fieldUnion key d e)) (rest.flatMap part) := ih _
        _ = nameMerge name (part d) ((e :: rest).flatMap part) := by
          rw [hpart, ← nameMerge_append, List.flatMap_cons]

/-- What is united item by item has all items of the definitions. -/
theorem unites_foldl_fieldUnion (d : Definition) (later : List Definition) :
    Unites name part d later (later.foldl (combine .fieldUnion key) d) where
  last n := by
    rw [part_foldl_fieldUnion key part hpart, lastOfName?_nameMerge, List.flatMap_cons]
  nodup h := by
    rw [part_foldl_fieldUnion key part hpart]
    exact nodup_nameMerge h _

end Parts

/-- Uniting the definitions of a key loses no field of them, and the last one of every name is
left. -/
theorem lastOfName?_combined (key n : String) (definitions : List Definition) :
    lastOfName? FieldDef.name n
        ((combined? .fieldUnion key definitions).toList.flatMap Definition.fields) =
      lastOfName? FieldDef.name n (definitions.flatMap Definition.fields) := by
  cases definitions with
  | nil => rfl
  | cons d later =>
      have hunites := unites_foldl_fieldUnion key Definition.fields (fun _ _ => rfl) d later
      rw [← hunites.last]
      exact congrArg _ (List.append_nil _)

/-- What several definitions unite in is an object type. -/
theorem foldl_fieldUnion_eq (key : String) {later : List Definition} (h : later ≠ [])
    (d : Definition) :
    ∃ m, later.foldl (combine .fieldUnion key) d = .type m ∧ m.name = key ∧
      Kind.ofBody m.body = .object := by
  cases later with
  | nil => exact absurd rfl h
  | cons e rest =>
      rw [foldl_combine_cons]
      exact ⟨_, rfl, rfl, rfl⟩

/-- Definitions of a key that unites its fields come to an object type if one of them is one. -/
theorem combined?_of_object (key : String) {definitions : List Definition} {d : Definition}
    (hd : d ∈ definitions) (hobject : kindOf? d = some .object) :
    ∃ m, combined? .fieldUnion key definitions = some (.type m) ∧ Kind.ofBody m.body = .object := by
  cases definitions with
  | nil => simp at hd
  | cons e later =>
      cases later with
      | nil =>
          obtain rfl := List.mem_singleton.mp hd
          obtain ⟨m, rfl, hkind⟩ := exists_type_of_kind hobject
          exact ⟨m, rfl, hkind⟩
      | cons e' rest =>
          obtain ⟨m, hm, -, hkind⟩ :=
            foldl_fieldUnion_eq key (List.cons_ne_nil e' rest) e
          exact ⟨m, congrArg some hm, hkind⟩

theorem kindOf?_combine {policy : MergePolicy} {key : String} {later : Definition}
    (h : kindOf? later = some .object) (earlier : Definition) :
    kindOf? (combine policy key earlier later) = some .object := by
  cases policy with
  | override => exact h
  | fieldUnion => rfl

/-- Object types are merged into object types. -/
theorem kindOf?_mergeDefinitions {table : PolicyTable} {key : String}
    {lists : List (List Definition)}
    (h : ∀ d ∈ keyed key lists.flatten, kindOf? d = some .object) :
    ∀ d ∈ keyed key (mergeDefinitions table lists), kindOf? d = some .object := by
  have hgood : ∀ d ∈ mergeDefinitions table lists, key? d = some key →
      kindOf? d = some .object := by
    apply forall_mergeDefinitions
    · intro policy other earlier later _ hlater _ hgood hkey
      obtain rfl : other = key := Option.some.inj ((key?_combine hlater earlier).symm.trans hkey)
      exact kindOf?_combine (hgood hlater) earlier
    · intro list hlist d hd hkey
      exact h d (mem_keyed.mpr ⟨List.mem_flatten.mpr ⟨list, hlist, hd⟩, hkey⟩)
  intro d hd
  obtain ⟨hd, hkey⟩ := mem_keyed.mp hd
  exact hgood d hd hkey

/-! ## Members -/

theorem fields_eq_nil_of_kind {d : Definition} {kind : Kind} (h : kindOf? d = some kind)
    (hkind : kind = .enum ∨ kind = .union) : d.fields = [] := by
  obtain ⟨⟨_, _, _, body⟩, rfl, rfl⟩ := exists_type_of_kind h
  cases body <;> simp_all [Kind.ofBody, Definition.fields]

/-- Where members are neither values of enumerations nor types of unions, they are fields. -/
theorem membersOf_eq_fields {d : Definition} {kind : Kind} (h : kindOf? d = some kind)
    (henum : kind ≠ .enum) (hunion : kind ≠ .union) : membersOf d = d.fields.map .field := by
  obtain ⟨⟨_, _, _, body⟩, rfl, rfl⟩ := exists_type_of_kind h
  cases body <;> simp_all [Kind.ofBody, Definition.fields, membersOf]

theorem unites_members {d m : Definition} {later : List Definition} {kind : Kind}
    (hkind : ∀ e ∈ d :: later, kindOf? e = some kind) (hm : kindOf? m = some .object)
    (h : Unites FieldDef.name Definition.fields d later m) :
    Unites Member.name membersOf d later m ↔
      (kind = .enum ∨ kind = .union → ∀ e ∈ d :: later, membersOf e = []) := by
  have hfields : membersOf m = m.fields.map .field :=
    membersOf_eq_fields hm (by decide) (by decide)
  by_cases hother : kind = .enum ∨ kind = .union
  · have hnone : (d :: later).flatMap Definition.fields = [] :=
      List.flatMap_eq_nil_iff.mpr fun e he => fields_eq_nil_of_kind (hkind e he) hother
    have hnil : m.fields = [] := by
      apply eq_nil_of_lastOfName? FieldDef.name
      intro n
      rw [h.last, hnone]
      rfl
    rw [hnil, List.map_nil] at hfields
    refine ⟨fun hmembers _ => ?_, fun hmembers => ⟨fun n => ?_, fun _ => ?_⟩⟩
    · apply List.flatMap_eq_nil_iff.mp
      apply eq_nil_of_lastOfName? Member.name
      intro n
      rw [← hmembers.last, hfields]
      rfl
    · rw [hfields, List.flatMap_eq_nil_iff.mpr (hmembers hother)]
    · rw [hfields]
      exact List.nodup_nil
  · have hall (e : Definition) (he : e ∈ d :: later) : membersOf e = e.fields.map .field := by
      rw [not_or] at hother
      exact membersOf_eq_fields (hkind e he) hother.1 hother.2
    have hnames (fields : List FieldDef) :
        (fields.map Member.field).map Member.name = fields.map FieldDef.name := by
      rw [List.map_map]
      rfl
    have hlast (n : String) (fields : List FieldDef) :
        lastOfName? Member.name n (fields.map .field) =
          (lastOfName? FieldDef.name n fields).map .field :=
      lastOfName?_map (fun _ => rfl) n fields
    refine iff_of_true ⟨fun n => ?_, fun hd => ?_⟩ fun h => absurd h hother
    · rw [hfields, List.flatMap_congr hall, ← List.map_flatMap, hlast, hlast, h.last]
    · rw [hall d List.mem_cons_self, hnames] at hd
      rw [hfields, hnames]
      exact h.nodup hd

/-! ## Documents -/

/-- Two documents that declare a key which unites its fields are merged into one in which the key
stands for one object type, and for what the first document repeats of it. The type has all fields,
directives and interfaces of the first document's first definition and of the second document's, the
last of every name. Where all these are types of one kind, just object types stay of their kind, and
all members are kept just if there are no values of enumerations and no types of unions. The key of
schema definitions never unites. -/
theorem mergeDocuments_fieldUnion (table calls : PolicyTable) {first second : Document}
    {key : String} (hpolicy : (calls.lookup key).or (table.lookup key) = some .fieldUnion)
    (hnamed : ¬ ∃ document ∈ [first, second], ∃ d ∈ document.definitions, LacksName d)
    {t u : TypeDef} {repeats more : List Definition}
    (hfirst : keyed key first.definitions = .type t :: repeats)
    (hsecond : keyed key second.definitions = .type u :: more) :
    ∃ merged, mergeDocuments (calls ++ table) [first, second] = .ok merged ∧
      (key = schemaKey →
        keyed key merged.definitions = ((Definition.type u :: more).getLast?.toList ++ repeats)) ∧
      (key ≠ schemaKey → ∃ m, keyed key merged.definitions = .type m :: repeats ∧
        m.name = key ∧ Kind.ofBody m.body = .object ∧
        Unites FieldDef.name Definition.fields (.type t) (.type u :: more) (.type m) ∧
        Unites Directive.name Definition.directives (.type t) (.type u :: more) (.type m) ∧
        Unites id Definition.interfaces (.type t) (.type u :: more) (.type m) ∧
        ∀ kind, (∀ e ∈ .type t :: .type u :: more, kindOf? e = some kind) →
          (kindOf? (.type m) = some kind ↔ kind = .object) ∧
          (Unites Member.name membersOf (.type t) (.type u :: more) (.type m) ↔
            (kind = .enum ∨ kind = .union →
              ∀ e ∈ .type t :: .type u :: more, membersOf e = []))) := by
  have hall := named_of_not_lacksName hnamed
  have hne : first.definitions ≠ [] := by
    intro hnil
    rw [hnil] at hfirst
    cases hfirst
  have hkeyed : keyed key (mergeDefinitions (calls ++ table)
        [first.definitions, second.definitions]) =
      (.type u :: more).foldl (combine (policyOf (calls ++ table) key) key) (.type t) ::
        repeats := by
    rw [mergeDefinitions_cons_of_ne_nil _ hne, List.flatten_singleton, keyed_foldl_add_eq, hfirst,
      hsecond]
    rfl
  refine ⟨_, mergeDocuments_of_named _ hall, fun hschema => ?_, fun hother => ?_⟩
  · have hover : policyOf (calls ++ table) key = .override := if_pos hschema
    refine hkeyed.trans ?_
    rw [hover, foldl_override]
    simp [List.getLast?_cons]
  · have hunion : policyOf (calls ++ table) key = .fieldUnion := by
      rw [policyOf_append, strategy, if_neg hother, hpolicy]
      rfl
    rw [hunion] at hkeyed
    obtain ⟨m, hm, hname, hobject⟩ :=
      foldl_fieldUnion_eq key (List.cons_ne_nil (.type u) more) (.type t)
    have hfields :=
      unites_foldl_fieldUnion key Definition.fields (fun _ _ => rfl) (.type t) (.type u :: more)
    have hdirectives :=
      unites_foldl_fieldUnion key Definition.directives (fun _ _ => rfl) (.type t) (.type u :: more)
    have hinterfaces :=
      unites_foldl_fieldUnion key Definition.interfaces (fun _ _ => rfl) (.type t) (.type u :: more)
    rw [hm] at hfields hdirectives hinterfaces hkeyed
    have hmkind : kindOf? (.type m) = some .object := congrArg some hobject
    refine ⟨m, hkeyed, hname, hobject, hfields, hdirectives, hinterfaces, fun kind hkinds => ?_⟩
    refine ⟨?_, unites_members hkinds hmkind hfields⟩
    rw [hmkind, Option.some_inj, eq_comm]

/-- An interface with one field. -/
def nodeOf (interfaces : List String) (field type : String) : TypeDef :=
  ⟨none, "Node", [], .interface interfaces [⟨none, field, [], .named type, none, [], false⟩]⟩

/-- Two interfaces unite in an object type with the fields and interfaces of both. -/
theorem mergeDocuments_fieldUnion_nodes :
    let first := Document.ofDefinitions [.type (nodeOf ["Entity"] "id" "ID")]
    let second := Document.ofDefinitions [.type (nodeOf [] "age" "Int")]
    (([("Node", MergePolicy.fieldUnion)].lookup "Node").or (PolicyTable.standard.lookup "Node") =
        some .fieldUnion) ∧
      (¬ ∃ document ∈ [first, second], ∃ d ∈ document.definitions, LacksName d) ∧
      ∃ merged m, mergeDocuments ([("Node", .fieldUnion)] ++ PolicyTable.standard)
          [first, second] = .ok merged ∧
        keyed "Node" merged.definitions = [.type m] ∧ Kind.ofBody m.body = .object ∧
        (lastOfName? FieldDef.name "id" (Definition.type m).fields).isSome ∧
        (lastOfName? FieldDef.name "age" (Definition.type m).fields).isSome ∧
        (lastOfName? id "Entity" (Definition.type m).interfaces).isSome := by
  intro first second
  have hpolicy : ([("Node", MergePolicy.fieldUnion)].lookup "Node").or
      (PolicyTable.standard.lookup "Node") = some .fieldUnion := by decide
  have hnamed : ¬ ∃ document ∈ [first, second], ∃ d ∈ document.definitions, LacksName d := by
    decide
  have hfirst : keyed "Node" first.definitions = [.type (nodeOf ["Entity"] "id" "ID")] := rfl
  have hsecond : keyed "Node" second.definitions = [.type (nodeOf [] "age" "Int")] := rfl
  obtain ⟨merged, hmerged, -, hunited⟩ := mergeDocuments_fieldUnion PolicyTable.standard
    [("Node", .fieldUnion)] hpolicy hnamed hfirst hsecond
  obtain ⟨m, hkeyed, -, hobject, hfields, -, hinterfaces, -⟩ := hunited (by decide)
  refine ⟨hpolicy, hnamed, merged, m, hmerged, hkeyed, hobject, ?_, ?_, ?_⟩
  · rw [hfields.last]
    decide
  · rw [hfields.last]
    decide
  · rw [hinterfaces.last]
    decide

/-- An enumeration with one value. -/
def colorOf (value : String) : Definition :=
  .type ⟨none, "Color", [], .enum [⟨none, value, []⟩]⟩

/-- Two enumerations unite in an object type that has none of their values. -/
theorem mergeDocuments_colors :
    let first := Document.ofDefinitions [colorOf "RED"]
    let second := Document.ofDefinitions [colorOf "BLUE"]
    (PolicyTable.standard.register "Color" .fieldUnion).policyFor "Color" = .fieldUnion ∧
      kindOf? (colorOf "RED") = some .enum ∧ kindOf? (colorOf "BLUE") = some .enum ∧
      mergeDocuments (PolicyTable.standard.register "Color" .fieldUnion) [first, second] =
        .ok (Document.ofDefinitions [.type ⟨none, "Color", [], .object [] []⟩]) ∧
      ¬ ∃ merged d, mergeDocuments (PolicyTable.standard.register "Color" .fieldUnion)
          [first, second] = .ok merged ∧ keyed "Color" merged.definitions = [d] ∧
        kindOf? d = some .enum ∧
        ∀ n ∈ ["RED", "BLUE"], HasName Member.name n (membersOf d) := by
  intro first second
  have hmerged : mergeDocuments (PolicyTable.standard.register "Color" .fieldUnion)
      [first, second] =
        .ok (Document.ofDefinitions [.type ⟨none, "Color", [], .object [] []⟩]) := by
    decide
  refine ⟨by decide, rfl, rfl, hmerged, ?_⟩
  rintro ⟨merged, d, hok, hkeyed, hkind, -⟩
  obtain rfl := Except.ok.inj (hmerged.symm.trans hok)
  obtain rfl : _ = d := List.head_eq_of_cons_eq hkeyed
  cases hkind

end Merge

end RecordApi
