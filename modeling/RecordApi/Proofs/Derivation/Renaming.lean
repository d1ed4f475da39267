import Mathlib.Data.Set.Function
import RecordApi.Proofs.Derivation.Mentions
import RecordApi.Proofs.MergeAssociativity

/-!
# Renamed types

A renaming goes over the names of definitions and the types of their fields and arguments. Documents
whose keys it keeps apart, and under the same policies, are merged alike before and after it.
-/

namespace RecordApi

open RecordApi.Language

variable (f : String → String)

/-! ## Definitions -/

namespace Language

def InputDef.rename (d : InputDef) : InputDef :=
  { d with type := d.type.withBase f }

def FieldDef.rename (d : FieldDef) : FieldDef :=
  { d with type := d.type.withBase f, arguments := d.arguments.map (InputDef.rename f) }

def TypeBody.rename : TypeBody → TypeBody
  | .object interfaces fields => .object interfaces (fields.map (FieldDef.rename f))
  | .interface interfaces fields => .interface interfaces (fields.map (FieldDef.rename f))
  | .input fields => .input (fields.map (InputDef.rename f))
  | body => body

def TypeDef.rename (d : TypeDef) : TypeDef :=
  { d with name := f d.name, body := d.body.rename f }

/-- The definition with its name and the types of its fields and arguments renamed. -/
def Definition.rename : Definition → Definition
  | .operation d => .operation { d with name := d.name.map fun name => ⟨f name.text, name.pos⟩ }
  | .fragment d => .fragment { d with name := ⟨f d.name.text, d.name.pos⟩ }
  | .type d => .type (d.rename f)
  | .typeExtension d => .typeExtension (d.rename f)
  | .directive d =>
    .directive { d with name := f d.name, arguments := d.arguments.map (InputDef.rename f) }
  | d => d

def Document.rename (document : Document) : Document :=
  { document with definitions := document.definitions.map (Definition.rename f) }

/-- The types of the arguments that a directive takes. -/
def Definition.argumentTypes : Definition → List String
  | .directive d => d.arguments.map (·.type.baseName)
  | _ => []

/-- The name of a definition, and those of the types in its fields and arguments. -/
def Definition.typeNames (d : Definition) : List String :=
  d.name?.toList ++ d.mentioned ++ d.argumentTypes

namespace Definition

variable {f}

@[simp] theorem name?_rename (d : Definition) : (d.rename f).name? = d.name?.map f := by
  cases d with
  | operation d => simp [rename, name?, Function.comp_def]
  | _ => rfl

@[simp] theorem description_rename (d : Definition) :
    (d.rename f).description = d.description := by
  cases d <;> rfl

@[simp] theorem directives_rename (d : Definition) : (d.rename f).directives = d.directives := by
  cases d <;> rfl

@[simp] theorem interfaces_rename (d : Definition) : (d.rename f).interfaces = d.interfaces := by
  have hbody (t : TypeDef) : (type (t.rename f)).interfaces = (type t).interfaces := by
    obtain ⟨_, _, _, body⟩ := t
    cases body <;> rfl
  cases d with
  | type t => exact hbody t
  | typeExtension t => exact hbody t
  | _ => rfl

@[simp] theorem fields_rename (d : Definition) :
    (d.rename f).fields = d.fields.map (FieldDef.rename f) := by
  have hbody (t : TypeDef) :
      (type (t.rename f)).fields = (type t).fields.map (FieldDef.rename f) := by
    obtain ⟨_, _, _, body⟩ := t
    cases body with
    | input fields =>
        change (fields.map (InputDef.rename f)).map InputDef.toField =
          (fields.map InputDef.toField).map (FieldDef.rename f)
        rw [List.map_map, List.map_map]
        rfl
    | _ => rfl
  cases d with
  | type t => exact hbody t
  | typeExtension t => exact hbody t
  | _ => rfl

end Definition

/-! ## Names that stay -/

section Fixed

variable {f}

theorem InputDef.rename_self {d : InputDef} (h : f d.type.baseName = d.type.baseName) :
    d.rename f = d := by
  rw [InputDef.rename, TypeExpr.withBase_self h]

theorem InputDef.map_rename_self {arguments : List InputDef}
    (h : ∀ name ∈ arguments.map (·.type.baseName), f name = name) :
    arguments.map (InputDef.rename f) = arguments := by
  conv_rhs => rw [← List.map_id arguments]
  exact List.map_congr_left fun a ha => InputDef.rename_self (h _ (List.mem_map_of_mem ha))

theorem FieldDef.rename_self {d : FieldDef} (h : ∀ name ∈ d.mentioned, f name = name) :
    d.rename f = d := by
  obtain ⟨htype, harguments⟩ := List.forall_mem_cons.mp h
  rw [FieldDef.rename, TypeExpr.withBase_self htype, InputDef.map_rename_self harguments]

theorem TypeDef.rename_self {d : TypeDef} (hname : f d.name = d.name)
    (h : ∀ name ∈ (Definition.type d).mentioned, f name = name) : d.rename f = d := by
  have hfields {fields : List FieldDef}
      (h : ∀ name ∈ fields.flatMap FieldDef.mentioned, f name = name) :
      fields.map (FieldDef.rename f) = fields := by
    conv_rhs => rw [← List.map_id fields]
    refine List.map_congr_left fun g hg => FieldDef.rename_self fun name hname => ?_
    exact h name (List.mem_flatMap.mpr ⟨g, hg, hname⟩)
  have hbody : d.body.rename f = d.body := by
    obtain ⟨_, _, _, body⟩ := d
    cases body with
    | object interfaces fields => exact congrArg (TypeBody.object interfaces) (hfields h)
    | interface interfaces fields => exact congrArg (TypeBody.interface interfaces) (hfields h)
    | input fields =>
        refine congrArg TypeBody.input (InputDef.map_rename_self fun name hname => h name ?_)
        obtain ⟨g, hg, rfl⟩ := List.mem_map.mp hname
        exact List.mem_flatMap.mpr ⟨g.toField, List.mem_map_of_mem hg, List.mem_cons_self⟩
    | _ => rfl
  rw [TypeDef.rename, hname, hbody]

/-- A definition stays if no name that it has or mentions is changed. -/
theorem Definition.rename_self {d : Definition} (h : ∀ name ∈ d.typeNames, f name = name) :
    d.rename f = d := by
  obtain ⟨h, harguments⟩ := List.forall_mem_append.mp h
  obtain ⟨hname, hmentioned⟩ := List.forall_mem_append.mp h
  cases d with
  | operation d =>
      obtain ⟨_, _, name, _, _, _⟩ := d
      cases name with
      | none => rfl
      | some name =>
          have hsame : f name.text = name.text := hname _ (by simp [Definition.name?])
          simp [Definition.rename, hsame]
  | fragment d =>
      have hsame : f d.name.text = d.name.text := hname _ (by simp [Definition.name?])
      simp [Definition.rename, hsame]
  | type t =>
      exact congrArg _ (TypeDef.rename_self (hname _ (by simp [Definition.name?])) hmentioned)
  | typeExtension t =>
      exact congrArg _ (TypeDef.rename_self (hname _ (by simp [Definition.name?])) hmentioned)
  | directive d =>
      have hsame : f d.name = d.name := hname _ (by simp [Definition.name?])
      rw [Definition.rename, hsame, InputDef.map_rename_self harguments]
  | _ => rfl

end Fixed

end Language

/-! ## Merging -/

namespace Merge

variable {f}

section Members

variable {α : Type} {name : α → String} {g : α → α} (h : ∀ x, name (g x) = name x)

include h

theorem putByName_map (item : α) (items : List α) :
    putByName name (g item) (items.map g) = (putByName name item items).map g := by
  induction items with
  | nil => rfl
  | cons other rest ih =>
      have hlater : (rest.map g).all (fun x => name x ≠ name item) =
          rest.all fun x => name x ≠ name item := by
        rw [List.all_map]
        simp [Function.comp_def, h]
      rw [List.map_cons, putByName, putByName]
      simp only [h, hlater]
      split
      · rfl
      · rw [List.map_cons, ih]

/-- Lists are united by name alike if a change keeps the names. -/
theorem nameMerge_map (first second : List α) :
    nameMerge name (first.map g) (second.map g) = (nameMerge name first second).map g := by
  induction second generalizing first with
  | nil => rfl
  | cons item rest ih =>
      have hstep (items more : List α) (item : α) : nameMerge name items (item :: more) =
          nameMerge name (putByName name item items) more := rfl
      rw [List.map_cons, hstep, hstep, putByName_map h, ih]

end Members

theorem key?_rename (hschema : f schemaKey = schemaKey) (d : Definition) :
    key? (d.rename f) = (key? d).map f := by
  cases d with
  | operation d => exact Definition.name?_rename (.operation d)
  | schema d => exact congrArg some hschema.symm
  | _ => rfl

theorem combine_rename (policy : MergePolicy) (key : String) (earlier later : Definition) :
    combine policy (f key) (earlier.rename f) (later.rename f) =
      (combine policy key earlier later).rename f := by
  cases policy with
  | override => rfl
  | fieldUnion =>
      rw [combine, combine, fieldUnion, fieldUnion, Definition.fields_rename,
        Definition.fields_rename, nameMerge_map (g := FieldDef.rename f) fun _ => rfl]
      simp only [Definition.description_rename, Definition.directives_rename,
        Definition.interfaces_rename]
      rfl

section Keys

variable {table : PolicyTable} {keys : Set String} (hschema : f schemaKey = schemaKey)
  (hinjective : keys.InjOn f)
  (hpolicy : ∀ key ∈ keys, policyOf table (f key) = policyOf table key)

/-- Whether the key of a definition is among some keys. -/
def Within (keys : Set String) (d : Definition) : Prop :=
  ∀ key, key? d = some key → key ∈ keys

theorem within_combine {policy : MergePolicy} {key : String} {earlier later : Definition}
    (hkey : key? later = some key) (h : Within keys later) :
    Within keys (combine policy key earlier later) := by
  intro other hother
  rw [key?_combine hkey] at hother
  exact h other (hkey.trans hother)

include hschema hinjective

theorem absorb_rename {policy : MergePolicy} {key : String} (hkey : key ∈ keys) (d : Definition)
    {merged : List Definition} (h : ∀ e ∈ merged, Within keys e) :
    absorb policy (f key) (d.rename f) (merged.map (Definition.rename f)) =
      (absorb policy key d merged).map (Definition.rename f) := by
  induction merged with
  | nil => rfl
  | cons earlier rest ih =>
      obtain ⟨hearlier, hrest⟩ := List.forall_mem_cons.mp h
      have hsame : key? (earlier.rename f) = some (f key) ↔ key? earlier = some key := by
        rw [key?_rename hschema]
        constructor
        · intro hmap
          obtain ⟨other, hother, heq⟩ := Option.map_eq_some_iff.mp hmap
          rw [hother, hinjective (hearlier other hother) hkey heq]
        · intro hsome
          rw [hsome, Option.map_some]
      rw [List.map_cons, absorb, absorb]
      simp only [hsame]
      split
      · rw [combine_rename, List.map_cons]
      · rw [ih hrest, List.map_cons]

include hpolicy

theorem add_rename {d : Definition} (hd : Within keys d) {merged : List Definition}
    (h : ∀ e ∈ merged, Within keys e) :
    add table (merged.map (Definition.rename f)) (d.rename f) =
      (add table merged d).map (Definition.rename f) := by
  rw [add, add, key?_rename hschema]
  cases hkey : key? d with
  | none =>
      rw [Option.map_none]
      dsimp only
      rw [List.map_append, List.map_singleton]
  | some key =>
      rw [Option.map_some]
      dsimp only
      rw [hpolicy key (hd key hkey), absorb_rename hschema hinjective (hd key hkey) d h]

theorem foldl_add_rename {definitions merged : List Definition}
    (hdefinitions : ∀ d ∈ definitions, Within keys d) (h : ∀ e ∈ merged, Within keys e) :
    (definitions.map (Definition.rename f)).foldl (add table) (merged.map (Definition.rename f)) =
      (definitions.foldl (add table) merged).map (Definition.rename f) := by
  induction definitions generalizing merged with
  | nil => rfl
  | cons d rest ih =>
      obtain ⟨hd, hrest⟩ := List.forall_mem_cons.mp hdefinitions
      rw [List.map_cons, List.foldl_cons, List.foldl_cons,
        add_rename hschema hinjective hpolicy hd h]
      exact ih hrest (forall_add
        (fun _ _ _ _ _ hkey _ hlater => within_combine hkey hlater) hd h)

/-- Definitions are merged alike before and after a renaming. -/
theorem mergeDefinitions_rename {lists : List (List Definition)}
    (h : ∀ list ∈ lists, ∀ d ∈ list, Within keys d) :
    mergeDefinitions table (lists.map (List.map (Definition.rename f))) =
      (mergeDefinitions table lists).map (Definition.rename f) := by
  induction lists with
  | nil => rfl
  | cons first rest ih =>
      obtain ⟨hfirst, hrest⟩ := List.forall_mem_cons.mp h
      by_cases hempty : first = []
      · subst hempty
        exact ih hrest
      · rw [List.map_cons, mergeDefinitions_cons_of_ne_nil table (by simpa using hempty),
          mergeDefinitions_cons_of_ne_nil table hempty, ← List.map_flatten]
        refine foldl_add_rename hschema hinjective hpolicy (fun d hd => ?_) hfirst
        obtain ⟨list, hlist, hd⟩ := List.mem_flatten.mp hd
        exact hrest list hlist d hd

end Keys

end Merge

/-! ## Roots of the schema -/

variable {f}

theorem RootNames.ofDocument_rename (document : Document) :
    RootNames.ofDocument (document.rename f) = RootNames.ofDocument document := by
  rw [RootNames.ofDocument, RootNames.ofDocument, Document.rename, List.flatMap_map]
  congr 2
  funext d
  cases d <;> rfl

theorem completeSchema_rename (document : Document) :
    Assembly.completeSchema (document.rename f) = (Assembly.completeSchema document).rename f := by
  rw [completeSchema_eq, completeSchema_eq, RootNames.ofDocument_rename]
  simp only [Document.rename, Document.ofDefinitions, List.map_map]
  congr 2
  funext d
  cases d <;> rfl

end RecordApi
