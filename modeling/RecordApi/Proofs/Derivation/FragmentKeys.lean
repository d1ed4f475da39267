import RecordApi.Proofs.Derivation.Mentions
import RecordApi.Proofs.MergeOverlays

/-!
# What fragments hold under a key

The definitions of one key are picked from the fragments of all root types in their order. Under the
key of one of the consumer's definitions there are no input types; what is left are the types of
pages, the entry points of the schema's roots, and root types that have been given times.
-/

namespace RecordApi

open RecordApi.Language

/-! ## Names of pages -/

/-- What the types of a root type's pages are called. -/
def pageNames (typeName : String) : List String :=
  ["Edge", "Connection", "Query", "Mutation"].map (typeName ++ ·)

theorem names_pageTypes (options : Options) (d : Descriptor) :
    (Fragment.pageTypes options d).map (·.name) = pageNames d.typeName := rfl

theorem mem_pageNames {options : Options} {d : Descriptor} {page : TypeDef}
    (h : page ∈ Fragment.pageTypes options d) : page.name ∈ pageNames d.typeName :=
  names_pageTypes options d ▸ List.mem_map_of_mem h

/-- The types of different root types' pages are called differently. -/
theorem eq_of_mem_pageNames {x y name : String} (hx : name ∈ pageNames x)
    (hy : name ∈ pageNames y) : x = y := by
  have hapart : ∀ a ∈ ["Edge", "Connection", "Query", "Mutation"],
      ∀ b ∈ ["Edge", "Connection", "Query", "Mutation"], a ≠ b → ¬ a.toList <:+ b.toList := by
    decide
  obtain ⟨a, ha, rfl⟩ := List.mem_map.mp hx
  obtain ⟨b, hb, hsame⟩ := List.mem_map.mp hy
  by_cases hab : a = b
  · subst hab
    exact ((String.append_left_inj _).mp hsame).symm
  · exact absurd hsame
      (append_ne_append (hapart b hb a ha (Ne.symm hab)) (hapart a ha b hb hab) y x)

theorem nodup_pageNames (typeName : String) : (pageNames typeName).Nodup := by
  refine List.Nodup.map (fun a b h => ?_) (by decide)
  exact (String.append_right_inj _).mp h

theorem inputName_not_mem_pageNames (mode : InputMode) (name typeName : String) :
    mode.inputName name ∉ pageNames typeName := by
  intro h
  obtain ⟨suffix, hsuffix, hsame⟩ := List.mem_map.mp h
  have hends : ∀ suffix ∈ ["Edge", "Connection", "Query", "Mutation"],
      ¬ "Input".toList <:+ suffix.toList ∧ ¬ suffix.toList <:+ "Input".toList := by
    decide
  obtain ⟨hinput, hother⟩ := hends suffix hsuffix
  exact inputName_ne_append hinput hother mode name typeName hsame.symm

theorem schemaKey_not_mem_pageNames (typeName : String) :
    Merge.schemaKey ∉ pageNames typeName := by
  intro h
  obtain ⟨suffix, hsuffix, hsame⟩ := List.mem_map.mp h
  have hends : ∀ suffix ∈ ["Edge", "Connection", "Query", "Mutation"],
      ¬ suffix.toList <:+ Merge.schemaKey.toList := by
    decide
  exact append_ne (hends suffix hsuffix) typeName hsame

/-! ## One fragment -/

namespace Fragment

/-- The definitions of a fragment behind its input types. -/
def outputs (basis : Basis) (d : Descriptor) : List Definition :=
  (outputTypes basis d).map .type ++ augmented basis d.typeName

/-- A definition behind the input types is that of a page, an entry point, or the root type with the
times that it lacks. -/
theorem mem_outputs_of_key {basis : Basis} {d : Descriptor} {e : Definition} {key : String}
    (he : e ∈ outputs basis d) (hkey : Merge.key? e = some key) :
    (∃ page ∈ pageTypes basis.options d, page.name = key ∧ e = .type page) ∨
      (basis.roots.Includes key ∧ e ∈ (entryPoints basis.roots d.typeName).map .type) ∨
      d.typeName = key ∧ ∃ t, basis.options.timestamps ∧
        withTimestamps basis d.typeName = some t ∧ e = .type t := by
  rcases List.mem_append.mp he with he | he
  · rw [outputTypes_eq, List.map_append, List.mem_append] at he
    rcases he with he | he
    · obtain ⟨page, hpage, rfl⟩ := List.mem_map.mp he
      exact .inl ⟨page, hpage, Option.some.inj hkey, rfl⟩
    · refine .inr (.inl ⟨?_, he⟩)
      obtain ⟨t, ht, rfl⟩ := List.mem_map.mp he
      obtain rfl : t.name = key := Option.some.inj hkey
      simp only [entryPoints, List.mem_cons, List.not_mem_nil, or_false] at ht
      rcases ht with rfl | rfl
      · exact .inl rfl
      · exact .inr rfl
  · unfold augmented at he
    split at he
    · next htimes =>
        obtain ⟨t, ht, rfl⟩ := List.mem_map.mp he
        have htimed := Option.mem_toList.mp ht
        obtain ⟨e, interfaces, fields, htype, -, -, rfl⟩ := withTimestamps_eq_some.mp htimed
        have hname : e.name = d.typeName := by simpa using List.find?_some htype
        exact .inr (.inr ⟨hname.symm.trans (Option.some.inj hkey), _, htimes, htimed, rfl⟩)
    · simp at he

/-- A fragment has its root type only under the key of that type. -/
theorem keyed_outputs {basis : Basis} {d : Descriptor} {key : String} (h : d.typeName ≠ key) :
    Merge.keyed key (outputs basis d) = Merge.keyed key ((outputTypes basis d).map .type) := by
  have hnil : Merge.keyed key (augmented basis d.typeName) = [] := by
    rw [Merge.keyed_eq_nil]
    rintro ⟨e, he, hkey⟩
    unfold augmented at he
    split at he
    · obtain ⟨t, ht, rfl⟩ := List.mem_map.mp he
      obtain ⟨e, interfaces, fields, htype, -, -, rfl⟩ :=
        withTimestamps_eq_some.mp (Option.mem_toList.mp ht)
      have hname : e.name = d.typeName := by simpa using List.find?_some htype
      exact h (hname.symm.trans (Option.some.inj hkey))
    · simp at he
  rw [outputs, Merge.keyed_append, hnil, List.append_nil]

/-- The fields by which a root type is entered from a type that serves queries or mutations. -/
def entryFields (roots : RootNames) (name typeName : String) : List FieldDef :=
  let field := fun suffix =>
    plainField (Naming.lowerCamel typeName) [] (.named (typeName ++ suffix))
  (if name = roots.query then [field "Query"] else []) ++
    if name = roots.mutation then [field "Mutation"] else []

theorem keyed_entryPoints (roots : RootNames) (key typeName : String) :
    Merge.keyed key ((entryPoints roots typeName).map .type) =
      (entryFields roots key typeName).map fun f => .type (objectType key [f]) := by
  rw [Merge.keyed, entryPoints, entryFields]
  by_cases hquery : key = roots.query <;> by_cases hmutation : key = roots.mutation
  · simp [Merge.key?, Definition.name?, objectType, ← hquery, ← hmutation]
  · simp [Merge.key?, Definition.name?, objectType, ← hquery, Ne.symm hmutation, hmutation]
  · simp [Merge.key?, Definition.name?, objectType, Ne.symm hquery, ← hmutation, hquery]
  · simp [Merge.key?, Definition.name?, objectType, Ne.symm hquery, Ne.symm hmutation, hquery,
      hmutation]

/-- A fragment has an object type for each of its entry points under the key of a root of the
schema. -/
theorem keyed_outputs_of_role {basis : Basis} {d : Descriptor} {key : String}
    (hroot : d.typeName ≠ key) (hpage : key ∉ pageNames d.typeName) :
    Merge.keyed key (outputs basis d) =
      (entryFields basis.roots key d.typeName).map fun f => .type (objectType key [f]) := by
  have hpages : Merge.keyed key ((pageTypes basis.options d).map .type) = [] := by
    rw [Merge.keyed_eq_nil]
    rintro ⟨e, he, hkey⟩
    obtain ⟨page, hmem, rfl⟩ := List.mem_map.mp he
    exact hpage (Option.some.inj hkey ▸ mem_pageNames hmem)
  rw [keyed_outputs hroot, outputTypes_eq, List.map_append, Merge.keyed_append, hpages,
    List.nil_append, keyed_entryPoints]

end Fragment

/-! ## All fragments -/

/-- Where no input type has a key, the definitions of the key lie behind the input types. -/
theorem keyed_flatten_ofPairs {basis : Basis} {ds : List Descriptor}
    {parts : List (List InputPair)} (h : parts.length = ds.length) {key : String}
    (hinputs : ∀ p ∈ parts.flatten, p.inputName ≠ key) :
    Merge.keyed key (List.zipWith (Fragment.ofPairs basis) ds parts).flatten =
      ds.flatMap fun d => Merge.keyed key (Fragment.outputs basis d) := by
  induction ds generalizing parts with
  | nil => simp [List.length_eq_zero_iff.mp h, Merge.keyed]
  | cons d rest ih =>
      cases parts with
      | nil => simp at h
      | cons added more =>
          simp only [List.flatten_cons, List.mem_append, or_imp, forall_and] at hinputs
          obtain ⟨hadded, hmore⟩ := hinputs
          have hnil : Merge.keyed key ((added.map basis.inputOf).map .type) = [] := by
            rw [Merge.keyed_eq_nil]
            rintro ⟨e, he, hkey⟩
            simp only [List.map_map, List.mem_map, Function.comp_apply] at he
            obtain ⟨p, hp, rfl⟩ := he
            exact hadded p hp (Option.some.inj hkey)
          rw [List.zipWith_cons_cons, List.flatten_cons, Merge.keyed_append,
            ih (Nat.succ.inj h) hmore, Fragment.ofPairs, List.map_append, List.append_assoc,
            Merge.keyed_append, hnil, List.nil_append, List.flatMap_cons, Fragment.outputs]

section Fragments

variable {s : Sources} {descriptors : List Descriptor} {generated : List (List Definition)}
  (hroots : s.roots.eraseDups.mapM (Assembly.describeRoot s.working s.options.selector) =
    .ok descriptors)
  (hwritten : s.working.Written)
  (hns : s.options.ns.toList.all isNameContinue)
  (hgenerated : Assembly.fragments (Assembly.rootBasis s.working s.options descriptors)
    descriptors = .ok generated)

include hroots hwritten hns hgenerated

theorem keyed_generated {key : String} (hinputs : ∀ t ∈ fragmentInputs generated, t.name ≠ key) :
    Merge.keyed key generated.flatten = descriptors.flatMap fun d =>
      Merge.keyed key
        (Fragment.outputs (Assembly.rootBasis s.working s.options descriptors) d) := by
  obtain ⟨parts, hlength, rfl, -⟩ := exists_grown hroots hwritten hns hgenerated
  refine keyed_flatten_ofPairs hlength fun p hp => ?_
  refine hinputs ((Assembly.rootBasis s.working s.options descriptors).inputOf p) ?_
  rw [fragmentInputs_ofPairs _ hlength]
  exact List.mem_map_of_mem hp

theorem inputName_of_mem_fragmentInputs {t : TypeDef} (ht : t ∈ fragmentInputs generated) :
    ∃ p : InputPair, t.name = p.inputName ∧ p.inputName ∉ declaredNames s.working := by
  obtain ⟨parts, hlength, rfl, after, hgrown⟩ := exists_grown hroots hwritten hns hgenerated
  rw [fragmentInputs_ofPairs _ hlength] at ht
  obtain ⟨p, hp, rfl⟩ := List.mem_map.mp ht
  exact ⟨p, rfl, (hgrown.fresh p hp).2.2⟩

/-- No input type of the fragments has the key of one of the consumer's definitions. -/
theorem fragmentInputs_of_declared {d : Definition} (hd : d ∈ s.working.definitions) {key : String}
    (hkey : Merge.key? d = some key) : ∀ t ∈ fragmentInputs generated, t.name ≠ key := by
  intro t ht
  obtain ⟨p, hname, hfresh⟩ := inputName_of_mem_fragmentInputs hroots hwritten hns hgenerated ht
  rintro rfl
  by_cases hschema : t.name = Merge.schemaKey
  · exact inputName_ne_schemaKey p.mode p.typeName (hname.symm.trans hschema)
  · apply hfresh
    rw [← hname]
    exact List.mem_filterMap.mpr ⟨d, hd, Merge.name?_of_key? hkey hschema⟩

theorem eq_type_of_mem_flatten {e : Definition} (he : e ∈ generated.flatten) :
    ∃ t, e = .type t := by
  obtain ⟨part, hpart, he⟩ := List.mem_flatten.mp he
  exact eq_type_of_mem_fragments hroots hwritten hns hgenerated part hpart e he

end Fragments

end RecordApi
