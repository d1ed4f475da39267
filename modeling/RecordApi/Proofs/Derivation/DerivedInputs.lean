import Mathlib.Data.List.Nodup
import RecordApi.Proofs.Derivation.Sources

/-!
# Derived input types of a schema

The fragments of a schema hold the input types of the pairs that its root types reach, each once,
and each with the fields of its source. The derivation fails just if one of them would be empty.
-/

namespace RecordApi

open RecordApi.Language

/-- The input types among definitions. -/
def inputTypes (definitions : List Definition) : List TypeDef :=
  definitions.filterMap fun
    | .type d =>
      match d.body with
      | .input _ => some d
      | _ => none
    | _ => none

/-- The input types of fragments. -/
def fragmentInputs (fragments : List (List Definition)) : List TypeDef :=
  fragments.flatMap inputTypes

@[simp] theorem inputTypes_append (a b : List Definition) :
    inputTypes (a ++ b) = inputTypes a ++ inputTypes b :=
  List.filterMap_append

/-- The fields for the times that some fields lack. -/
def missingTimes (fields : List FieldDef) : List FieldDef :=
  (timestampFields.filter fun name => fields.all fun f => f.name != name).map
    fun name => Fragment.plainField name [] (.nonNull (.named "Float"))

theorem exists_time_of_mem_missingTimes {fields : List FieldDef} {f : FieldDef}
    (h : f ∈ missingTimes fields) :
    ∃ time ∈ timestampFields, time ∉ fields.map (·.name) ∧
      f = Fragment.plainField time [] (.nonNull (.named "Float")) := by
  obtain ⟨time, htime, rfl⟩ := List.mem_map.mp h
  obtain ⟨hmem, hall⟩ := List.mem_filter.mp htime
  exact ⟨time, hmem, by simpa using hall, rfl⟩

/-- A root type that is defined again is the object type with the times that it lacks. -/
theorem withTimestamps_eq_some {basis : Basis} {name : String} {d : TypeDef} :
    Fragment.withTimestamps basis name = some d ↔
      ∃ e interfaces fields, basis.type? name = some e ∧ e.body = .object interfaces fields ∧
        missingTimes fields ≠ [] ∧
        d = { e with body := .object interfaces (fields ++ missingTimes fields) } := by
  unfold Fragment.withTimestamps
  simp only [bind, Option.bind_eq_some_iff]
  constructor
  · rintro ⟨e, htype, hbody⟩
    split at hbody
    · next interfaces fields hobject =>
        split at hbody
        · simp at hbody
        · next hmissing =>
            refine ⟨e, interfaces, fields, htype, hobject, ?_, (Option.some.inj hbody).symm⟩
            simpa [missingTimes] using hmissing
    · simp at hbody
  · rintro ⟨e, interfaces, fields, htype, hobject, hmissing, rfl⟩
    refine ⟨e, htype, ?_⟩
    rw [hobject]
    dsimp only
    rw [if_neg (by simpa [missingTimes] using hmissing)]
    rfl

theorem inputTypes_augmented (basis : Basis) (name : String) :
    inputTypes (Fragment.augmented basis name) = [] := by
  unfold Fragment.augmented
  split
  · cases hd : Fragment.withTimestamps basis name with
    | none => rfl
    | some d =>
        obtain ⟨e, interfaces, fields, -, -, -, rfl⟩ := withTimestamps_eq_some.mp hd
        rfl
  · rfl

/-- The input types of a fragment are those in front of its other types. -/
theorem inputTypes_fragment (basis : Basis) (d : Descriptor) {types : List TypeDef}
    (h : ∀ t ∈ types, ∃ fields, t.body = .input fields) :
    inputTypes ((types ++ Fragment.outputTypes basis d).map .type ++
      Fragment.augmented basis d.typeName) = types := by
  have htypes : inputTypes (types.map .type) = types := by
    induction types with
    | nil => rfl
    | cons t rest ih =>
        obtain ⟨⟨fields, hbody⟩, hrest⟩ := List.forall_mem_cons.mp h
        obtain ⟨description, name, directives, body⟩ := t
        obtain rfl : body = .input fields := hbody
        exact congrArg (_ :: ·) (ih hrest)
  have houtput : inputTypes ((Fragment.outputTypes basis d).map .type) = [] := rfl
  rw [List.map_append, inputTypes_append, inputTypes_append, htypes, houtput, inputTypes_augmented,
    List.append_nil, List.append_nil]

theorem inputTypes_ofPairs (basis : Basis) (d : Descriptor) (added : List InputPair) :
    inputTypes (Fragment.ofPairs basis d added) = added.map basis.inputOf :=
  inputTypes_fragment basis d (List.forall_mem_map.mpr fun _ _ => ⟨_, rfl⟩)

theorem fragmentInputs_ofPairs (basis : Basis) {ds : List Descriptor}
    {parts : List (List InputPair)} (h : parts.length = ds.length) :
    fragmentInputs (List.zipWith (Fragment.ofPairs basis) ds parts) =
      parts.flatten.map basis.inputOf := by
  induction ds generalizing parts with
  | nil => simp [List.length_eq_zero_iff.mp h, fragmentInputs]
  | cons d rest ih =>
      cases parts with
      | nil => simp at h
      | cons added more =>
          have hmore := ih (Nat.succ.inj h)
          rw [fragmentInputs] at hmore ⊢
          rw [List.zipWith_cons_cons, List.flatMap_cons, hmore, inputTypes_ofPairs,
            List.flatten_cons, List.map_append]

/-- The definitions of a fragment are types. -/
theorem eq_type_of_mem_ofPairs {basis : Basis} {d : Descriptor} {added : List InputPair}
    {definition : Definition} (h : definition ∈ Fragment.ofPairs basis d added) :
    ∃ t, definition = .type t := by
  rcases List.mem_append.mp h with h | h
  · obtain ⟨t, -, rfl⟩ := List.mem_map.mp h
    exact ⟨t, rfl⟩
  · unfold Fragment.augmented at h
    split at h
    · obtain ⟨t, -, rfl⟩ := List.mem_map.mp h
      exact ⟨t, rfl⟩
    · simp at h

section Fragments

variable {s : Sources} {descriptors : List Descriptor}
  (hdistinct : (s.working.types.map (·.name)).Nodup)
  (hroots : s.roots.eraseDups.mapM (Assembly.describeRoot s.working s.options.selector) =
    .ok descriptors)
  (hwritten : s.working.Written)
  (hns : s.options.ns.toList.all isNameContinue)

include hdistinct hroots hwritten hns

omit hdistinct in
/-- The fragments of a schema are made of added pairs, or they cannot be derived. -/
theorem fragments_spec :
    match Assembly.fragments (Assembly.rootBasis s.working s.options descriptors) descriptors with
    | .ok generated => (∀ name ∈ s.roots, isName (Naming.lowerCamel name).toList) ∧
        ∃ parts : List (List InputPair), parts.length = descriptors.length ∧
          generated = List.zipWith
            (Fragment.ofPairs (Assembly.rootBasis s.working s.options descriptors)) descriptors
            parts ∧
          Stages (Assembly.rootBasis s.working s.options descriptors) []
            (pairsOf (descriptors.map (·.typeName))) parts.flatten
    | .error failure =>
        Stuck (Assembly.rootBasis s.working s.options descriptors) (Fragment.OfRoots descriptors)
          failure ∨
        (∃ fault, failure = .misread fault) ∧
          ((∀ name ∈ s.roots, isName (Naming.lowerCamel name).toList) →
            s.options.reading.mostTokens ≠ none) := by
  have hplain := plain_rootBasis hroots hwritten hns
  have hds : ∀ d ∈ descriptors, d.Plain ∧
      (Assembly.rootBasis s.working s.options descriptors).descriptors.lookup d.typeName =
        some d := fun d hd =>
    ⟨plain_descriptors hroots hwritten hd, (lookup_descriptors hroots).mpr ⟨hd, rfl⟩⟩
  have hnames : (∀ name ∈ s.roots, isName (Naming.lowerCamel name).toList) ↔
      ∀ d ∈ descriptors, isName (Naming.lowerCamel d.typeName).toList := by
    simp [mem_roots hroots]
  have hspec := Fragment.generateEach_spec hplain hds []
  rwa [← hnames] at hspec

omit hdistinct in
theorem eq_type_of_mem_fragments {generated : List (List Definition)}
    (h : Assembly.fragments (Assembly.rootBasis s.working s.options descriptors) descriptors =
      .ok generated) :
    ∀ part ∈ generated, ∀ definition ∈ part, ∃ t, definition = .type t := by
  have hspec := fragments_spec hroots hwritten hns
  rw [h] at hspec
  obtain ⟨-, parts, -, rfl, -⟩ := hspec
  intro part hpart definition hdefinition
  rw [← List.map_uncurry_zip_eq_zipWith] at hpart
  obtain ⟨⟨d, added⟩, -, rfl⟩ := List.mem_map.mp hpart
  exact eq_type_of_mem_ofPairs hdefinition

omit hwritten hns in
theorem isSome_of_reaches_roots {p : InputPair}
    (h : (Assembly.rootBasis s.working s.options descriptors).Reaches
      (Fragment.OfRoots descriptors) p) : (s.fields? p.typeName).isSome := by
  have hstarts : ∀ q, Fragment.OfRoots descriptors q →
      ((Assembly.rootBasis s.working s.options descriptors).nestedFields? q.typeName).isSome := by
    rintro q ⟨d, hd, hq⟩
    have hlookup : (Assembly.rootBasis s.working s.options descriptors).descriptors.lookup
        d.typeName = some d := (lookup_descriptors hroots).mpr ⟨hd, rfl⟩
    rw [show q.typeName = d.typeName from hq, Fragment.nestedFields?_of_lookup hlookup]
    rfl
  have hsome := Basis.nestedFields?_isSome_of_reaches hstarts h
  rwa [nestedFields?_rootBasis hdistinct hroots, Option.isSome_map] at hsome

omit hwritten hns in
/-- Reachable pairs are of declared types. -/
theorem mem_types_of_reachable {p : InputPair} (h : s.Reachable p) :
    p.typeName ∈ s.working.types.map (·.name) := by
  have hsome := isSome_of_reaches_roots hdistinct hroots
    ((reaches_rootBasis hdistinct hroots).mpr h)
  rw [Sources.fields?, Option.isSome_map] at hsome
  obtain ⟨fields, hfields⟩ := Option.isSome_iff_exists.mp hsome
  obtain ⟨d, hnamed, -⟩ := Option.bind_eq_some_iff.mp hfields
  obtain ⟨hd, hname⟩ := (typeNamed?_eq_some hdistinct).mp hnamed
  exact hname ▸ List.mem_map_of_mem hd

omit hwritten hns in
/-- Input names tell the reachable pairs apart if they tell those of all declared types apart. -/
theorem eq_of_inputName
    (hnodup : ((pairsOf (s.working.types.map (·.name))).map (·.inputName)).Nodup)
    (p q : InputPair) (hp : s.Reachable p) (hq : s.Reachable q) (h : p.inputName = q.inputName) :
    p = q := by
  apply List.inj_on_of_nodup_map hnodup
  · exact mem_pairsOf.mpr (mem_types_of_reachable hdistinct hroots hp)
  · exact mem_pairsOf.mpr (mem_types_of_reachable hdistinct hroots hq)
  · exact h

/-- A derived input type is that of a reachable pair, with the fields of its source. -/
theorem fragmentInputs_sound {generated : List (List Definition)}
    (h : Assembly.fragments (Assembly.rootBasis s.working s.options descriptors) descriptors =
      .ok generated) {d : TypeDef} (hd : d ∈ fragmentInputs generated) :
    ∃ p fields, s.Reachable p ∧ p.inputName ∉ declaredNames s.working ∧
      s.fields? p.typeName = some fields ∧ d = s.inputType p fields := by
  have hspec := fragments_spec hroots hwritten hns
  rw [h] at hspec
  obtain ⟨-, parts, hlength, rfl, hstages⟩ := hspec
  have hgrown := Fragment.grown_of_stages hstages
  rw [fragmentInputs_ofPairs _ hlength] at hd
  obtain ⟨p, hp, rfl⟩ := List.mem_map.mp hd
  have hreached := (hgrown.reached p hp).reaches
  obtain ⟨fields, hfields⟩ :=
    Option.isSome_iff_exists.mp (isSome_of_reaches_roots hdistinct hroots hreached)
  exact ⟨p, fields, (reaches_rootBasis hdistinct hroots).mp hreached, (hgrown.fresh p hp).2.2,
    hfields, inputOf_rootBasis hdistinct hroots hfields⟩

/-- The fragments can be derived where every pair that is met has a field with an input type. -/
theorem fragments_of_fed (hlimit : s.options.reading.mostTokens = none)
    (hfields : ∀ name ∈ s.roots, isName (Naming.lowerCamel name).toList)
    (hfed : ∀ p, s.Reachable p → ¬ s.Starved p) :
    ∃ generated,
      Assembly.fragments (Assembly.rootBasis s.working s.options descriptors) descriptors =
        .ok generated := by
  have hspec := fragments_spec hroots hwritten hns
  cases hrun : Assembly.fragments (Assembly.rootBasis s.working s.options descriptors)
      descriptors with
  | error failure =>
      rw [hrun] at hspec
      rcases hspec with ⟨p, hp, -, hstarved, rfl⟩ | ⟨-, hlimited⟩
      · have hsome := isSome_of_reaches_roots hdistinct hroots hp
        exact absurd ((starved_rootBasis hdistinct hroots hsome).mp hstarved)
          (hfed p ((reaches_rootBasis hdistinct hroots).mp hp))
      · exact absurd hlimit (hlimited hfields)
  | ok generated => exact ⟨generated, rfl⟩

/-- The outcome of all derivations where input names tell the reachable pairs apart. -/
theorem fragments_outcome (hlimit : s.options.reading.mostTokens = none)
    (hfields : ∀ name ∈ s.roots, isName (Naming.lowerCamel name).toList)
    (hnames : ∀ p q, s.Reachable p → s.Reachable q → p.inputName = q.inputName → p = q) :
    match Assembly.fragments (Assembly.rootBasis s.working s.options descriptors) descriptors with
    | .ok generated =>
        (∀ p, s.Reachable p → p.inputName ∉ declaredNames s.working → ¬ s.Starved p) ∧
        ((fragmentInputs generated).map (·.name)).Nodup ∧
        ∀ d, d ∈ fragmentInputs generated ↔ ∃ p fields, s.Reachable p ∧
          p.inputName ∉ declaredNames s.working ∧ s.fields? p.typeName = some fields ∧
          d = s.inputType p fields
    | .error failure => ∃ p, s.Reachable p ∧ p.inputName ∉ declaredNames s.working ∧
        s.Starved p ∧ failure = .emptyInput p.inputName p.typeName := by
  have hspec := fragments_spec hroots hwritten hns
  cases hrun : Assembly.fragments (Assembly.rootBasis s.working s.options descriptors)
      descriptors with
  | error failure =>
      rw [hrun] at hspec
      rcases hspec with ⟨p, hp, hdeclared, hstarved, rfl⟩ | ⟨-, hlimited⟩
      · have hsome := isSome_of_reaches_roots hdistinct hroots hp
        exact ⟨p, (reaches_rootBasis hdistinct hroots).mp hp, hdeclared,
          (starved_rootBasis hdistinct hroots hsome).mp hstarved, rfl⟩
      · exact absurd hlimit (hlimited hfields)
  | ok generated =>
      rw [hrun] at hspec
      obtain ⟨-, parts, hlength, hparts, hstages⟩ := hspec
      have hgrown := Fragment.grown_of_stages hstages
      have hinputs := hparts ▸ fragmentInputs_ofPairs _ hlength
      have hadded (p : InputPair) (hp : s.Reachable p)
          (hdeclared : p.inputName ∉ declaredNames s.working) : p ∈ parts.flatten := by
        simp only [← reaches_rootBasis hdistinct hroots] at hnames hp
        exact hgrown.mem_added hnames hp hdeclared
      refine ⟨fun p hp hdeclared hstarved => ?_, ?_, fun d => ⟨fun hd => ?_, ?_⟩⟩
      · have hsome := isSome_of_reaches_roots hdistinct hroots
          ((reaches_rootBasis hdistinct hroots).mpr hp)
        exact hgrown.fed p (hadded p hp hdeclared)
          ((starved_rootBasis hdistinct hroots hsome).mpr hstarved)
      · have hdistinct' := hgrown.distinct
        rw [hinputs, List.map_map]
        exact hdistinct'
      · exact fragmentInputs_sound hdistinct hroots hwritten hns hrun hd
      · rintro ⟨p, fields, hp, hdeclared, hsource, rfl⟩
        rw [hinputs, ← inputOf_rootBasis hdistinct hroots hsource]
        exact List.mem_map_of_mem (hadded p hp hdeclared)

omit hdistinct hroots hwritten hns in
theorem fields?_withRoots {roots : List String} (hsame : ∀ name, name ∈ roots ↔ name ∈ s.roots)
    (name : String) : (s.withRoots roots).fields? name = s.fields? name := by
  simp only [Sources.fields?, Sources.withRoots, hsame]
  rfl

omit hdistinct hroots hwritten hns in
theorem reachable_withRoots {roots : List String} (hsame : ∀ name, name ∈ roots ↔ name ∈ s.roots)
    {p : InputPair} : (s.withRoots roots).Reachable p ↔ s.Reachable p := by
  constructor
  · intro h
    induction h with
    | root mode hname => exact .root mode ((hsame _).mp hname)
    | field _ hdeclared hfields hf hsome ih =>
        rw [fields?_withRoots hsame] at hfields
        exact .field ih hdeclared hfields hf hsome
  · intro h
    induction h with
    | root mode hname => exact .root mode ((hsame _).mpr hname)
    | field _ hdeclared hfields hf hsome ih =>
        rw [← fields?_withRoots hsame] at hfields
        exact .field ih hdeclared hfields hf hsome

omit hdistinct hroots hwritten hns in
theorem starved_withRoots {roots : List String} (hsame : ∀ name, name ∈ roots ↔ name ∈ s.roots)
    {p : InputPair} : (s.withRoots roots).Starved p ↔ s.Starved p := by
  simp only [Sources.Starved, fields?_withRoots hsame]
  rfl

/-- The input types of a schema are those of the undeclared pairs that its root types reach, each
once, in whatever order and however often the root types are given. The derivation fails just if
one of these pairs has fields of unions only. -/
theorem derivedInputs_exact (hlimit : s.options.reading.mostTokens = none)
    (hfields : ∀ name ∈ s.roots, isName (Naming.lowerCamel name).toList)
    (hnames : ∀ p q, s.Reachable p → s.Reachable q → p.inputName = q.inputName → p = q) :
    (∀ generated,
      Assembly.fragments (Assembly.rootBasis s.working s.options descriptors) descriptors =
        .ok generated →
      ((fragmentInputs generated).map (·.name)).Nodup ∧
      ∀ d, d ∈ fragmentInputs generated ↔ ∃ p fields, s.Reachable p ∧
        p.inputName ∉ declaredNames s.working ∧ s.fields? p.typeName = some fields ∧
        d = s.inputType p fields) ∧
    ((∃ failure,
      Assembly.fragments (Assembly.rootBasis s.working s.options descriptors) descriptors =
        .error failure) ↔
      ∃ p, s.Reachable p ∧ p.inputName ∉ declaredNames s.working ∧ s.Starved p) ∧
    (∀ failure,
      Assembly.fragments (Assembly.rootBasis s.working s.options descriptors) descriptors =
        .error failure →
      ∃ p, s.Reachable p ∧ p.inputName ∉ declaredNames s.working ∧ s.Starved p ∧
        failure = .emptyInput p.inputName p.typeName) ∧
    ∀ (roots : List String) (others : List Descriptor), (∀ name, name ∈ roots ↔ name ∈ s.roots) →
      roots.eraseDups.mapM (Assembly.describeRoot s.working s.options.selector) = .ok others →
      ∀ generated,
        Assembly.fragments (Assembly.rootBasis s.working s.options descriptors) descriptors =
          .ok generated →
        ∃ regenerated,
          Assembly.fragments (Assembly.rootBasis s.working s.options others) others =
            .ok regenerated ∧
          (fragmentInputs regenerated).Perm (fragmentInputs generated) := by
  have houtcome := fragments_outcome hdistinct hroots hwritten hns hlimit hfields hnames
  refine ⟨fun generated hrun => ?_, ⟨?_, ?_⟩, fun failure hrun => ?_,
    fun roots others hsame hothers generated hrun => ?_⟩
  · rw [hrun] at houtcome
    exact houtcome.2
  · rintro ⟨failure, hrun⟩
    rw [hrun] at houtcome
    obtain ⟨p, hp, hdeclared, hstarved, -⟩ := houtcome
    exact ⟨p, hp, hdeclared, hstarved⟩
  · rintro ⟨p, hp, hdeclared, hstarved⟩
    cases hrun : Assembly.fragments (Assembly.rootBasis s.working s.options descriptors)
        descriptors with
    | error failure => exact ⟨failure, rfl⟩
    | ok generated =>
        rw [hrun] at houtcome
        exact absurd hstarved (houtcome.1 p hp hdeclared)
  · rw [hrun] at houtcome
    exact houtcome
  · rw [hrun] at houtcome
    obtain ⟨hfed, hdistinctInputs, hmem⟩ := houtcome
    have hother := fragments_outcome (s := s.withRoots roots) hdistinct hothers hwritten hns hlimit
      (fun name hname => hfields name ((hsame name).mp hname))
      (fun p q hp hq =>
        hnames p q ((reachable_withRoots hsame).mp hp) ((reachable_withRoots hsame).mp hq))
    simp only [reachable_withRoots hsame, starved_withRoots hsame, fields?_withRoots hsame]
      at hother
    change match Assembly.fragments (Assembly.rootBasis s.working s.options others) others with
      | .ok _ => _
      | .error _ => _ at hother
    cases hrerun : Assembly.fragments (Assembly.rootBasis s.working s.options others) others with
    | error failure =>
        rw [hrerun] at hother
        obtain ⟨p, hp, hdeclared, hstarved, -⟩ := hother
        exact absurd hstarved (hfed p hp hdeclared)
    | ok regenerated =>
        rw [hrerun] at hother
        obtain ⟨-, hdistinctOthers, hmemOthers⟩ := hother
        refine ⟨regenerated, rfl, (List.perm_ext_iff_of_nodup (hdistinctOthers.of_map _)
          (hdistinctInputs.of_map _)).mpr fun d => ?_⟩
        exact (hmemOthers d).trans (hmem d).symm

end Fragments

/-- Orders and customers that lead to each other. -/
def orders : Sources where
  working := Document.ofDefinitions
    [ .type (Fragment.objectType "Order"
        [ Fragment.plainField "id" [] (.nonNull (.named "ID")),
          Fragment.plainField "customer" [] (.nonNull (.named "Customer")) ]),
      .type (Fragment.objectType "Customer"
        [Fragment.plainField "orders" [] (Fragment.listOf "Order")]) ]
  options := {}
  roots := ["Order"]

def orderDescriptor : Descriptor :=
  { typeName := "Order"
    idName := "id"
    idType := .nonNull (.named (.scalar "ID"))
    fields := [⟨"customer", .nonNull (.named (.object "Customer"))⟩] }

theorem orders_described : orders.roots.eraseDups.mapM
    (Assembly.describeRoot orders.working orders.options.selector) = .ok [orderDescriptor] := rfl

theorem orders_named : ∀ p q, orders.Reachable p → orders.Reachable q →
    p.inputName = q.inputName → p = q :=
  eq_of_inputName (by decide) orders_described (by decide)

theorem not_starved_orders {p : InputPair} (hp : orders.Reachable p) : ¬ orders.Starved p := by
  rintro ⟨fields, hfields, hunions⟩
  obtain ⟨typeName, mode⟩ := p
  have hdeclared : typeName = "Order" ∨ typeName = "Customer" := by
    simpa [orders, Document.ofDefinitions, Document.types, Fragment.objectType] using
      mem_types_of_reachable (by decide) orders_described hp
  rcases hdeclared with rfl | rfl
  · obtain rfl : [_] = fields := Option.some.inj hfields
    exact absurd (hunions _ List.mem_cons_self) (by decide)
  · obtain rfl : [_] = fields := Option.some.inj hfields
    exact absurd (hunions _ List.mem_cons_self) (by decide)

theorem fragments_orders : ∃ generated, Assembly.fragments
    (Assembly.rootBasis orders.working orders.options [orderDescriptor]) [orderDescriptor] =
      .ok generated :=
  fragments_of_fed (by decide) orders_described (by decide) (by decide) rfl (by decide)
    fun _ hp => not_starved_orders hp

theorem derivedInputs_exact_orders :
    (orders.working.types.map (·.name)).Nodup ∧
    orders.roots.eraseDups.mapM
      (Assembly.describeRoot orders.working orders.options.selector) = .ok [orderDescriptor] ∧
    orders.working.Written ∧ orders.options.ns.toList.all isNameContinue ∧
    orders.options.reading.mostTokens = none ∧
    (∀ name ∈ orders.roots, isName (Naming.lowerCamel name).toList) ∧
    (∀ p q, orders.Reachable p → orders.Reachable q → p.inputName = q.inputName → p = q) ∧
    ∃ generated,
      Assembly.fragments (Assembly.rootBasis orders.working orders.options [orderDescriptor])
        [orderDescriptor] = .ok generated ∧
      ((fragmentInputs generated).map (·.name)).Nodup ∧
      orders.inputType ⟨"Customer", .update⟩
        [Fragment.plainField "orders" [] (Fragment.listOf "Order")] ∈ fragmentInputs generated := by
  have hdistinct : (orders.working.types.map (·.name)).Nodup := by decide
  have hwritten : orders.working.Written := by decide
  have hfields : ∀ name ∈ orders.roots, isName (Naming.lowerCamel name).toList := by decide
  have hexact := derivedInputs_exact hdistinct orders_described hwritten (by decide) rfl hfields
    orders_named
  obtain ⟨generated, hgenerated⟩ := fragments_orders
  obtain ⟨hdistinctInputs, hmem⟩ := hexact.1 generated hgenerated
  have horder : orders.Reachable ⟨"Order", .update⟩ := .root .update (by decide)
  have hcustomer : orders.Reachable ⟨"Customer", .update⟩ :=
    .field (f := Fragment.plainField "customer" [] (.nonNull (.named "Customer"))) horder
      (by decide) rfl List.mem_cons_self (by decide)
  exact ⟨hdistinct, orders_described, hwritten, by decide, rfl, hfields, orders_named, generated,
    hgenerated, hdistinctInputs, (hmem _).mpr ⟨_, _, hcustomer, by decide, rfl, rfl⟩⟩

/-! ## A namespace that is no part of a name -/

/-- Records with a sign in the names of their pages. -/
def unnamedPages : Sources where
  working := Document.ofDefinitions
    [ .type (Fragment.objectType "T"
        [ Fragment.plainField "id" [] (.nonNull (.named "ID")),
          Fragment.plainField "name" [] (.named "String") ]) ]
  options := { ns := "my-app" }
  roots := ["T"]

def unnamedDescriptor : Descriptor :=
  { typeName := "T"
    idName := "id"
    idType := .nonNull (.named (.scalar "ID"))
    fields := [⟨"name", .named (.scalar "String")⟩] }

def unnamedBasis : Basis :=
  Assembly.rootBasis unnamedPages.working unnamedPages.options [unnamedDescriptor]

/-- The types in front of the pages. -/
def unnamedInputs : List TypeDef :=
  [InputMode.create, InputMode.update].map fun mode =>
    unnamedPages.inputType ⟨"T", mode⟩ [Fragment.plainField "name" [] (.named "String")]

/-- What can be read of the pages. -/
def unnamedFront : List Char :=
  "type TConnection \x7b\n  edges: [TEdge!]!\n  pageInfo: DataSourcePageInfomy".toList

def unnamedLexemes : List Lexeme :=
  [ .name "type", .name "TConnection", .mark .braceOpen, .name "edges", .mark .colon,
    .mark .bracketOpen, .name "TEdge", .mark .bang, .mark .bracketClose, .mark .bang,
    .name "pageInfo", .mark .colon, .name "DataSourcePageInfomy" ]

theorem spells_unnamedFront : Spells unnamedFront unnamedLexemes := by
  have hfront : unnamedFront =
      "type".toList ++ ' ' :: ("TConnection".toList ++ ' ' :: '\x7b' :: '\n' :: ' ' :: ' ' ::
        ("edges".toList ++ ':' :: ' ' :: '[' ::
          ("TEdge".toList ++ '!' :: ']' :: '!' :: '\n' :: ' ' :: ' ' ::
            ("pageInfo".toList ++ ':' :: ' ' :: ("DataSourcePageInfomy".toList ++ []))))) := by
    decide
  have hbreak {cs : List Char} {lexemes : List Lexeme} (h : Spells cs lexemes) :
      Spells ('\n' :: ' ' :: ' ' :: cs) lexemes :=
    .skip (by decide) (.skip (by decide) (.skip (by decide) h))
  rw [hfront]
  refine spells_name (by decide) (by decide) (.skip (by decide) ?_)
  refine spells_name (by decide) (by decide) (.skip (by decide) (.mark rfl (hbreak ?_)))
  refine spells_name (by decide) (by decide) (.mark rfl (.skip (by decide) (.mark rfl ?_)))
  refine spells_name (by decide) (by decide) (.mark rfl (.mark rfl (.mark rfl (hbreak ?_))))
  refine spells_name (by decide) (by decide) (.mark rfl (.skip (by decide) ?_))
  exact spells_name (by decide) (by decide) .nil

theorem bare_unnamed : ∀ d ∈ unnamedInputs ++ [Fragment.edgeType "T"], d.Bare := by
  have hinput (mode : InputMode) : (unnamedPages.inputType ⟨"T", mode⟩
      [Fragment.plainField "name" [] (.named "String")]).Bare := by
    refine ⟨rfl, by cases mode <;> decide, rfl, .inr ⟨_, rfl, ?_⟩⟩
    intro d hd
    obtain rfl : d = _ := List.mem_singleton.mp hd
    exact ⟨by simp [Sources.inputField], by cases mode <;> decide, by cases mode <;> decide, rfl,
      rfl⟩
  intro d hd
  simp only [unnamedInputs, List.map_cons, List.map_nil, List.cons_append, List.nil_append,
    List.mem_cons, List.not_mem_nil, or_false] at hd
  rcases hd with rfl | rfl | rfl
  · exact hinput .create
  · exact hinput .update
  · exact Fragment.bare_edgeType (by decide)

theorem reread_unnamed (more : List TypeDef) :
    ∃ fault, Fragment.reread {} (unnamedInputs ++ [Fragment.edgeType "T"] ++
      Fragment.connectionType "my-app" "T" :: more) = .error (.misread fault) := by
  have htext : (Fragment.connectionType "my-app" "T").printBare.toList =
      unnamedFront ++ '-' :: "app!\n\x7d".toList := by
    decide +kernel
  have hrun (fault : Misreading) : Reader.run {}
      ⟨((unnamedInputs ++ [Fragment.edgeType "T"]).flatMap TypeDef.lexemes ++ unnamedLexemes).map
        (⟨·, Pos.nowhere⟩), some fault⟩ Reader.definitions = .error fault := rfl
  obtain ⟨front, rest, hprint, hspells⟩ :=
    spells_print_front bare_unnamed rfl spells_unnamedFront htext (by simp) more
  obtain ⟨pos, hread⟩ :=
    readDocument_faulty hprint hspells (by simp; decide) (by decide) (by decide) rfl {}
  rw [Fragment.reread, hread, hrun]
  exact ⟨_, rfl⟩

theorem fragments_unnamed :
    ∃ fault, Assembly.fragments unnamedBasis [unnamedDescriptor] = .error (.misread fault) := by
  have hinputs : (Fragment.inputs unnamedBasis unnamedDescriptor).run ⟨[], []⟩ =
      (.ok (), ⟨["TInput", "TUpdateInput"], unnamedInputs⟩) := rfl
  obtain ⟨fault, hreread⟩ := reread_unnamed
    (Fragment.queryType unnamedPages.options unnamedDescriptor ::
      Fragment.mutationType unnamedDescriptor :: Fragment.entryPoints ⟨"Query", "Mutation"⟩ "T")
  have htypes : Fragment.reread unnamedBasis.options.reading
      (unnamedInputs ++ Fragment.outputTypes unnamedBasis unnamedDescriptor) =
        .error (.misread fault) := hreread
  have hgenerate : Fragment.generate unnamedBasis unnamedDescriptor [] =
      (.error (.misread fault), ["TInput", "TUpdateInput"]) := by
    simp only [Fragment.generate, hinputs, htypes]
    rfl
  refine ⟨fault, ?_⟩
  rw [Assembly.fragments, Fragment.generateEach, hgenerate]
  rfl

/-- Where the namespace is no part of a name, the text of the pages cannot be read, and there are no
input types although no pair lacks fields. -/
theorem derivedInputs_unnamed :
    (unnamedPages.working.types.map (·.name)).Nodup ∧
    unnamedPages.roots.eraseDups.mapM
      (Assembly.describeRoot unnamedPages.working unnamedPages.options.selector) =
        .ok [unnamedDescriptor] ∧
    unnamedPages.working.Written ∧ unnamedPages.options.reading.mostTokens = none ∧
    (∀ name ∈ unnamedPages.roots, isName (Naming.lowerCamel name).toList) ∧
    (∀ p q, unnamedPages.Reachable p → unnamedPages.Reachable q →
      p.inputName = q.inputName → p = q) ∧
    (¬ ∃ p, unnamedPages.Reachable p ∧ p.inputName ∉ declaredNames unnamedPages.working ∧
      unnamedPages.Starved p) ∧
    ∃ fault,
      Assembly.fragments
        (Assembly.rootBasis unnamedPages.working unnamedPages.options [unnamedDescriptor])
        [unnamedDescriptor] = .error (.misread fault) := by
  have hdistinct : (unnamedPages.working.types.map (·.name)).Nodup := by decide
  have hroots : unnamedPages.roots.eraseDups.mapM (Assembly.describeRoot unnamedPages.working
      unnamedPages.options.selector) = .ok [unnamedDescriptor] := rfl
  refine ⟨hdistinct, hroots, by decide, rfl,
    by decide, eq_of_inputName hdistinct hroots (by decide), ?_, fragments_unnamed⟩
  rintro ⟨⟨typeName, mode⟩, hp, -, fields, hfields, hunions⟩
  obtain rfl : typeName = "T" := by
    simpa [unnamedPages, Document.ofDefinitions, Document.types, Fragment.objectType] using
      mem_types_of_reachable hdistinct hroots hp
  obtain rfl : [_] = fields := Option.some.inj hfields
  exact absurd (hunions _ List.mem_cons_self) (by decide)

end RecordApi
