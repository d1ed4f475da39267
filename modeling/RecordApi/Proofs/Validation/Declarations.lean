import RecordApi.Validation.Declaration

/-!
# Documents without reports

Several rules report nothing together just if each of them reports nothing, since each answers at
every visit. A rule that remembers names reports what it meets again, whatever it visits in between.
So in a document without reports, a kind of operation is given a root type in one place only.
-/

namespace RecordApi.Validation

open RecordApi.Language

namespace Rule

variable {σ μ : Type}

/-- Whether a rule answers at every visit. -/
def Total (rule : Rule σ) : Prop :=
  ∀ visits, (rule visits).length = visits.length

theorem total_looking (look : Visit σ → List Report) : Total (looking look) :=
  fun _ => List.length_map _

theorem total_remembering (step : Visit σ → μ → List Report × μ) (memory : μ) :
    Total (remembering step memory) := by
  intro visits
  induction visits generalizing memory with
  | nil => rfl
  | cons visit rest ih => simp [remembering, ih]

/-- The memory of a rule after some visits. -/
def memoryAfter (step : Visit σ → μ → List Report × μ) (memory : μ) (visits : List (Visit σ)) : μ :=
  visits.foldl (fun memory visit => (step visit memory).2) memory

theorem remembering_append (step : Visit σ → μ → List Report × μ) (memory : μ)
    (first second : List (Visit σ)) :
    remembering step memory (first ++ second) =
      remembering step memory first ++
        remembering step (memoryAfter step memory first) second := by
  induction first generalizing memory with
  | nil => rfl
  | cons visit rest ih => simp [remembering, memoryAfter, ih]

theorem remembering_cons (step : Visit σ → μ → List Report × μ) (memory : μ) (visit : Visit σ)
    (rest : List (Visit σ)) :
    remembering step memory (visit :: rest) =
      (step visit memory).1 :: remembering step (step visit memory).2 rest := rfl

/-! ## Several rules -/

theorem flatten_zipWith_append {α : Type} {first second : List (List α)}
    (h : first.length = second.length) :
    (List.zipWith (· ++ ·) first second).flatten = [] ↔
      first.flatten = [] ∧ second.flatten = [] := by
  induction first generalizing second with
  | nil =>
      obtain rfl := List.length_eq_zero_iff.mp h.symm
      simp
  | cons x rest ih =>
      cases second with
      | nil => simp at h
      | cons y more =>
          rw [List.zipWith_cons_cons, List.flatten_cons, List.flatten_cons, List.flatten_cons,
            List.append_eq_nil_iff, List.append_eq_nil_iff, List.append_eq_nil_iff,
            List.append_eq_nil_iff, ih (Nat.succ.inj h), and_and_and_comm]

theorem total_together {rules : List (Rule σ)} (h : ∀ rule ∈ rules, Total rule) :
    Total (together rules) := by
  intro visits
  induction rules with
  | nil => exact List.length_map _
  | cons rule rest ih =>
      obtain ⟨hrule, hrest⟩ := List.forall_mem_cons.mp h
      have hmore : ((together rest) visits).length = visits.length := ih hrest
      change (List.zipWith (· ++ ·) (rule visits) (together rest visits)).length = _
      rw [List.length_zipWith, hrule visits, hmore, Nat.min_self]

/-- Rules report nothing together just if each of them reports nothing. -/
theorem reports_eq_nil {rules : List (Rule σ)} (h : ∀ rule ∈ rules, Total rule)
    {visits : List (Visit σ)} :
    reports rules visits = [] ↔ ∀ rule ∈ rules, (rule visits).flatten = [] := by
  induction rules with
  | nil => simp [reports, together]
  | cons rule rest ih =>
      obtain ⟨hrule, hrest⟩ := List.forall_mem_cons.mp h
      have hlength : (rule visits).length = (together rest visits).length :=
        (hrule visits).trans (total_together hrest visits).symm
      have hsplit : reports (rule :: rest) visits =
          (List.zipWith (· ++ ·) (rule visits) (together rest visits)).flatten := rfl
      rw [hsplit, flatten_zipWith_append hlength, List.forall_mem_cons, ← ih hrest, reports]

/-! ## Names that are met again -/

/-- What one name adds to the reports and to the names that have been met. -/
def meet (message : String → String) (found : List Report × List Name) (name : Name) :
    List Report × List Name :=
  match found.2.find? (·.text == name.text) with
  | some first => (found.1 ++ [⟨message name.text, [first.pos, name.pos]⟩], found.2)
  | none => (found.1, found.2 ++ [name])

theorem repeated_eq (message : String → String) (names seen : List Name) :
    repeated message names seen = names.foldl (meet message) ([], seen) :=
  rfl

/-- What a name that is met does: it is known then, what has been found stays, and nothing is added
to it just if the name is new. -/
theorem meet_spec (message : String → String) (found : List Report) (seen : List Name)
    (name : Name) :
    (∀ text, text ∈ (meet message (found, seen) name).2.map (·.text) ↔
      text ∈ seen.map (·.text) ∨ text = name.text) ∧
    ((meet message (found, seen) name).1 = [] →
      found = [] ∧ name.text ∉ seen.map (·.text)) := by
  unfold meet
  dsimp only
  cases hmet : seen.find? (·.text == name.text) with
  | some first =>
      have hname : name.text ∈ seen.map (·.text) := by
        have hsame : first.text = name.text := by simpa using List.find?_some hmet
        exact hsame ▸ List.mem_map_of_mem (List.mem_of_find?_eq_some hmet)
      refine ⟨fun text => ⟨.inl, ?_⟩, fun hnil => by simp at hnil⟩
      rintro (hseen | rfl)
      · exact hseen
      · exact hname
  | none =>
      refine ⟨fun text => by simp, fun hnil => ⟨hnil, fun hseen => ?_⟩⟩
      obtain ⟨other, hother, hsame⟩ := List.mem_map.mp hseen
      exact absurd (List.find?_eq_none.mp hmet other hother) (by simp [hsame])

/-- Names that are met one after the other are known then, and if nothing is found in the end each
of them was new to those before. -/
theorem foldl_meet_spec (message : String → String) (names : List Name) (found : List Report)
    (seen : List Name) :
    (∀ text, text ∈ seen.map (·.text) ∨ text ∈ names.map (·.text) →
      text ∈ (names.foldl (meet message) (found, seen)).2.map (·.text)) ∧
    ((names.foldl (meet message) (found, seen)).1 = [] →
      found = [] ∧ ∀ text ∈ names.map (·.text), text ∉ seen.map (·.text)) := by
  induction names generalizing found seen with
  | nil => simp
  | cons name rest ih =>
      obtain ⟨hknown, hnew⟩ := meet_spec message found seen name
      rw [List.foldl_cons]
      generalize meet message (found, seen) name = next at hknown hnew ⊢
      obtain ⟨nextFound, nextSeen⟩ := next
      obtain ⟨hkept, hnone⟩ := ih nextFound nextSeen
      refine ⟨fun text htext => hkept text ?_, fun hnil => ?_⟩
      · rw [hknown, or_assoc]
        rwa [List.map_cons, List.mem_cons] at htext
      · obtain ⟨hnext, hrest⟩ := hnone hnil
        obtain ⟨hfound, hname⟩ := hnew hnext
        refine ⟨hfound, fun text htext => ?_⟩
        rcases List.mem_cons.mp htext with rfl | htext
        · exact hname
        · exact fun hseen => hrest text htext ((hknown text).mpr (.inl hseen))

/-- Names are remembered, and one that is remembered already is reported. -/
theorem repeated_spec (message : String → String) (names seen : List Name) :
    (∀ text, text ∈ seen.map (·.text) ∨ text ∈ names.map (·.text) →
      text ∈ (repeated message names seen).2.map (·.text)) ∧
    ((repeated message names seen).1 = [] →
      ∀ text ∈ names.map (·.text), text ∉ seen.map (·.text)) := by
  rw [repeated_eq]
  obtain ⟨hkept, hnone⟩ := foldl_meet_spec message names [] seen
  exact ⟨hkept, fun hnil => (hnone hnil).2⟩

/-- A name that is met at one visit is reported where it is met again. -/
theorem reported_of_met_again {step : Visit σ → List Name → List Report × List Name}
    (hkept : ∀ visit memory, ∀ text ∈ memory.map (·.text),
      text ∈ (step visit memory).2.map (·.text))
    {first second : Visit σ} (text : String)
    (hfirst : ∀ memory, text ∈ (step first memory).2.map (·.text))
    (hsecond : ∀ memory, text ∈ memory.map (·.text) → (step second memory).1 ≠ [])
    (memory : List Name) (front between rest : List (Visit σ)) :
    (remembering step memory (front ++ first :: (between ++ second :: rest))).flatten ≠ [] := by
  have hafter (visits : List (Visit σ)) (memory : List Name) (h : text ∈ memory.map (·.text)) :
      text ∈ (memoryAfter step memory visits).map (·.text) := by
    induction visits generalizing memory with
    | nil => exact h
    | cons visit more ih => exact ih _ (hkept visit memory text h)
  rw [remembering_append, remembering_cons, remembering_append, remembering_cons]
  intro hnil
  simp only [List.flatten_append, List.flatten_cons, List.append_eq_nil_iff] at hnil
  exact hsecond _ (hafter between _ (hfirst _)) hnil.2.2.2.1

end Rule

/-! ## Documents -/

theorem total_declarationRules (definitions : List Definition) :
    ∀ rule ∈ (declarationRules definitions : List (Rule Unit)), rule.Total := by
  simp only [declarationRules, List.forall_mem_cons, List.not_mem_nil, false_implies, implies_true,
    and_true]
  exact ⟨Rule.total_remembering _ _, Rule.total_remembering _ _, Rule.total_remembering _ _,
    Rule.total_remembering _ _, Rule.total_remembering _ _, Rule.total_looking _,
    Rule.total_remembering _ _, Rule.total_looking _, Rule.total_looking _,
    Rule.total_remembering _ _, Rule.total_looking _, Rule.total_looking _, Rule.total_looking _,
    Rule.total_remembering _ _, Rule.total_looking _⟩

section

variable {definitions : List Definition}

/-- The first visit of a definition of the schema enters it. -/
theorem exists_visits {x : Definition} {d : SchemaDef}
    (h : x = .schema d ∨ x = .schemaExtension d) :
    ∃ part rest, (part = .schema d ∨ part = .schemaExtension d) ∧
      definitionVisits (fun _ scope => scope) x () = ⟨true, part, ()⟩ :: rest := by
  rcases h with rfl | rfl
  · exact ⟨_, _, .inl rfl, rfl⟩
  · exact ⟨_, _, .inr rfl, rfl⟩

/-- Of two definitions of the schema, the later gives no root type to a kind of operation that the
earlier gives one to. -/
theorem roots_disjoint (h : declarationReports definitions = []) {x y : Definition}
    {d e : SchemaDef} (hx : x = .schema d ∨ x = .schemaExtension d)
    (hy : y = .schema e ∨ y = .schemaExtension e) {front between rest : List Definition}
    (hsplit : definitions = front ++ x :: (between ++ y :: rest)) {operation : OperationKind}
    (hoperation : operation ∈ d.roots.map (·.operation)) :
    operation ∉ e.roots.map (·.operation) := by
  intro hagain
  have hunique :
      (uniqueRoots (documentVisits (fun _ scope => scope) definitions ())).flatten = [] :=
    (Rule.reports_eq_nil (total_declarationRules definitions)).mp h _
      (List.mem_cons_of_mem _ List.mem_cons_self)
  obtain ⟨first, inFirst, hfirst, hfirstVisits⟩ := exists_visits hx
  obtain ⟨second, inSecond, hsecond, hsecondVisits⟩ := exists_visits hy
  have hvisits : documentVisits (fun _ scope => scope) definitions () =
      (⟨true, .document, ()⟩ :: each (definitionVisits fun _ scope => scope) front ()) ++
        ⟨true, first, ()⟩ ::
          ((inFirst ++ each (definitionVisits fun _ scope => scope) between ()) ++
            ⟨true, second, ()⟩ ::
              (inSecond ++ each (definitionVisits fun _ scope => scope) rest () ++
                [⟨false, .document, ()⟩])) := by
    simp [documentVisits, around, each, hsplit, hfirstVisits, hsecondVisits]
  have hmem (roots : List RootDef) (hroots : operation ∈ roots.map (·.operation)) :
      operation.text ∈ (roots.map fun root => unplaced root.operation.text).map (·.text) := by
    obtain ⟨root, hroot, rfl⟩ := List.mem_map.mp hroots
    exact List.mem_map_of_mem (List.mem_map_of_mem hroot)
  rw [hvisits] at hunique
  refine Rule.reported_of_met_again ?_ operation.text ?_ ?_ _ _ _ _ hunique
  · intro visit memory text htext
    split
    · exact (Rule.repeated_spec _ _ memory).1 text (.inl htext)
    · exact (Rule.repeated_spec _ _ memory).1 text (.inl htext)
    · exact htext
  · intro memory
    rcases hfirst with rfl | rfl
    · exact (Rule.repeated_spec _ _ memory).1 _ (.inr (hmem _ hoperation))
    · exact (Rule.repeated_spec _ _ memory).1 _ (.inr (hmem _ hoperation))
  · intro memory hmet
    rcases hsecond with rfl | rfl
    · exact fun hnil => (Rule.repeated_spec _ _ memory).2 hnil _ (hmem _ hagain) hmet
    · exact fun hnil => (Rule.repeated_spec _ _ memory).2 hnil _ (hmem _ hagain) hmet

/-- An extension of the schema gives no root type to a kind of operation that the schema definition
gives one to. -/
theorem extension_roots_disjoint (h : declarationReports definitions = []) {d e : SchemaDef}
    (hd : .schema d ∈ definitions) (he : .schemaExtension e ∈ definitions)
    {operation : OperationKind} (hoperation : operation ∈ d.roots.map (·.operation)) :
    operation ∉ e.roots.map (·.operation) := by
  obtain ⟨front, rest, hsplit⟩ := List.append_of_mem hd
  rw [hsplit, List.mem_append, List.mem_cons] at he
  rcases he with hfront | hself | hrest
  · obtain ⟨before, between, rfl⟩ := List.append_of_mem hfront
    have hturned : definitions =
        before ++ .schemaExtension e :: (between ++ .schema d :: rest) := by
      rw [hsplit, List.append_assoc, List.cons_append]
    intro hagain
    exact roots_disjoint h (.inr rfl) (.inl rfl) hturned hagain hoperation
  · cases hself
  · obtain ⟨between, behind, rfl⟩ := List.append_of_mem hrest
    exact roots_disjoint h (.inl rfl) (.inr rfl) hsplit hoperation

end

end RecordApi.Validation
