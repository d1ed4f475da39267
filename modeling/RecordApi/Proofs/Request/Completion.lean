import RecordApi.Proofs.Outcomes
import RecordApi.Proofs.Request.Marks
import RecordApi.Request.Answer

/-!
# Answers for fields that are marked against null

Answering a field tells of a missing value only if the type of the field does not admit the value. A
scalar or an enumeration never answers null for a value that is not null, so a field of one tells of
other faults at most.
-/

namespace RecordApi.Request

open RecordApi.Language

/-- What is told if a field that is marked against null has no value. -/
def Asker.nullMessage (asker : Asker) : String :=
  "Cannot return null for non-nullable field " ++ asker.text ++ "."

/-- The message of an error on its way. -/
def Raised.message : Raised → String
  | bare message _ => message
  | located error => error.message

@[simp] theorem Raised.message_locate (site : Site) (raised : Raised) :
    (raised.locate site).message = raised.message := by
  cases raised <;> rfl

/-! ## Messages that are told -/

section Tells

variable {σ α β γ : Type}

/-- What a step of answering comes to, and how far the answering is then. -/
def outcome (answering : Answering σ α) (progress : Progress σ) :
    Except Raised α × Progress σ :=
  (answering.run.run progress).run

/-- Whether a step of answering writes down and raises only errors with certain messages, and what
comes of it is as it should be. -/
structure Tells (allowed : String → Prop) (good : α → Prop) (answering : Answering σ α) : Prop where
  notes : ∀ progress, ∀ error ∈ (outcome answering progress).2.errors,
    error ∈ progress.errors ∨ allowed error.message
  answers : ∀ progress a, (outcome answering progress).1 = .ok a → good a
  raises : ∀ progress raised, (outcome answering progress).1 = .error raised →
    allowed raised.message

variable {allowed : String → Prop} {good : α → Prop} {fine : β → Prop}
  {answering : Answering σ α}

theorem tells_pure {a : α} (h : good a) : Tells allowed good (pure a : Answering σ α) where
  notes := fun _ _ herror => .inl herror
  answers := by
    rintro progress _ ⟨⟩
    exact h
  raises := nofun

theorem tells_throw {raised : Raised} (h : allowed raised.message) :
    Tells allowed good (throw raised : Answering σ α) where
  notes := fun _ _ herror => .inl herror
  answers := nofun
  raises := by
    rintro progress _ ⟨⟩
    exact h

theorem tells_noteError {error : AnswerError} (h : allowed error.message) :
    Tells allowed (fun _ => True) (noteError error : Answering σ Unit) where
  notes := by
    intro progress other hother
    rcases List.mem_append.mp hother with hbefore | hlast
    · exact .inl hbefore
    · exact .inr (List.mem_singleton.mp hlast ▸ h)
  answers := fun _ _ _ => trivial
  raises := nofun

theorem Tells.bind {next : α → Answering σ β} (hfirst : Tells allowed good answering)
    (hnext : ∀ a, good a → Tells allowed fine (next a)) :
    Tells allowed fine (answering >>= next) := by
  have hrun (progress : Progress σ) :
      (∃ a, (outcome answering progress).1 = .ok a ∧ outcome (answering >>= next) progress =
        outcome (next a) (outcome answering progress).2) ∨
      ∃ raised, (outcome answering progress).1 = .error raised ∧
        outcome (answering >>= next) progress =
          (.error raised, (outcome answering progress).2) := by
    rcases h : outcome answering progress with ⟨first, after⟩
    have hfirst : (answering.run.run progress).run = (first, after) := h
    cases first <;> simp [outcome, ExceptT.run_bind, hfirst]
  constructor
  · intro progress error herror
    rcases hrun progress with ⟨a, ha, hnow⟩ | ⟨raised, -, hnow⟩
    · rw [hnow] at herror
      rcases (hnext a (hfirst.answers progress a ha)).notes _ error herror with hbefore | hallowed
      · exact hfirst.notes progress error hbefore
      · exact .inr hallowed
    · rw [hnow] at herror
      exact hfirst.notes progress error herror
  · intro progress b hb
    rcases hrun progress with ⟨a, ha, hnow⟩ | ⟨raised, -, hnow⟩
    · exact (hnext a (hfirst.answers progress a ha)).answers _ b (hnow ▸ hb)
    · rw [hnow] at hb
      cases hb
  · intro progress raised hraised
    rcases hrun progress with ⟨a, ha, hnow⟩ | ⟨other, hother, hnow⟩
    · exact (hnext a (hfirst.answers progress a ha)).raises _ raised (hnow ▸ hraised)
    · rw [hnow] at hraised
      obtain rfl := Except.error.inj hraised
      exact hfirst.raises progress other hother

theorem Tells.mono (h : Tells allowed good answering) {other : α → Prop}
    (himp : ∀ a, good a → other a) : Tells allowed other answering :=
  ⟨h.notes, fun progress a ha => himp a (h.answers progress a ha), h.raises⟩

theorem Tells.map (f : α → β) (h : Tells allowed good answering) :
    Tells allowed (fun _ => True) (f <$> answering) := by
  rw [map_eq_pure_bind]
  exact h.bind fun _ _ => tells_pure trivial

theorem tells_mapM {step : γ → Answering σ α} {items : List γ}
    (h : ∀ x ∈ items, Tells allowed (fun _ => True) (step x)) :
    Tells allowed (fun _ => True) (items.mapM step) := by
  induction items with
  | nil => exact tells_pure trivial
  | cons x rest ih =>
      obtain ⟨hx, hrest⟩ := List.forall_mem_cons.mp h
      rw [List.mapM_cons]
      exact hx.bind fun _ _ => (ih hrest).bind fun _ _ => tells_pure trivial

/-- An error at a site is told with its message. -/
theorem tells_settleError (site : Site) {raised : Raised} (h : allowed raised.message) :
    Tells allowed (fun _ => True) (settleError site raised : Answering σ Datum) := by
  have hlocated : allowed (raised.locate site).message := by rwa [Raised.message_locate]
  unfold settleError
  dsimp only
  split
  · exact tells_throw hlocated
  · exact (tells_noteError hlocated).bind fun _ _ => tells_pure trivial

/-- An error that is caught has not been told yet. -/
theorem tells_attempt (h : Tells allowed good answering) :
    Tells allowed (fun caught => ∀ raised, caught = .error raised → allowed raised.message)
      (attempt answering) := by
  have hrun (progress : Progress σ) : outcome (attempt answering) progress =
      (.ok (outcome answering progress).1, (outcome answering progress).2) := by
    rcases h : outcome answering progress with ⟨first, after⟩
    have hfirst : (answering.run.run progress).run = (first, after) := h
    rw [outcome, attempt, ExceptT.run_tryCatch, ExceptT.run_map]
    cases first <;> simp [hfirst] <;> rfl
  constructor
  · intro progress error herror
    rw [hrun] at herror
    exact h.notes progress error herror
  · intro progress caught hcaught raised hraised
    rw [hrun] at hcaught
    exact h.raises progress raised ((Except.ok.inj hcaught).trans hraised)
  · intro progress raised hraised
    rw [hrun] at hraised
    cases hraised

theorem tells_guardSite (site : Site) {answering : Answering σ Answer} {good : Answer → Prop}
    (h : Tells allowed good answering) :
    Tells allowed (fun _ => True) (guardSite site answering) := by
  refine (tells_attempt h).bind fun caught hcaught => ?_
  split
  · exact tells_pure trivial
  · exact tells_pure trivial
  · next raised =>
      exact (tells_settleError site (hcaught raised rfl)).bind fun _ _ => tells_pure trivial

end Tells

/-! ## Leaf values -/

/-- What starts otherwise is not about a missing value. -/
theorem append_ne_nullMessage {asker : Asker} {front : String}
    (h : front.toList.head?.any (· != 'C')) (rest : String) :
    front ++ rest ≠ asker.nullMessage := by
  obtain ⟨first, hfront, hfirst⟩ := (Option.any_eq_true _ _).mp h
  have hcannot : "Cannot return null for non-nullable field ".toList.head? = some 'C' := by
    decide +kernel
  intro hsame
  have hheads := congrArg (fun message : String => message.toList.head?) hsame
  unfold Asker.nullMessage at hheads
  simp only [String.toList_append, List.append_assoc, List.head?_append, hfront, hcannot,
    Option.some_or] at hheads
  exact bne_iff_ne.mp hfirst (Option.some.inj hheads)

section Leaves

variable {asker : Asker} {d : Datum}

/-- Whether a value is found that is not missing, or else something is told that is not about a
missing value. -/
structure Settles (asker : Asker) (outcome : Except String Datum) : Prop where
  ok : ∀ found, outcome = .ok found → found ≠ .null
  error : ∀ message, outcome = .error message → message ≠ asker.nullMessage

theorem settles_ok (h : d ≠ .null) : Settles asker (.ok d) where
  ok := by
    rintro _ ⟨⟩
    exact h
  error := nofun

theorem settles_error {front : String} (h : front.toList.head?.any (· != 'C')) (rest : String) :
    Settles asker (.error (front ++ rest)) where
  ok := nofun
  error := by
    rintro _ ⟨⟩
    exact append_ne_nullMessage h rest

theorem settles_unrepresentable {typeName : String} (h : typeName.toList.head?.any (· != 'C'))
    (words : String) : Settles asker (unrepresentable typeName words d) := by
  unfold unrepresentable
  rw [String.append_assoc, String.append_assoc, String.append_assoc]
  exact settles_error h _

theorem settles_scalarOutput (typeName : String) (hd : d ≠ .null) :
    Settles asker (scalarOutput typeName d) := by
  unfold scalarOutput
  repeat' split
  all_goals first
    | exact settles_unrepresentable (by decide) _
    | exact settles_ok hd
    | exact settles_ok (by simp)

theorem settles_enumOutput (typeName : String) (options : List String) :
    Settles asker (enumOutput typeName options d) := by
  have hunknown (s : String) :
      Settles asker (.error ("Enum '" ++ typeName ++ "' cannot represent value: " ++ s)) := by
    rw [String.append_assoc, String.append_assoc]
    exact settles_error (by decide) _
  unfold enumOutput
  split
  · split
    · exact settles_ok nofun
    · exact hunknown _
  · exact hunknown _

end Leaves

/-! ## Completed values -/

section Completed

variable {σ : Type} {schema : Schema} {asker : Asker}
  {objects : String → Datum → List PathStep → Answering σ Answer} {d : Datum}

theorem tells_orRaise {outcome : Except String Datum} (h : Settles asker outcome) :
    Tells (· ≠ asker.nullMessage) (· ≠ .null) (orRaise outcome : Answering σ Datum) := by
  cases outcome with
  | ok found => exact tells_pure (h.ok found rfl)
  | error message => exact tells_throw (h.error message rfl)

/-- A scalar or an enumeration never answers null for a value that is not null. -/
theorem tells_completeNamed {name : String}
    (hinput : schema.isOf TypeShape.isInput (.named name)) (hd : d ≠ .null)
    (path : List PathStep) :
    Tells (· ≠ asker.nullMessage) (· ≠ .done .null)
      (completeNamed schema asker objects name path d) := by
  have hleaf {outcome : Except String Datum} (h : Settles asker outcome) :
      Tells (· ≠ asker.nullMessage) (· ≠ .done .null)
        (orRaise outcome >>= fun found => pure (.done found) : Answering σ Answer) :=
    (tells_orRaise h).bind fun found hfound =>
      tells_pure fun hsame => hfound (Answer.done.inj hsame)
  obtain ⟨shape, hshape, hsort⟩ := (Option.any_eq_true _ _).mp hinput
  unfold completeNamed
  rw [hshape]
  cases shape with
  | enum options => exact hleaf (settles_enumOutput name _)
  | scalar _ | input _ => exact hleaf (settles_scalarOutput name hd)
  | _ => cases hsort

/-- Completing a value that its type admits does not tell of a missing value. The induction is on
the type: each item of a list is completed on its own. -/
theorem tells_completeValue {type : TypeExpr} (hinput : schema.isOf TypeShape.isInput type)
    (hadmits : type.Admits d) (path : List PathStep) :
    Tells (· ≠ asker.nullMessage) (fun answer => d ≠ .null → answer ≠ .done .null)
      (completeValue schema asker objects type path d) := by
  induction type generalizing d path with
  | named name =>
      unfold completeValue
      split
      · exact tells_pure fun hd => absurd rfl hd
      · next hd => exact (tells_completeNamed hinput hd path).mono fun _ hanswer _ => hanswer
  | list item ih =>
      unfold completeValue
      split
      · exact tells_pure fun hd => absurd rfl hd
      · next items =>
          refine (tells_mapM fun entry hentry => ?_).bind fun answers _ => tells_pure fun _ => ?_
          · obtain ⟨value, index⟩ := entry
            have hvalue : value ∈ items := List.fst_mem_of_mem_zipIdx hentry
            exact tells_guardSite _ (ih hinput (hadmits items rfl value hvalue) _)
          · unfold Answer.ofItems
            split <;> simp
      · refine tells_throw ?_
        rw [Raised.message, String.append_assoc]
        exact append_ne_nullMessage (by decide) _
  | nonNull inner ih =>
      unfold completeValue
      refine (ih hinput hadmits.2 path).bind fun answer hanswer => ?_
      split
      · exact absurd rfl (hanswer hadmits.1)
      · exact tells_pure fun _ => hanswer hadmits.1

end Completed

/-! ## Answered fields -/

section Fields

variable {σ : Type} {schema : Schema} {asker : Asker} {bindings : VariableValues}
  {given : List Argument}

/-- The fault of an argument names the argument first. -/
theorem message_of_argumentValue {slot : InputSlot} {fault : ArgumentFault}
    (h : argumentValue schema bindings given slot = .error fault) :
    ∃ rest, fault.message = "Argument '" ++ rest := by
  have htext (words rest : String) :
      ∃ more, argumentText slot words ++ rest = "Argument '" ++ more := by
    simp only [argumentText, String.append_assoc]
    exact ⟨_, rfl⟩
  have hinvalid (text : String) : ∃ more,
      "Argument '" ++ slot.name ++ "' has invalid value " ++ text ++ "." =
        "Argument '" ++ more := by
    simp only [String.append_assoc]
    exact ⟨_, rfl⟩
  unfold argumentValue at h
  dsimp only at h
  repeat' split at h
  all_goals cases h
  · exact htext _ _
  · exact htext _ _
  · exact htext _ _
  · exact hinvalid _
  · exact hinvalid _
  · exact htext _ _
  · exact hinvalid _
  · exact hinvalid _

theorem tells_orRaiseArgument {slots : List InputSlot} :
    Tells (σ := σ) (· ≠ asker.nullMessage) (fun _ => True)
      (orRaiseArgument (argumentValues schema bindings slots given)) := by
  cases harguments : argumentValues schema bindings slots given with
  | ok arguments => exact tells_pure trivial
  | error fault =>
      refine tells_throw ?_
      have hfault : ∃ slot ∈ slots, argumentValue schema bindings given slot = .error fault := by
        rcases bind_eq_error.mp harguments with hmap | ⟨_, -, hpure⟩
        · obtain ⟨slot, hslot, hvalue⟩ := exists_of_mapM_eq_error hmap
          rcases bind_eq_error.mp hvalue with hvalue | ⟨_, -, hpure⟩
          · exact ⟨slot, hslot, hvalue⟩
          · cases hpure
        · cases hpure
      obtain ⟨slot, -, hslot⟩ := hfault
      obtain ⟨rest, hmessage⟩ := message_of_argumentValue hslot
      rw [Raised.message, hmessage]
      exact append_ne_nullMessage (by decide) rest

theorem tells_answerValue {host : Host σ} {depth : Nat} {site : Site} {d : Datum}
    (hinput : host.sources.schema.isOf TypeShape.isInput site.type)
    (hadmits : site.type.Admits d) :
    Tells (· ≠ asker.nullMessage) (fun _ => True) (answerValue host depth asker site d) := by
  unfold answerValue
  exact (tells_completeValue hinput hadmits _).mono fun _ _ => trivial

/-- A field that is read from its source does not tell of a missing value, if it is one of a scalar
or an enumeration and its type admits what is read. -/
theorem tells_answerField {host : Host σ} {depth : Nat} {parent : String} {source : Datum}
    {path : List PathStep} {group : FieldGroup} {field : OutputField}
    (hfield : host.sources.schema.field? parent group.first.head.name = some field)
    (hserving : host.serving parent group.first.head.name = none)
    (hinput : host.sources.schema.isOf TypeShape.isInput field.type)
    (hadmits : field.type.Admits (readField parent group.first.head.name source)) :
    Tells (· ≠ Asker.nullMessage ⟨parent, group⟩) (fun _ => True)
      (answerField host depth parent source path group) := by
  unfold answerField
  simp only [hfield, hserving]
  exact (tells_guardSite _ (tells_orRaiseArgument.bind fun _ _ =>
    tells_answerValue hinput hadmits)).map some

/-- A value that is missing for a field of a name that is marked against null is told of. -/
theorem raises_of_missing {host : Host σ} {depth : Nat} {parent : String} {source : Datum}
    {path : List PathStep} {group : FieldGroup} {field : OutputField} {typeName : String}
    (hfield : host.sources.schema.field? parent group.first.head.name = some field)
    (hserving : host.serving parent group.first.head.name = none)
    (harguments : field.arguments = []) (htype : field.type = .nonNull (.named typeName))
    (hmissing : readField parent group.first.head.name source = .null) (progress : Progress σ) :
    ∃ raised, (outcome (answerField host depth parent source path group) progress).1 =
      .error raised ∧ raised.message = Asker.nullMessage ⟨parent, group⟩ := by
  unfold answerField
  simp only [hfield, hserving, harguments, hmissing, htype, answerValue]
  exact ⟨_, rfl, rfl⟩

end Fields

end RecordApi.Request
