/-!
# Outcomes of steps that may fail

A sequence of steps succeeds just if each of them does.
-/

namespace RecordApi

variable {ε α β γ : Type}

theorem bind_eq_ok {x : Except ε α} {f : α → Except ε β} {b : β} :
    x >>= f = .ok b ↔ ∃ a, x = .ok a ∧ f a = .ok b := by
  cases x <;> simp [bind, Except.bind]

theorem bind_eq_error {x : Except ε α} {f : α → Except ε β} {e : ε} :
    x >>= f = .error e ↔ x = .error e ∨ ∃ a, x = .ok a ∧ f a = .error e := by
  cases x <;> simp [bind, Except.bind]

/-- An outcome that meets a condition is there. -/
theorem exists_ok_of_any {x : Except ε α} {p : α → Bool} (h : x.toOption.any p) :
    ∃ a, x = .ok a ∧ p a := by
  cases x with
  | error failure => cases h
  | ok a => exact ⟨a, rfl, h⟩

/-- Each item is paired with its outcome. -/
theorem mapM_eq_ok {f : α → Except ε β} {xs : List α} {ys : List β} :
    xs.mapM f = .ok ys ↔ xs.map f = ys.map .ok := by
  induction xs generalizing ys with
  | nil => cases ys <;> simp [pure, Except.pure]
  | cons x rest ih =>
      rw [List.mapM_cons, bind_eq_ok]
      constructor
      · rintro ⟨y, hy, h⟩
        obtain ⟨more, hmore, rfl⟩ : ∃ more, rest.mapM f = .ok more ∧ y :: more = ys := by
          simpa [bind_eq_ok, pure, Except.pure] using h
        simp [hy, ih.mp hmore]
      · intro h
        cases ys with
        | nil => simp at h
        | cons y more =>
            simp only [List.map_cons, List.cons.injEq] at h
            exact ⟨y, h.1, by simp [ih.mpr h.2, pure, Except.pure, bind, Except.bind]⟩

/-- Work on all items fails with the failure of one of them. -/
theorem exists_of_mapM_eq_error {f : α → Except ε β} {xs : List α} {e : ε}
    (h : xs.mapM f = .error e) : ∃ x ∈ xs, f x = .error e := by
  induction xs with
  | nil => cases h
  | cons x rest ih =>
      rw [List.mapM_cons, bind_eq_error] at h
      rcases h with hx | ⟨y, -, hrest⟩
      · exact ⟨x, List.mem_cons_self, hx⟩
      · rcases bind_eq_error.mp hrest with hrest | ⟨more, -, hpure⟩
        · obtain ⟨other, hother, herror⟩ := ih hrest
          exact ⟨other, List.mem_cons_of_mem x hother, herror⟩
        · cases hpure

/-- A check of all items succeeds just if that of each item does. -/
theorem forM_eq_ok {f : α → Except ε Unit} {xs : List α} :
    xs.forM f = .ok () ↔ ∀ x ∈ xs, f x = .ok () := by
  induction xs with
  | nil => simp [pure, Except.pure]
  | cons x rest ih =>
      rw [List.forall_mem_cons, ← ih]
      change (f x >>= fun _ => rest.forM f) = .ok () ↔ _
      rw [bind_eq_ok]
      exact ⟨fun ⟨(), hx, hrest⟩ => ⟨hx, hrest⟩, fun ⟨hx, hrest⟩ => ⟨(), hx, hrest⟩⟩

/-- Two stages over the items succeed if both steps of every item do. -/
theorem mapM_mapM_eq_ok {f : α → Except ε β} {g : β → Except ε γ} {h : α → γ} {xs : List α}
    (hsteps : ∀ x ∈ xs, ∃ y, f x = .ok y ∧ g y = .ok (h x)) :
    (xs.mapM f >>= fun ys => ys.mapM g) = .ok (xs.map h) := by
  have hmiddle : ∃ ys : List β, xs.map f = ys.map .ok ∧ ys.map g = (xs.map h).map .ok := by
    induction xs with
    | nil => exact ⟨[], rfl, rfl⟩
    | cons x rest ih =>
        obtain ⟨y, hf, hg⟩ := hsteps x List.mem_cons_self
        obtain ⟨more, hmore, hlast⟩ := ih fun x hx => hsteps x (List.mem_cons_of_mem _ hx)
        exact ⟨y :: more, by simp [hf, hmore], by simp [hg, hlast]⟩
  obtain ⟨ys, hys, hzs⟩ := hmiddle
  exact bind_eq_ok.mpr ⟨ys, mapM_eq_ok.mpr hys, mapM_eq_ok.mpr hzs⟩

end RecordApi
