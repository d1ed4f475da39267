import RecordApi.Collection

/-!
# Running actions

An action that is run on a world gives an answer or a failure, and the world that is left. What a
sequence of actions gives is told by what each of them gives.
-/

namespace RecordApi

namespace Action

variable {σ α β : Type}

/-- What an action gives on a world, and the world that is left. -/
def exec (action : Action σ α) (world : σ) : Except Failure α × σ :=
  (action.run.run world).run

@[simp] theorem exec_pure (a : α) (world : σ) :
    exec (pure a : Action σ α) world = (.ok a, world) := rfl

@[simp] theorem exec_throw (failure : Failure) (world : σ) :
    exec (throw failure : Action σ α) world = (.error failure, world) := rfl

@[simp] theorem exec_get (world : σ) : exec (get : Action σ σ) world = (.ok world, world) := rfl

@[simp] theorem exec_modify (change : σ → σ) (world : σ) :
    exec (modify change : Action σ Unit) world = (.ok (), change world) := rfl

/-- What is left to do after an outcome: nothing after a failure. -/
def after (rest : α → Action σ β) : Except Failure α × σ → Except Failure β × σ
  | (.ok a, world) => exec (rest a) world
  | (.error failure, world) => (.error failure, world)

@[simp] theorem after_ok (rest : α → Action σ β) (a : α) (world : σ) :
    after rest (.ok a, world) = exec (rest a) world := rfl

@[simp] theorem after_error (rest : α → Action σ β) (failure : Failure) (world : σ) :
    after rest (.error failure, world) = (.error failure, world) := rfl

@[simp] theorem exec_bind (action : Action σ α) (rest : α → Action σ β) (world : σ) :
    exec (action >>= rest) world = after rest (exec action world) := by
  rcases h : exec action world with ⟨outcome, left⟩
  have hrun : (action.run.run world).run = (outcome, left) := h
  cases outcome <;> simp [exec, ExceptT.run_bind, hrun]

@[simp] theorem exec_map (f : α → β) (action : Action σ α) (world : σ) :
    exec (f <$> action) world = after (fun a => pure (f a)) (exec action world) := by
  rw [map_eq_pure_bind, exec_bind]

/-- A sequence of actions answers just if each of them does. -/
theorem exec_bind_eq_ok {action : Action σ α} {rest : α → Action σ β} {world left : σ} {b : β} :
    exec (action >>= rest) world = (.ok b, left) ↔
      ∃ a middle, exec action world = (.ok a, middle) ∧ exec (rest a) middle = (.ok b, left) := by
  rw [exec_bind]
  rcases exec action world with ⟨_ | a, middle⟩ <;> simp [and_assoc]

/-- A sequence of actions fails where the first of them that fails does. -/
theorem exec_bind_eq_error {action : Action σ α} {rest : α → Action σ β} {world left : σ}
    {failure : Failure} :
    exec (action >>= rest) world = (.error failure, left) ↔
      exec action world = (.error failure, left) ∨
        ∃ a middle, exec action world = (.ok a, middle) ∧
          exec (rest a) middle = (.error failure, left) := by
  rw [exec_bind]
  rcases exec action world with ⟨_ | a, middle⟩ <;> simp [and_assoc]

/-- Work that leaves the world as it is gives what its steps give one after the other. -/
theorem after_eq_bind {outcome : Except Failure α} {rest : α → Action σ β}
    {next : α → Except Failure β} {world : σ}
    (h : ∀ a, exec (rest a) world = (next a, world)) :
    after rest (outcome, world) = (outcome >>= next, world) := by
  cases outcome with
  | error failure => rfl
  | ok a => exact h a

end Action

end RecordApi
