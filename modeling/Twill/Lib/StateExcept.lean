/-
Computations that keep their state when they fail (`ExceptT ε (StateM σ)`): what
running one from a state answers, construct by construct.
-/
import Mathlib

namespace StateExcept

variable {ε σ α β : Type}

/-- The answer and the state after running from `s`. -/
abbrev runOn (x : ExceptT ε (StateM σ) α) (s : σ) : Except ε α × σ := x.run.run s

theorem run_bind (x : ExceptT ε (StateM σ) α) (f : α → ExceptT ε (StateM σ) β) (s : σ) :
    runOn (x >>= f) s = match runOn x s with
      | (.ok a, s') => runOn (f a) s'
      | (.error e, s') => (.error e, s') := by
  show (StateT.bind x (ExceptT.bindCont f)) s = _
  simp only [StateT.bind]
  show (match x s with | (a, s') => ExceptT.bindCont f a s') = match x s with
      | (.ok a, s') => f a s'
      | (.error e, s') => (.error e, s')
  rcases x s with ⟨e | a, s'⟩ <;> rfl

@[simp] theorem run_pure (a : α) (s : σ) : runOn (pure a : ExceptT ε (StateM σ) α) s = (.ok a, s) := rfl

@[simp] theorem run_throw (e : ε) (s : σ) :
    runOn (throw e : ExceptT ε (StateM σ) α) s = (.error e, s) := rfl

@[simp] theorem run_get (s : σ) : runOn (get : ExceptT ε (StateM σ) σ) s = (.ok s, s) := rfl

@[simp] theorem run_modify (f : σ → σ) (s : σ) :
    runOn (modify f : ExceptT ε (StateM σ) Unit) s = (.ok (), f s) := rfl

theorem run_ite {c : Prop} [Decidable c] (x y : ExceptT ε (StateM σ) α) (s : σ) :
    runOn (if c then x else y) s = if c then runOn x s else runOn y s := by
  split <;> rfl

/-- A bind whose first part succeeds goes on from where it left off. -/
theorem run_bind_ok {x : ExceptT ε (StateM σ) α} {f : α → ExceptT ε (StateM σ) β} {s s' : σ} {a : α}
    (h : runOn x s = (.ok a, s')) : runOn (x >>= f) s = runOn (f a) s' := by
  rw [run_bind, h]

/-- A bind whose first part fails fails there. -/
theorem run_bind_error {x : ExceptT ε (StateM σ) α} {f : α → ExceptT ε (StateM σ) β} {s s' : σ} {e : ε}
    (h : runOn x s = (.error e, s')) : runOn (x >>= f) s = (.error e, s') := by
  rw [run_bind, h]

/-- Only the answer is mapped. -/
theorem run_bind_pure (x : ExceptT ε (StateM σ) α) (f : α → β) (s : σ) :
    runOn (x >>= fun a => pure (f a)) s = ((runOn x s).1.map f, (runOn x s).2) := by
  rw [run_bind]
  rcases runOn x s with ⟨e | a, s'⟩ <;> rfl

end StateExcept
