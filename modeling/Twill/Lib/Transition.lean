/-
Transition systems given by a partial step function: runs whose steps satisfy a
predicate, the invariant rule, and runs spelled out as lists of actions.
-/
import Mathlib

namespace Transition

variable {σ α : Type*}

/-- The states reached from `s` by enabled steps that satisfy `P` where they are taken. -/
inductive RunWhere (step : σ → α → Option σ) (P : σ → α → Prop) (s : σ) : σ → Prop where
  | nil : RunWhere step P s s
  | snoc {t u : σ} {a : α} : RunWhere step P s t → P t a → step t a = some u → RunWhere step P s u

/-- The states reached from `s`. -/
abbrev Reach (step : σ → α → Option σ) : σ → σ → Prop := RunWhere step fun _ _ => True

variable {step : σ → α → Option σ} {P Q : σ → α → Prop} {s t : σ}

/-- What holds at the start and is kept by every step holds throughout. -/
theorem RunWhere.invariant {I : σ → Prop} (h : RunWhere step P s t) (hs : I s)
    (hstep : ∀ t u a, I t → P t a → step t a = some u → I u) : I t := by
  induction h with
  | nil => exact hs
  | snoc _ hP ht ih => exact hstep _ _ _ ih hP ht

theorem RunWhere.mono (h : RunWhere step P s t) (hPQ : ∀ t a, P t a → Q t a) : RunWhere step Q s t := by
  induction h with
  | nil => exact .nil
  | snoc _ hP ht ih => exact .snoc ih (hPQ _ _ hP) ht

theorem RunWhere.reach (h : RunWhere step P s t) : Reach step s t := h.mono fun _ _ _ => trivial

/-- The actions lead from `s` to `t`, each satisfying `P` where it is taken. -/
def Plays (step : σ → α → Option σ) (P : σ → α → Prop) : σ → List α → σ → Prop
  | s, [], t => s = t
  | s, a :: acts, t => P s a ∧ ∃ u, step s a = some u ∧ Plays step P u acts t

theorem RunWhere.plays {r : σ} (h : RunWhere step P r s) (acts : List α) (hacts : Plays step P s acts t) :
    RunWhere step P r t := by
  induction acts generalizing s with
  | nil =>
    obtain rfl := hacts
    exact h
  | cons a acts ih =>
    obtain ⟨hP, u, hu, hacts⟩ := hacts
    exact ih (h.snoc hP hu) hacts

/-- The state a list of actions leads to, if each is enabled in turn. -/
def play (step : σ → α → Option σ) (s : σ) : List α → Option σ
  | [] => some s
  | a :: acts => match step s a with
    | some u => play step u acts
    | none => none

theorem reach_of_play {r : σ} (h : Reach step r s) (acts : List α) (hplay : play step s acts = some t) :
    Reach step r t := by
  induction acts generalizing s with
  | nil =>
    obtain rfl := Option.some.inj hplay
    exact h
  | cons a acts ih =>
    rw [play] at hplay
    split at hplay
    · rename_i u hu
      exact ih (h.snoc trivial hu) hplay
    · cases hplay

end Transition
