/-
Acyclic relations: giving one element other successors, and well-foundedness.
-/
import Mathlib

namespace Cycles

open Relation (TransGen ReflTransGen)

variable {α : Type*} {R R' : α → α → Prop} {n : α} {S : Set α}

/-- No element is reached from itself. -/
def Acyclic (R : α → α → Prop) : Prop := ∀ a, ¬ TransGen R a a

theorem Acyclic.mono (h : Acyclic R) (hsub : ∀ a b, R' a b → R a b) : Acyclic R' :=
  fun a hcycle => h a (TransGen.mono hsub a a hcycle)

theorem reachable_mem (hclosed : ∀ x ∈ S, ∀ y, R x y → y ∈ S) {x y : α} (hx : x ∈ S) (hreach : ReflTransGen R x y) :
    y ∈ S := by
  induction hreach with
  | refl => exact hx
  | tail _ hstep ih => exact hclosed _ ih _ hstep

/-- Where only the successors of `n` change, a path of the new relation is one of
the old or goes through `n`. -/
theorem transGen_or (hother : ∀ a b, a ≠ n → R' a b → R a b) {a b : α} (h : TransGen R' a b) :
    TransGen R a b ∨ (ReflTransGen R' a n ∧ TransGen R' n b) := by
  induction h with
  | @single b hstep =>
    by_cases ha : a = n
    · subst ha
      exact .inr ⟨.refl, .single hstep⟩
    · exact .inl (.single (hother _ _ ha hstep))
  | @tail b c hpath hstep ih =>
    by_cases hb : b = n
    · subst hb
      exact .inr ⟨hpath.to_reflTransGen, .single hstep⟩
    · rcases ih with hold | ⟨hto, hfrom⟩
      · exact .inl (hold.tail (hother _ _ hb hstep))
      · exact .inr ⟨hto, hfrom.tail hstep⟩

/-- Giving `n` successors from a closed set without `n` closes no cycle. -/
theorem Acyclic.redirect (h : Acyclic R) (hother : ∀ a b, a ≠ n → R' a b → R a b) (hn : n ∉ S)
    (hclosed : ∀ x ∈ S, ∀ y, R x y → y ∈ S) (hnew : ∀ b, R' n b → b ∈ S) : Acyclic R' := by
  have hclosed' : ∀ x ∈ S, ∀ y, R' x y → y ∈ S := by
    intro x hx y hstep
    have hne : x ≠ n := fun heq => hn (heq ▸ hx)
    exact hclosed x hx y (hother x y hne hstep)
  have hself : ¬ TransGen R' n n := by
    intro hcycle
    obtain ⟨b, hstep, hback⟩ := TransGen.head'_iff.1 hcycle
    exact hn (reachable_mem hclosed' (hnew b hstep) hback)
  intro a hcycle
  rcases transGen_or hother hcycle with hold | ⟨hto, hfrom⟩
  · exact h a hold
  · exact hself (hfrom.trans_left hto)

/-- An acyclic relation whose sources are finitely many is well-founded. -/
theorem Acyclic.wellFounded (h : Acyclic R) (hfinite : {a | ∃ b, R a b}.Finite) : WellFounded fun b a => R a b := by
  let V := {a | ∃ b, R a b}
  have : Finite V := hfinite
  have hV : WellFounded fun b a : V => TransGen R a.1 b.1 := by
    have : IsTrans V fun b a => TransGen R a.1 b.1 := ⟨fun _ _ _ hab hbc => hbc.trans hab⟩
    have : Std.Irrefl fun b a : V => TransGen R a.1 b.1 := ⟨fun a => h a.1⟩
    exact Finite.wellFounded_of_trans_of_irrefl _
  have hacc : ∀ a : V, Acc (fun b a => R a b) a.1 := by
    intro a
    induction a using hV.induction with
    | h a ih =>
      refine ⟨_, fun b hstep => ?_⟩
      by_cases hb : b ∈ V
      · exact ih ⟨b, hb⟩ (.single hstep)
      · exact ⟨_, fun c hstep' => absurd ⟨c, hstep'⟩ hb⟩
  refine ⟨fun a => ?_⟩
  by_cases ha : a ∈ V
  · exact hacc ⟨a, ha⟩
  · exact ⟨_, fun b hstep => absurd ⟨b, hstep⟩ ha⟩

end Cycles
