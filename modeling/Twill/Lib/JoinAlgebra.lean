/-
Joins of relational algebra on multisets of rows. A joined row is a pair in
which a missing side stands for the row of nulls. Nested loops that walk one
side and, for each of its rows, the matches on the other side, compute them
(`inner_eq_nested`, `left_eq_nested`).
-/
import Mathlib

namespace JoinAlgebra

variable {α β : Type*}

/-- The pairs that satisfy the condition. -/
def inner (θ : α → β → Bool) (L : Multiset α) (R : Multiset β) : Multiset (Option α × Option β) :=
  ((L ×ˢ R).filter fun p => θ p.1 p.2).map fun p => (some p.1, some p.2)

/-- The rows with no partner. -/
def unmatched (θ : α → β → Bool) (L : Multiset α) (R : Multiset β) : Multiset α :=
  L.filter fun a => ∀ b ∈ R, ¬ θ a b

def left (θ : α → β → Bool) (L : Multiset α) (R : Multiset β) : Multiset (Option α × Option β) :=
  inner θ L R + (unmatched θ L R).map fun a => (some a, none)

def right (θ : α → β → Bool) (L : Multiset α) (R : Multiset β) : Multiset (Option α × Option β) :=
  (left (fun b a => θ a b) R L).map Prod.swap

def full (θ : α → β → Bool) (L : Multiset α) (R : Multiset β) : Multiset (Option α × Option β) :=
  left θ L R + (unmatched (fun b a => θ a b) R L).map fun b => (none, some b)

/-! ## Nested loops -/

section Nested

variable (θ : α → β → Bool)

/-- The pairs of a row with its matches. -/
def hits (R : List β) (a : α) : List (Option α × Option β) := (R.filter (θ a)).map fun b => (some a, some b)

/-- The same, or the row alone when it has no match. -/
def hitsOrAlone (R : List β) (a : α) : List (Option α × Option β) :=
  if (hits θ R a).isEmpty then [(some a, none)] else hits θ R a

theorem inner_eq_nested (L : List α) (R : List β) :
    inner θ (L : Multiset α) (R : Multiset β) = (L.flatMap (hits θ R) : List (Option α × Option β)) := by
  unfold inner
  induction L with
  | nil => simp
  | cons a L ih =>
    rw [← Multiset.cons_coe, Multiset.cons_product, Multiset.filter_add, Multiset.map_add, ih, List.flatMap_cons,
      ← Multiset.coe_add]
    congr 1
    simp [hits, List.filter_map, Function.comp_def]

theorem hits_eq_nil {R : List β} {a : α} : hits θ R a = [] ↔ ∀ b ∈ R, ¬ θ a b := by
  simp [hits, List.filter_eq_nil_iff]

/-- A row is paired with its matches, or stands alone when it has none. -/
theorem left_eq_nested (L : List α) (R : List β) :
    left θ (L : Multiset α) (R : Multiset β) =
      (L.flatMap (hitsOrAlone θ R) : List (Option α × Option β)) := by
  unfold left
  rw [inner_eq_nested]
  unfold unmatched
  induction L with
  | nil => simp
  | cons a L ih =>
    rw [List.flatMap_cons, List.flatMap_cons, ← Multiset.coe_add, ← Multiset.coe_add, ← ih, ← Multiset.cons_coe]
    unfold hitsOrAlone
    by_cases h : ∀ b ∈ R, ¬ θ a b
    · rw [Multiset.filter_cons_of_pos _ (by simpa using h), (hits_eq_nil θ).2 h]
      simp [Multiset.singleton_add]
    · rw [Multiset.filter_cons_of_neg _ (by simpa using h)]
      have hne : hits θ R a ≠ [] := fun hnil => h ((hits_eq_nil θ).1 hnil)
      rw [if_neg (by simpa using hne), add_assoc]

end Nested

end JoinAlgebra
