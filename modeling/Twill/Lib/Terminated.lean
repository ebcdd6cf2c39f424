/-
Fields written one after another, each ended by a separator, and when the fields can be
read back.
-/
import Mathlib

namespace Terminated

variable {α : Type} {sep : α}

/-- The fields, each with its separator. -/
def join (sep : α) (fields : List (List α)) : List α := fields.flatMap (· ++ [sep])

@[simp] theorem join_nil : join sep [] = [] := rfl

@[simp] theorem join_cons (f : List α) (fields : List (List α)) :
    join sep (f :: fields) = f ++ sep :: join sep fields := by
  simp [join]

theorem join_append (a b : List (List α)) : join sep (a ++ b) = join sep a ++ join sep b := List.flatMap_append

theorem join_flatMap {β : Type} (l : List β) (fields : β → List (List α)) :
    join sep (l.flatMap fields) = l.flatMap fun b => join sep (fields b) := by
  induction l with
  | nil => rfl
  | cons b l ih => rw [List.flatMap_cons, List.flatMap_cons, join_append, ih]

variable [DecidableEq α]

/-- The pieces of a cut text, each ended, are the text, ended. -/
theorem join_splitOn (l : List α) : join sep (l.splitOn sep) = l ++ [sep] := by
  induction l with
  | nil => simp [List.splitOn_nil]
  | cons x l ih =>
    rw [List.splitOn_cons_eq_if_modifyHead]
    by_cases hx : x = sep
    · simp [hx, ih]
    · obtain ⟨piece, pieces, hsplit⟩ := List.exists_cons_of_ne_nil (List.splitOn_ne_nil sep l)
      rw [hsplit, join_cons] at ih
      simp [hx, hsplit, ih]

theorem not_mem_of_mem_splitOn {l piece : List α} (h : piece ∈ l.splitOn sep) : sep ∉ piece := by
  induction l generalizing piece with
  | nil => simp_all [List.splitOn_nil]
  | cons x l ih =>
    rw [List.splitOn_cons_eq_if_modifyHead] at h
    by_cases hx : x = sep
    · simp only [hx, beq_self_eq_true, if_true, List.mem_cons] at h
      rcases h with rfl | h
      · simp
      · exact ih h
    · obtain ⟨first, pieces, hsplit⟩ := List.exists_cons_of_ne_nil (List.splitOn_ne_nil sep l)
      simp only [beq_iff_eq, hx, if_false, hsplit, List.modifyHead_cons, List.mem_cons] at h
      rcases h with rfl | h
      · rw [List.mem_cons, not_or]
        exact ⟨Ne.symm hx, ih (hsplit ▸ List.mem_cons_self)⟩
      · exact ih (hsplit ▸ List.mem_cons_of_mem first h)

/-- **Fields without the separator can be read back.** -/
theorem join_injective {a b : List (List α)} (ha : ∀ f ∈ a, sep ∉ f) (hb : ∀ f ∈ b, sep ∉ f)
    (h : join sep a = join sep b) : a = b := by
  induction a generalizing b with
  | nil =>
    cases b with
    | nil => rfl
    | cons g b => simp at h
  | cons f a ih =>
    cases b with
    | nil => simp at h
    | cons g b =>
      rw [join_cons, join_cons] at h
      have hsplit := congrArg (List.splitOn sep) h
      rw [List.splitOn_append_cons_self_of_not_mem (ha f List.mem_cons_self),
        List.splitOn_append_cons_self_of_not_mem (hb g List.mem_cons_self)] at hsplit
      obtain rfl := (List.cons.inj hsplit).1
      have hrest : join sep a = join sep b := (List.cons.inj (List.append_cancel_left h)).2
      rw [ih (fun x hx => ha x (List.mem_cons_of_mem f hx)) (fun x hx => hb x (List.mem_cons_of_mem f hx)) hrest]

end Terminated
