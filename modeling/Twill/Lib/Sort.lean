/-
A stable sort by a comparator that may fail. An element moves before the ones
it is strictly less than, so equal elements keep their order; the first failing
comparison ends the sort.
-/
import Mathlib

namespace StableSort

variable {ε α : Type}

def insertBy (cmp : α → α → Except ε Ordering) (a : α) : List α → Except ε (List α)
  | [] => .ok [a]
  | b :: l => do
    match ← cmp a b with
    | .gt => return b :: (← insertBy cmp a l)
    | _ => return a :: b :: l

def sortBy (cmp : α → α → Except ε Ordering) : List α → Except ε (List α)
  | [] => .ok []
  | a :: l => do insertBy cmp a (← sortBy cmp l)

/-! ## What the sort answers -/

/-- The comparison orders the elements of a list. -/
structure Preorder (cmp : α → α → Ordering) (l : List α) : Prop where
  swap : ∀ a ∈ l, ∀ b ∈ l, cmp b a = (cmp a b).swap
  trans : ∀ a ∈ l, ∀ b ∈ l, ∀ d ∈ l, cmp a b ≠ .gt → cmp b d ≠ .gt → cmp a d ≠ .gt

/-- A stable arrangement of a list in the order of a comparison. -/
structure Sorts (cmp : α → α → Ordering) (l r : List α) : Prop where
  perm : r.Perm l
  ordered : r.Pairwise fun a b => cmp b a ≠ .lt
  stable : ∀ x ∈ l, r.filter (fun a => cmp x a == .eq) = l.filter fun a => cmp x a == .eq

variable {cmpE : α → α → Except ε Ordering} {cmp : α → α → Ordering} {l r : List α}

theorem ne_lt_iff (hpre : Preorder cmp l) {a b : α} (ha : a ∈ l) (hb : b ∈ l) : cmp b a ≠ .lt ↔ cmp a b ≠ .gt := by
  rw [hpre.swap a ha b hb]
  cases cmp a b <;> simp

theorem insertBy_ordered (hpre : Preorder cmp l) {a : α} (ha : a ∈ l) (hr : ∀ b ∈ r, b ∈ l)
    (hcmp : ∀ b ∈ r, cmpE a b = .ok (cmp a b)) (hordered : r.Pairwise fun a b => cmp b a ≠ .lt) :
    ∃ r', insertBy cmpE a r = .ok r' ∧ r'.Perm (a :: r) ∧ r'.Pairwise (fun a b => cmp b a ≠ .lt) ∧
      ∀ x ∈ l, r'.filter (fun b => cmp x b == .eq) = (a :: r).filter fun b => cmp x b == .eq := by
  induction r with
  | nil => exact ⟨[a], rfl, .refl _, List.pairwise_singleton _ _, fun x hx => rfl⟩
  | cons b r ih =>
    have hb : b ∈ l := hr b List.mem_cons_self
    have hr' : ∀ d ∈ r, d ∈ l := fun d hd => hr d (List.mem_cons_of_mem _ hd)
    obtain ⟨hfirst, hrest⟩ := List.pairwise_cons.1 hordered
    have hbefore (hle : cmp a b ≠ .gt) : (a :: b :: r).Pairwise (fun a b => cmp b a ≠ .lt) := by
      refine List.pairwise_cons.2 ⟨fun y hy => (ne_lt_iff hpre ha (hr y hy)).2 ?_, hordered⟩
      rcases List.mem_cons.1 hy with rfl | hyr
      · exact hle
      · have hby := (ne_lt_iff hpre hb (hr' y hyr)).1 (hfirst y hyr)
        exact hpre.trans a ha b hb y (hr' y hyr) hle hby
    rw [insertBy, hcmp b List.mem_cons_self]
    cases hab : cmp a b with
    | lt => exact ⟨a :: b :: r, rfl, .refl _, hbefore (by simp [hab]), fun x hx => rfl⟩
    | eq => exact ⟨a :: b :: r, rfl, .refl _, hbefore (by simp [hab]), fun x hx => rfl⟩
    | gt =>
      obtain ⟨r', hins, hperm, hord, hstable⟩ := ih hr' (fun d hd => hcmp d (List.mem_cons_of_mem _ hd)) hrest
      refine ⟨b :: r', by simp only [hins]; rfl, (hperm.cons b).trans (.swap a b r),
        List.pairwise_cons.2 ⟨fun y hy => ?_, hord⟩, fun x hx => ?_⟩
      · rcases List.mem_cons.1 (hperm.mem_iff.1 hy) with rfl | hyr
        · simp [hab]
        · exact hfirst y hyr
      · -- an element tied with `b`, which stays in front, is not tied with `a`
        have hnot (hxb : cmp x b = .eq) : cmp x a ≠ .eq := by
          intro hxa
          have hax : cmp a x ≠ .gt := by
            rw [hpre.swap x hx a ha, hxa]
            decide
          exact hpre.trans a ha x hx b hb hax (by simp [hxb]) hab
        rw [List.filter_cons, hstable x hx, List.filter_cons, List.filter_cons, List.filter_cons]
        cases hxb : cmp x b with
        | eq => simp [hnot hxb]
        | lt => simp
        | gt => simp

/-- **A sort by a preorder.** It succeeds with a stable arrangement in order. -/
theorem sortBy_sorts (hcmp : ∀ a ∈ l, ∀ b ∈ l, cmpE a b = .ok (cmp a b)) (hpre : Preorder cmp l) :
    ∃ r, sortBy cmpE l = .ok r ∧ Sorts cmp l r := by
  have hsub (s : List α) (hs : ∀ a ∈ s, a ∈ l) : ∃ r, sortBy cmpE s = .ok r ∧ r.Perm s ∧
      r.Pairwise (fun a b => cmp b a ≠ .lt) ∧
      ∀ x ∈ l, r.filter (fun a => cmp x a == .eq) = s.filter fun a => cmp x a == .eq := by
    induction s with
    | nil => exact ⟨[], rfl, .refl _, .nil, fun x hx => rfl⟩
    | cons a s ih =>
      have ha : a ∈ l := hs a List.mem_cons_self
      obtain ⟨r, hr, hperm, hord, hstable⟩ := ih fun b hb => hs b (List.mem_cons_of_mem _ hb)
      have hmem : ∀ b ∈ r, b ∈ l := fun b hb => hs b (List.mem_cons_of_mem _ (hperm.mem_iff.1 hb))
      obtain ⟨r', hr', hperm', hord', hstable'⟩ :=
        insertBy_ordered hpre ha hmem (fun b hb => hcmp a ha b (hmem b hb)) hord
      refine ⟨r', by simp only [sortBy, hr]; exact hr', hperm'.trans (hperm.cons a), hord', fun x hx => ?_⟩
      rw [hstable' x hx, List.filter_cons, List.filter_cons, hstable x hx]
  obtain ⟨r, hr, hperm, hord, hstable⟩ := hsub l fun a ha => ha
  exact ⟨r, hr, hperm, hord, hstable⟩

end StableSort
