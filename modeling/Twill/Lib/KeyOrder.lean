/-
Comparison by a list of keys, when a key may take two elements for tied without ordering
them.

Ties of one key need not be transitive. The comparison by the whole list is a preorder
exactly when no element sits between two others in the wrong order: tied with both at the
key that tells the two apart, and between them, the other way round, by the later keys.
-/
import Twill.Lib.Sort

namespace KeyOrder

variable {α : Type}

/-- The first comparison that tells two elements apart. -/
def lex : List (α → α → Ordering) → α → α → Ordering
  | [], _, _ => .eq
  | c :: cs, a, b => (c a b).then (lex cs a b)

/-- A comparison that is read the same from both sides, and never against its own order. -/
structure Key (c : α → α → Ordering) : Prop where
  swap : ∀ a b, c b a = (c a b).swap
  trans : ∀ a b d, c a b = .lt → c b d = .lt → c a d = .lt
  tie : ∀ a b d, c a b = .lt → c b d = .eq → c a d ≠ .gt

/-- `r` is tied with `p` and `q` where they are told apart, and stands between `q` and `p` by
the later keys. -/
def Straddled : List (α → α → Ordering) → α → α → α → Prop
  | [], _, _, _ => False
  | c :: cs, p, q, r =>
    (c p q = .lt ∧ c p r = .eq ∧ c q r = .eq ∧ lex cs q r ≠ .gt ∧ lex cs r p ≠ .gt) ∨
      (c p q = .eq ∧ c p r = .eq ∧ c q r = .eq ∧ Straddled cs p q r)

namespace Key

variable {c : α → α → Ordering} {a b d : α}

theorem eq_symm (h : Key c) (hab : c a b = .eq) : c b a = .eq := by
  rw [h.swap, hab]
  rfl

theorem gt_symm (h : Key c) (hab : c a b = .gt) : c b a = .lt := by
  rw [h.swap, hab]
  rfl

theorem lt_symm (h : Key c) (hab : c a b = .lt) : c b a = .gt := by
  rw [h.swap, hab]
  rfl

/-- A tie before a step up leads not down. -/
theorem tie' (h : Key c) (hab : c a b = .eq) (hbd : c b d = .lt) : c a d ≠ .gt := by
  intro had
  have hdb := h.tie d a b (h.gt_symm had) hab
  exact hdb (h.lt_symm hbd)

theorem comap {β : Type} (h : Key c) (f : β → α) : Key fun a b => c (f a) (f b) :=
  ⟨fun a b => h.swap (f a) (f b), fun a b d => h.trans (f a) (f b) (f d), fun a b d => h.tie (f a) (f b) (f d)⟩

end Key

variable {cs : List (α → α → Ordering)}

theorem lex_swap (hcs : ∀ c ∈ cs, Key c) (a b : α) : lex cs b a = (lex cs a b).swap := by
  induction cs with
  | nil => rfl
  | cons c cs ih =>
    rw [lex, lex, Ordering.swap_then, (hcs c List.mem_cons_self).swap a b,
      ih fun c hc => hcs c (List.mem_cons_of_mem _ hc)]

theorem lex_append (cs cs' : List (α → α → Ordering)) (a b : α) :
    lex (cs ++ cs') a b = (lex cs a b).then (lex cs' a b) := by
  induction cs with
  | nil => rfl
  | cons c cs ih => rw [List.cons_append, lex, lex, ih, Ordering.then_assoc]

theorem then_ne_gt {o o' : Ordering} : o.then o' ≠ .gt ↔ o = .lt ∨ (o = .eq ∧ o' ≠ .gt) := by
  cases o <;> simp [Ordering.then]

theorem then_eq_gt {o o' : Ordering} : o.then o' = .gt ↔ o = .gt ∨ (o = .eq ∧ o' = .gt) := by
  cases o <;> simp [Ordering.then]

/-- Three elements that break transitivity straddle. -/
theorem straddled_of_not_trans (hcs : ∀ c ∈ cs, Key c) {a b d : α} (hab : lex cs a b ≠ .gt) (hbd : lex cs b d ≠ .gt)
    (had : lex cs a d = .gt) : Straddled cs d a b ∨ Straddled cs a b d ∨ Straddled cs b d a := by
  induction cs with
  | nil => cases had
  | cons c cs ih =>
    have hc : Key c := hcs c List.mem_cons_self
    have hrest : ∀ c ∈ cs, Key c := fun c hc => hcs c (List.mem_cons_of_mem _ hc)
    have hflip (h : lex cs a d = .gt) : lex cs d a ≠ .gt := by
      rw [lex_swap hrest a d, h]
      decide
    rcases then_ne_gt.1 hab with hab | ⟨hab, hab'⟩
    · rcases then_ne_gt.1 hbd with hbd | ⟨hbd, hbd'⟩
      · have hlt := hc.trans a b d hab hbd
        rcases then_eq_gt.1 had with h | ⟨h, -⟩ <;> rw [hlt] at h <;> cases h
      · rcases then_eq_gt.1 had with h | ⟨h, had'⟩
        · exact absurd h (hc.tie a b d hab hbd)
        · exact .inr (.inl (.inl ⟨hab, h, hbd, hbd', hflip had'⟩))
    · rcases then_ne_gt.1 hbd with hbd | ⟨hbd, hbd'⟩
      · rcases then_eq_gt.1 had with h | ⟨h, had'⟩
        · exact absurd h (hc.tie' hab hbd)
        · exact .inr (.inr (.inl ⟨hbd, hc.eq_symm hab, hc.eq_symm h, hflip had', hab'⟩))
      · rcases then_eq_gt.1 had with h | ⟨h, had'⟩
        · exact .inl (.inl ⟨hc.gt_symm h, hc.eq_symm hbd, hab, hab', hbd'⟩)
        · rcases ih hrest hab' hbd' had' with hs | hs | hs
          · exact .inl (.inr ⟨hc.eq_symm h, hc.eq_symm hbd, hab, hs⟩)
          · exact .inr (.inl (.inr ⟨hab, h, hbd, hs⟩))
          · exact .inr (.inr (.inr ⟨hbd, hc.eq_symm hab, hc.eq_symm h, hs⟩))

theorem not_trans_of_straddled (hcs : ∀ c ∈ cs, Key c) {p q r : α} (h : Straddled cs p q r) :
    lex cs q r ≠ .gt ∧ lex cs r p ≠ .gt ∧ lex cs q p = .gt := by
  induction cs with
  | nil => exact absurd h id
  | cons c cs ih =>
    have hc : Key c := hcs c List.mem_cons_self
    rcases h with ⟨hpq, hpr, hqr, hle, hle'⟩ | ⟨hpq, hpr, hqr, hs⟩
    · exact ⟨then_ne_gt.2 (.inr ⟨hqr, hle⟩), then_ne_gt.2 (.inr ⟨hc.eq_symm hpr, hle'⟩),
        then_eq_gt.2 (.inl (hc.lt_symm hpq))⟩
    · obtain ⟨h1, h2, h3⟩ := ih (fun c hc => hcs c (List.mem_cons_of_mem _ hc)) hs
      exact ⟨then_ne_gt.2 (.inr ⟨hqr, h1⟩), then_ne_gt.2 (.inr ⟨hc.eq_symm hpr, h2⟩),
        then_eq_gt.2 (.inr ⟨hc.eq_symm hpq, h3⟩)⟩

/-- **When the comparison by keys is a preorder on the elements of a list.** -/
theorem trans_iff (hcs : ∀ c ∈ cs, Key c) (l : List α) :
    (∀ a ∈ l, ∀ b ∈ l, ∀ d ∈ l, lex cs a b ≠ .gt → lex cs b d ≠ .gt → lex cs a d ≠ .gt) ↔
      ∀ p ∈ l, ∀ q ∈ l, ∀ r ∈ l, ¬ Straddled cs p q r := by
  constructor
  · intro h p hp q hq r hr hs
    obtain ⟨h1, h2, h3⟩ := not_trans_of_straddled hcs hs
    exact h q hq r hr p hp h1 h2 h3
  · intro h a ha b hb d hd hab hbd had
    rcases straddled_of_not_trans hcs hab hbd had with hs | hs | hs
    · exact h d hd a ha b hb hs
    · exact h a ha b hb d hd hs
    · exact h b hb d hd a ha hs

end KeyOrder
