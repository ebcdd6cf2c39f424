/-
Taking computations in `Except` apart: what a bind answers, and what loops over
a list answer.
-/
import Mathlib

namespace Except

variable {ε α β : Type}

@[simp] theorem ok_bind (a : α) (f : α → Except ε β) : (Except.ok a >>= f) = f a := rfl

@[simp] theorem error_bind (e : ε) (f : α → Except ε β) : (Except.error e >>= f) = .error e := rfl

@[simp] theorem pure_eq (a : α) : (pure a : Except ε α) = .ok a := rfl

@[simp] theorem throw_eq (e : ε) : (throw e : Except ε α) = .error e := rfl

theorem bind_eq_ok {x : Except ε α} {f : α → Except ε β} {b : β} :
    (x >>= f) = .ok b ↔ ∃ a, x = .ok a ∧ f a = .ok b := by
  cases x with
  | error e => simp
  | ok a => simp

/-- Two continuations that agree on what the computation answers. -/
theorem bind_congr_ok {x : Except ε α} {f g : α → Except ε β} (h : ∀ a, x = .ok a → f a = g a) :
    (x >>= f) = (x >>= g) := by
  cases x with
  | error e => rfl
  | ok a => exact h a rfl

/-- Two loops whose bodies agree at the elements of the list. -/
theorem foldlM_congr {f g : β → α → Except ε β} : ∀ {l : List α}, (∀ a ∈ l, ∀ b, f b a = g b a) →
    ∀ b, l.foldlM f b = l.foldlM g b
  | [], _, _ => rfl
  | a :: l, h, b => by
    rw [List.foldlM_cons, List.foldlM_cons, h a List.mem_cons_self b]
    exact bind_congr_ok fun b' _ => foldlM_congr (fun c hc => h c (List.mem_cons_of_mem _ hc)) b'

/-- A loop that answers `ok` ran its body to `ok` on every element. -/
theorem forM_eq_ok {f : α → Except ε Unit} :
    ∀ {l : List α}, l.forM f = .ok () ↔ ∀ a ∈ l, f a = .ok ()
  | [] => by simp [List.forM]
  | a :: l => by
    have hcons : (a :: l).forM f = (f a >>= fun _ => l.forM f) := rfl
    rw [hcons, bind_eq_ok]
    constructor
    · rintro ⟨⟨⟩, ha, hl⟩ b hb
      rcases List.mem_cons.1 hb with rfl | hb
      · exact ha
      · exact forM_eq_ok.1 hl b hb
    · intro h
      exact ⟨(), h a (by simp), forM_eq_ok.2 fun b hb => h b (by simp [hb])⟩

theorem mapM_cons_eq (f : α → Except ε β) (a : α) (l : List α) :
    (a :: l).mapM f = (f a >>= fun b => l.mapM f >>= fun bs => .ok (b :: bs)) := by
  rw [List.mapM_cons]
  rfl

/-- Two maps whose functions agree at the elements of the list. -/
theorem mapM_congr {f g : α → Except ε β} : ∀ {l : List α}, (∀ a ∈ l, f a = g a) → l.mapM f = l.mapM g
  | [], _ => rfl
  | a :: l, h => by
    rw [mapM_cons_eq, mapM_cons_eq, h a List.mem_cons_self, mapM_congr fun b hb => h b (List.mem_cons_of_mem _ hb)]

/-- A map that answers `ok` answered `ok` at every element, in order. -/
theorem mapM_eq_ok {f : α → Except ε β} :
    ∀ {l : List α} {bs : List β}, l.mapM f = .ok bs ↔ List.Forall₂ (fun a b => f a = .ok b) l bs
  | [], bs => by
    rw [List.mapM_nil]
    cases bs <;> simp
  | a :: l, bs => by
    rw [mapM_cons_eq, bind_eq_ok]
    constructor
    · rintro ⟨b, hb, hrest⟩
      obtain ⟨bs', hbs', heq⟩ := bind_eq_ok.1 hrest
      obtain rfl : b :: bs' = bs := by simpa using heq
      exact .cons hb (mapM_eq_ok.1 hbs')
    · rintro (_ | ⟨hb, hbs⟩)
      exact ⟨_, hb, bind_eq_ok.2 ⟨_, mapM_eq_ok.2 hbs, rfl⟩⟩

/-- Each answer of a map comes from some element. -/
theorem exists_of_forall₂ {γ : Type*} {δ : Type*} {R : γ → δ → Prop} :
    ∀ {l : List γ} {l' : List δ}, List.Forall₂ R l l' → ∀ b ∈ l', ∃ a ∈ l, R a b
  | _, _, .cons (a := a) hab hrest, b, hb => by
    rcases List.mem_cons.1 hb with rfl | hb
    · exact ⟨a, List.mem_cons_self, hab⟩
    · obtain ⟨a', ha', hab'⟩ := exists_of_forall₂ hrest b hb
      exact ⟨a', List.mem_cons_of_mem _ ha', hab'⟩

end Except
