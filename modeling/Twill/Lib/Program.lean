/-
Programs that talk to a handler: a tree of calls, each with the program that
follows every answer. A handler answers a call from a state and moves the state,
so a program runs on a state.

What every call preserves, a whole program preserves (`run_invariant`); two states
that every call keeps in step answer a program alike (`run_related`).
-/
import Mathlib

universe u v w

/-- A program whose calls are `Op`s, answered in `Res`. -/
inductive Program (Op : Type u) (Res : Op → Type v) (α : Type w) where
  | ret (a : α)
  | call (op : Op) (k : Res op → Program Op Res α)

namespace Program

variable {Op : Type u} {Res : Op → Type v} {α β S : Type v}

def bind (p : Program Op Res α) (f : α → Program Op Res β) : Program Op Res β := match p with
  | .ret a => f a
  | .call op k => .call op fun r => (k r).bind f

instance : Monad (Program Op Res) where
  pure := .ret
  bind := .bind

/-- The program of one call. -/
def op (o : Op) : Program Op Res (Res o) := .call o .ret

/-- The result of a program and the state it leaves, under a handler. -/
def run (h : (o : Op) → S → Res o × S) : Program Op Res α → S → α × S
  | .ret a, s => (a, s)
  | .call o k, s => (k (h o s).1).run h (h o s).2

/-- A program with each call replaced by a program that answers it. -/
def interpret {Op' : Type u} {Res' : Op' → Type v} (f : (o : Op') → Program Op Res (Res' o)) :
    Program Op' Res' α → Program Op Res α
  | .ret a => .ret a
  | .call o k => (f o).bind fun r => (k r).interpret f

variable {h : (o : Op) → S → Res o × S}

@[simp] theorem run_pure (a : α) (s : S) : (pure a : Program Op Res α).run h s = (a, s) := rfl

@[simp] theorem run_op (o : Op) (s : S) : (op o : Program Op Res (Res o)).run h s = h o s := rfl

@[simp] theorem run_bind (p : Program Op Res α) (f : α → Program Op Res β) (s : S) :
    (p >>= f).run h s = (f (p.run h s).1).run h (p.run h s).2 := by
  induction p generalizing s with
  | ret a => rfl
  | call o k ih => exact ih (h o s).1 (h o s).2

/-- Interpreting a program is running it under the handler that runs the interpretations. -/
theorem run_interpret {Op' : Type u} {Res' : Op' → Type v} (f : (o : Op') → Program Op Res (Res' o))
    (p : Program Op' Res' α) (s : S) : (p.interpret f).run h s = p.run (fun o s => (f o).run h s) s := by
  induction p generalizing s with
  | ret a => rfl
  | call o k ih => exact (run_bind (f o) _ s).trans (ih _ _)

/-- **The rule of invariants**: what every call preserves, a program preserves. -/
theorem run_invariant {I : S → Prop} (hop : ∀ o s, I s → I (h o s).2) (p : Program Op Res α) {s : S} (hs : I s) :
    I (p.run h s).2 := by
  induction p generalizing s with
  | ret a => exact hs
  | call o k ih => exact ih _ (hop o s hs)

/-- **The rule of simulation**: a program cannot tell states apart that no call tells
apart. -/
theorem run_related {T : Type v} {g : (o : Op) → T → Res o × T} {R : S → T → Prop}
    (hop : ∀ o s t, R s t → (h o s).1 = (g o t).1 ∧ R (h o s).2 (g o t).2) (p : Program Op Res α) {s : S} {t : T}
    (hst : R s t) : (p.run h s).1 = (p.run g t).1 ∧ R (p.run h s).2 (p.run g t).2 := by
  induction p generalizing s t with
  | ret a => exact ⟨rfl, hst⟩
  | call o k ih =>
    obtain ⟨hanswer, hnext⟩ := hop o s t hst
    have hrest := ih (h o s).1 hnext
    rw [hanswer] at hrest
    rw [run, run, hanswer]
    exact hrest

/-- Every call a program can make satisfies `P`. -/
def Only (P : Op → Prop) : Program Op Res α → Prop
  | .ret _ => True
  | .call o k => P o ∧ ∀ r, (k r).Only P

theorem only_pure {P : Op → Prop} (a : α) : (pure a : Program Op Res α).Only P := trivial

theorem only_op {P : Op → Prop} {o : Op} (h : P o) : (op o : Program Op Res (Res o)).Only P := ⟨h, fun _ => trivial⟩

theorem only_bind {P : Op → Prop} {p : Program Op Res α} {f : α → Program Op Res β} (hp : p.Only P)
    (hf : ∀ a, (f a).Only P) : (p >>= f).Only P := by
  induction p with
  | ret a => exact hf a
  | call o k ih => exact ⟨hp.1, fun r => ih r (hp.2 r)⟩

theorem only_liftT {P : Op → Prop} {ε : Type v} {p : Program Op Res α} (hp : p.Only P) :
    (ExceptT.lift p : ExceptT ε (Program Op Res) α).run.Only P := only_bind hp fun _ => only_pure _

/-- A program that may stop: the calls of what follows a stop do not matter. -/
theorem only_bindT {P : Op → Prop} {ε : Type v} {p : ExceptT ε (Program Op Res) α} {f : α → ExceptT ε (Program Op Res) β}
    (hp : p.run.Only P) (hf : ∀ a, (f a).run.Only P) : (p >>= f).run.Only P := by
  refine only_bind hp fun r => ?_
  cases r with
  | error e => exact only_pure _
  | ok a => exact hf a

theorem only_of_forall {P : Op → Prop} (h : ∀ o, P o) (p : Program Op Res α) : p.Only P := by
  induction p with
  | ret a => trivial
  | call o k ih => exact ⟨h o, ih⟩

theorem only_interpret {Op' : Type u} {Res' : Op' → Type v} {P : Op → Prop} {Q : Op' → Prop}
    {f : (o : Op') → Program Op Res (Res' o)} (hf : ∀ o, Q o → (f o).Only P) {p : Program Op' Res' α}
    (hp : p.Only Q) : (p.interpret f).Only P := by
  induction p with
  | ret a => trivial
  | call o k ih => exact only_bind (hf o hp.1) fun r => ih r (hp.2 r)

/-- What the calls a program makes preserve, it preserves. -/
theorem run_only {P : Op → Prop} {I : S → Prop} (hop : ∀ o s, P o → I s → I (h o s).2) {p : Program Op Res α}
    (hp : p.Only P) {s : S} (hs : I s) : I (p.run h s).2 := by
  induction p generalizing s with
  | ret a => exact hs
  | call o k ih => exact ih _ (hp.2 _) (hop o s hp.1 hs)

/-! ## Programs that may stop: pre- and postconditions -/

variable {ε ε' : Type v}

/-- A program with its stop as an answer. -/
def attempt (p : ExceptT ε (Program Op Res) α) : ExceptT ε' (Program Op Res) (Except ε α) :=
  ExceptT.mk (p.run >>= fun r => pure (.ok r))

/-- An end with an answer and a state in `Q`, or a stop with an error and a state in `E`. -/
def Outcome (Q : α → S → Prop) (E : ε → S → Prop) : Except ε α × S → Prop
  | (.ok a, s) => Q a s
  | (.error e, s) => E e s

/-- From a state with `P`, a program ends in `Q` or stops in `E`. -/
def Triple (h : (o : Op) → S → Res o × S) (P : S → Prop) (p : ExceptT ε (Program Op Res) α) (Q : α → S → Prop)
    (E : ε → S → Prop) : Prop :=
  ∀ s, P s → Outcome Q E (p.run.run h s)

variable {P : S → Prop} {Q : α → S → Prop} {E : ε → S → Prop}

theorem Triple.pure {a : α} (hpre : ∀ s, P s → Q a s) : Triple h P (pure a : ExceptT ε (Program Op Res) α) Q E :=
  hpre

theorem Triple.throw {e : ε} (hpre : ∀ s, P s → E e s) : Triple h P (throw e : ExceptT ε (Program Op Res) α) Q E :=
  hpre

theorem Triple.pre {P' : S → Prop} {p : ExceptT ε (Program Op Res) α} (hp : Triple h P p Q E)
    (hpre : ∀ s, P' s → P s) : Triple h P' p Q E := fun s hs => hp s (hpre s hs)

theorem Triple.stop {E' : ε → S → Prop} {p : ExceptT ε (Program Op Res) α} (hp : Triple h P p Q E)
    (hstop : ∀ e s, E e s → E' e s) : Triple h P p Q E' := by
  intro s hs
  have hend := hp s hs
  generalize p.run.run h s = r at hend
  obtain ⟨e | a, s'⟩ := r
  · exact hstop e s' hend
  · exact hend

theorem Triple.bind {p : ExceptT ε (Program Op Res) α} {f : α → ExceptT ε (Program Op Res) β}
    {R : β → S → Prop} (hp : Triple h P p Q E) (hf : ∀ a, Triple h (Q a) (f a) R E) :
    Triple h P (p >>= f) R E := by
  intro s hs
  have hfirst := hp s hs
  change Outcome R E ((p.run >>= ExceptT.bindCont f : Program Op Res (Except ε β)).run h s)
  rw [run_bind]
  generalize p.run.run h s = r at hfirst
  obtain ⟨a | a, s'⟩ := r
  · exact hfirst
  · exact hf a s' hfirst

/-- A program whose stop is an answer stops nowhere. -/
theorem Triple.attempt {p : ExceptT ε (Program Op Res) α} {R : Except ε α → S → Prop} {F : ε' → S → Prop}
    (hp : Triple h P p (fun a => R (.ok a)) fun e => R (.error e)) : Triple h P (Program.attempt p) R F := by
  intro s hs
  have hfirst := hp s hs
  change Outcome R F ((p.run >>= fun r => Pure.pure (.ok r) : Program Op Res (Except ε' (Except ε α))).run h s)
  rw [run_bind]
  generalize p.run.run h s = r at hfirst
  obtain ⟨a | a, s'⟩ := r <;> exact hfirst

theorem Triple.adapt {p : ExceptT ε (Program Op Res) α} {g : ε → ε'} {F : ε' → S → Prop}
    (hp : Triple h P p Q fun e => F (g e)) : Triple h P (p.adapt g) Q F := by
  intro s hs
  have hfirst := hp s hs
  change Outcome Q F ((p.run >>= fun r => Pure.pure (r.mapError g) : Program Op Res (Except ε' α)).run h s)
  rw [run_bind]
  generalize p.run.run h s = r at hfirst
  obtain ⟨a | a, s'⟩ := r <;> exact hfirst

/-- **The rule of loops**: an invariant of what is left to do, kept by each turn. -/
theorem Triple.forM {γ : Type v} {f : γ → ExceptT ε (Program Op Res) PUnit} {I : List γ → S → Prop}
    (hf : ∀ a l, Triple h (I (a :: l)) (f a) (fun _ => I l) E) :
    ∀ l : List γ, Triple h (I l) (l.forM f) (fun _ => I []) E
  | [] => fun _ hs => hs
  | a :: l => (hf a l).bind fun _ => Triple.forM hf l

end Program
