/-
Parsers over a cursor: the tokens ahead, and some state beside them.

What such a parser takes can be cut out of its text: with an end token after it, the piece
makes the parser answer the same. `Cut` says so of two parsers, the one that ran and the one
that is to run on the piece, and has a rule for each way to put parsers together. The piece
may be spelled anew token by token, and parsers that call themselves are compared up to a
bound on the tokens they take, so that the two may recurse to different depths.
-/
import Mathlib

namespace Cursor

variable {τ σ ε α β γ : Type}

/-- What a parser makes of the tokens ahead, and what it leaves of them. -/
def Parser (τ σ ε α : Type) := List τ → σ → Except ε (α × List τ × σ)

namespace Parser

instance : Monad (Parser τ σ ε) where
  pure a := fun ts s => .ok (a, ts, s)
  bind p q := fun ts s => match p ts s with
    | .ok (a, ts, s) => q a ts s
    | .error e => .error e

def fail (e : List τ → ε) : Parser τ σ ε α := fun ts _ => .error (e ts)

/-- Something about the tokens ahead, none of which is taken. -/
def look (g : List τ → α) : Parser τ σ ε α := fun ts s => .ok (g ts, ts, s)

/-- The next token, if it is one of those wanted. -/
def accept (g : τ → Option α) : Parser τ σ ε (Option α) := fun ts s => match ts.head?.bind g with
  | some a => .ok (some a, ts.tail, s)
  | none => .ok (none, ts, s)

/-- Whether the next token was the one wanted; if it was, it is taken. -/
def eat (g : τ → Bool) : Parser τ σ ε Bool := do
  return (← accept fun t => if g t then some () else none).isSome

/-- The next token, which has to be one of those wanted, with what it does to the state. -/
def next (g : τ → Option (σ → α × σ)) (e : List τ → ε) : Parser τ σ ε α := fun ts s =>
  match ts.head?.bind g with
  | some act => .ok ((act s).1, ts.tail, (act s).2)
  | none => .error (e ts)

/-- The next token is taken, whatever it is. -/
def bump (e : ε) : Parser τ σ ε Unit := next (fun _ => some fun s => ((), s)) fun _ => e

def whileFuel (e : ε) (guard : α → Parser τ σ ε (Option γ)) (body : α → γ → Parser τ σ ε α) :
    ℕ → α → Parser τ σ ε α
  | 0, _ => fail fun _ => e
  | fuel + 1, a => do
    match ← guard a with
    | some c => whileFuel e guard body fuel (← body a c)
    | none => return a

/-- A loop that goes on as long as its guard finds something, which takes a token. -/
def whileSome (e : ε) (guard : α → Parser τ σ ε (Option γ)) (body : α → γ → Parser τ σ ε α) (a : α) :
    Parser τ σ ε α := fun ts s => whileFuel e guard body (ts.length + 1) a ts s

theorem bind_eq_ok {p : Parser τ σ ε α} {q : α → Parser τ σ ε β} {ts ts' : List τ} {s s' : σ} {b : β} :
    (p >>= q) ts s = .ok (b, ts', s') ↔ ∃ a us t, p ts s = .ok (a, us, t) ∧ q a us t = .ok (b, ts', s') := by
  change (match p ts s with | .ok (a, ts, s) => q a ts s | .error e => .error e) = _ ↔ _
  constructor
  · intro h
    cases hp : p ts s with
    | error e => rw [hp] at h; cases h
    | ok r => exact ⟨r.1, r.2.1, r.2.2, rfl, by rw [hp] at h; exact h⟩
  · rintro ⟨a, us, t, hp, hq⟩
    rw [hp]
    exact hq

theorem accept_some {g : τ → Option α} {ts : List τ} {a : α} (h : ts.head?.bind g = some a) (s : σ) :
    accept g ts s = (.ok (some a, ts.tail, s) : Except ε _) := by
  rw [accept, h]

theorem accept_none {g : τ → Option α} {ts : List τ} (h : ts.head?.bind g = none) (s : σ) :
    accept g ts s = (.ok (none, ts, s) : Except ε _) := by
  rw [accept, h]

theorem next_some {g : τ → Option (σ → α × σ)} {e : List τ → ε} {ts : List τ} {act : σ → α × σ}
    (h : ts.head?.bind g = some act) (s : σ) : next g e ts s = .ok ((act s).1, ts.tail, (act s).2) := by
  rw [next, h]

theorem next_none {g : τ → Option (σ → α × σ)} {e : List τ → ε} {ts : List τ} (h : ts.head?.bind g = none) (s : σ) :
    next g e ts s = .error (e ts) := by
  rw [next, h]

end Parser

open Cursor.Parser

/-- How a piece is spelled when it is on its own: each token anew, and the end token after
the last. A quiet token is read without the state. -/
structure Spelling (τ : Type) where
  token : τ → τ
  stop : τ
  Quiet : τ → Prop

variable (S : Spelling τ)

/-- The piece on its own. -/
def Spelling.alone (l : List τ) : List τ := l.map S.token ++ [S.stop]

/-- Two states that make no difference to the reading of a piece. -/
def Spelling.Agree (l : List τ) (s s' : σ) : Prop := s = s' ∨ ∀ t ∈ l, S.Quiet t

/-- `p` takes `n a` tokens when it answers `a`, or more. Of a piece that `p` starts, and of
which it takes fewer than `k` tokens, `p'` makes the same when the piece is on its own. -/
structure Cut (k : ℕ) (n : α → ℕ) (p p' : Parser τ σ ε α) : Prop where
  takes : ∀ {ts s a ts' s'}, p ts s = .ok (a, ts', s') → ∃ u, ts = u ++ ts' ∧ n a ≤ u.length
  alone : ∀ {u v rest s s' a s₁}, u.length < k → S.Agree (u ++ v) s s' → p (u ++ (v ++ rest)) s = .ok (a, v ++ rest, s₁) →
    ∃ s₁', p' (S.alone (u ++ v)) s' = .ok (a, S.alone v, s₁') ∧ S.Agree v s₁ s₁'

variable {S}

theorem Spelling.Agree.right {u v : List τ} {s s' : σ} (h : S.Agree (u ++ v) s s') : S.Agree v s s' :=
  h.imp_right fun h t ht => h t (List.mem_append_right u ht)

/-- Nothing is taken when what is left is all there was. -/
theorem eq_nil_of_append {u l : List τ} (h : u ++ l = l) : u = [] := by
  simpa using h

theorem eq_singleton_of_tail {u l : List τ} (hne : u ++ l ≠ []) (h : (u ++ l).tail = l) : ∃ t, u = [t] := by
  cases u with
  | nil =>
    cases l with
    | nil => exact absurd rfl hne
    | cons t l => exact absurd (congrArg List.length h) (by simp)
  | cons t u => exact ⟨t, by rw [eq_nil_of_append h]⟩

/-- A token that is not wanted where the piece stood is not wanted after it either. -/
theorem wanted_alone {g : τ → Option γ} (hg : ∀ t, g (S.token t) = g t) (hstop : g S.stop = none) {v rest : List τ}
    (h : (v ++ rest).head?.bind g = none) : (S.alone v).head?.bind g = none := by
  cases v with
  | nil => exact hstop
  | cons t v => exact (hg t).trans h

namespace Cut

variable {k : ℕ} {n : α → ℕ} {p p' : Parser τ σ ε α}

theorem mono (h : Cut S k n p p') {k' : ℕ} {n' : α → ℕ} (hk : k' ≤ k) (hn : ∀ a, n' a ≤ n a) : Cut S k' n' p p' where
  takes hp := by
    obtain ⟨u, hu, hlen⟩ := h.takes hp
    exact ⟨u, hu, (hn _).trans hlen⟩
  alone hu := h.alone (hu.trans_le hk)

theorem pure {a : α} (hn : n a = 0) : Cut S k n (Pure.pure a : Parser τ σ ε α) (Pure.pure a) where
  takes hp := by
    cases hp
    exact ⟨[], rfl, hn.le⟩
  alone {u v rest s s' b s₁} _ hagree hp := by
    obtain ⟨rfl, hleft⟩ := Prod.mk.inj (Except.ok.inj hp)
    obtain ⟨hrest, rfl⟩ := Prod.mk.inj hleft
    obtain rfl := eq_nil_of_append hrest
    exact ⟨s', rfl, hagree⟩

theorem fail (e e' : List τ → ε) : Cut S k n (Parser.fail e : Parser τ σ ε α) (Parser.fail e') where
  takes hp := by cases hp
  alone _ _ hp := by cases hp

/-- One parser after another: the second has the fewer tokens to take. -/
theorem bind {m : β → ℕ} {r : α → ℕ} {p p' : Parser τ σ ε α} {q q' : α → Parser τ σ ε β} (hp : Cut S k r p p')
    (hq : ∀ a, Cut S (k - r a) (fun b => m b - r a) (q a) (q' a)) : Cut S k m (p >>= q) (p' >>= q') where
  takes h := by
    obtain ⟨a, us, t, hpa, hqa⟩ := bind_eq_ok.1 h
    obtain ⟨u, rfl, hu⟩ := hp.takes hpa
    obtain ⟨w, rfl, hw⟩ := (hq a).takes hqa
    refine ⟨u ++ w, by rw [List.append_assoc], ?_⟩
    rw [List.length_append]
    omega
  alone {u v rest s s' b s₁} hk hagree h := by
    obtain ⟨a, us, t, hpa, hqa⟩ := bind_eq_ok.1 h
    obtain ⟨u₁, hu₁, hlen⟩ := hp.takes hpa
    obtain ⟨u₂, rfl, -⟩ := (hq a).takes hqa
    obtain rfl : u = u₁ ++ u₂ := by
      rw [← List.append_assoc u₁] at hu₁
      exact List.append_cancel_right hu₁
    rw [List.length_append] at hk
    rw [List.append_assoc] at hagree hpa
    obtain ⟨t', hp', hagree'⟩ := hp.alone (u := u₁) (v := u₂ ++ v) (by omega) hagree
      (by rw [List.append_assoc]; exact hpa)
    obtain ⟨s₁', hq', hagree''⟩ := (hq a).alone (by omega) hagree' hqa
    refine ⟨s₁', ?_, hagree''⟩
    rw [List.append_assoc]
    exact bind_eq_ok.2 ⟨a, _, t', hp', hq'⟩

/-- A branch on whether something was there. -/
theorem ite {m : Bool → ℕ} {p p' q q' : Parser τ σ ε α} (hp : Cut S (k - m true) (fun a => n a - m true) p p')
    (hq : Cut S (k - m false) (fun a => n a - m false) q q') (b : Bool) :
    Cut S (k - m b) (fun a => n a - m b) (if b then p else q) (if b then p' else q') := by
  cases b with
  | true => exact hp
  | false => exact hq

/-- What a wanted token counts for. -/
def one : Option γ → ℕ
  | none => 0
  | some _ => 1

theorem accept {g : τ → Option γ} (hg : ∀ t, g (S.token t) = g t) (hstop : g S.stop = none) :
    Cut S k one (Parser.accept g : Parser τ σ ε (Option γ)) (Parser.accept g) where
  takes {ts s a ts' s'} hp := by
    cases hw : ts.head?.bind g with
    | none =>
      obtain ⟨rfl, hleft⟩ := Prod.mk.inj (Except.ok.inj ((accept_none hw s).symm.trans hp))
      exact ⟨[], (Prod.mk.inj hleft).1, le_rfl⟩
    | some c =>
      obtain ⟨rfl, hleft⟩ := Prod.mk.inj (Except.ok.inj ((accept_some hw s).symm.trans hp))
      obtain ⟨t, ts, rfl⟩ : ∃ t us, ts = t :: us := List.exists_cons_of_ne_nil (by rintro rfl; cases hw)
      exact ⟨[t], congrArg (t :: ·) (Prod.mk.inj hleft).1, le_rfl⟩
  alone {u v rest s s' a s₁} _ hagree hp := by
    cases hw : (u ++ (v ++ rest)).head?.bind g with
    | none =>
      obtain ⟨rfl, hleft⟩ := Prod.mk.inj (Except.ok.inj ((accept_none hw s).symm.trans hp))
      obtain ⟨hrest, rfl⟩ := Prod.mk.inj hleft
      obtain rfl := eq_nil_of_append hrest
      exact ⟨s', accept_none (wanted_alone (v := v) hg hstop hw) s', hagree⟩
    | some c =>
      obtain ⟨rfl, hleft⟩ := Prod.mk.inj (Except.ok.inj ((accept_some hw s).symm.trans hp))
      obtain ⟨hrest, rfl⟩ := Prod.mk.inj hleft
      obtain ⟨t, rfl⟩ := eq_singleton_of_tail (by rintro heq; rw [heq] at hw; cases hw) hrest
      have hhead : (S.alone ([t] ++ v)).head?.bind g = some c := (hg t).trans hw
      have hrun : Parser.accept g (S.alone ([t] ++ v)) s' = (.ok (some c, S.alone v, s') : Except ε _) :=
        accept_some hhead s'
      exact ⟨s', hrun, hagree.right⟩

theorem eat {g : τ → Bool} (hg : ∀ t, g (S.token t) = g t) (hstop : g S.stop = false) :
    Cut S k Bool.toNat (Parser.eat g : Parser τ σ ε Bool) (Parser.eat g) := by
  refine (accept (fun t => by rw [hg]) (by rw [hstop]; rfl)).bind fun o => ?_
  cases o with
  | none => exact pure rfl
  | some u => exact pure rfl

/-- A token that is taken, and what it does to the state: a quiet one answers the same from
any state. -/
theorem next {g : τ → Option (σ → α × σ)} {e e' : List τ → ε} (hg : ∀ t, g (S.token t) = g t)
    (hquiet : ∀ t act, S.Quiet t → g t = some act → ∀ s s', (act s).1 = (act s').1) :
    Cut S k (fun _ => 1) (Parser.next g e) (Parser.next g e') where
  takes {ts s a ts' s'} hp := by
    cases hw : ts.head?.bind g with
    | none => cases (next_none hw s).symm.trans hp
    | some act =>
      obtain ⟨rfl, hleft⟩ := Prod.mk.inj (Except.ok.inj ((next_some hw s).symm.trans hp))
      obtain ⟨t, ts, rfl⟩ : ∃ t us, ts = t :: us := List.exists_cons_of_ne_nil (by rintro rfl; cases hw)
      exact ⟨[t], congrArg (t :: ·) (Prod.mk.inj hleft).1, le_rfl⟩
  alone {u v rest s s' a s₁} _ hagree hp := by
    cases hw : (u ++ (v ++ rest)).head?.bind g with
    | none => cases (next_none hw s).symm.trans hp
    | some act =>
      obtain ⟨rfl, hleft⟩ := Prod.mk.inj (Except.ok.inj ((next_some hw s).symm.trans hp))
      obtain ⟨hrest, rfl⟩ := Prod.mk.inj hleft
      obtain ⟨t, rfl⟩ := eq_singleton_of_tail (by rintro heq; rw [heq] at hw; cases hw) hrest
      have hhead : (S.alone ([t] ++ v)).head?.bind g = some act := (hg t).trans hw
      have hrun : Parser.next g e' (S.alone ([t] ++ v)) s' = .ok ((act s').1, S.alone v, (act s').2) :=
        next_some hhead s'
      rcases hagree with rfl | hall
      · exact ⟨_, hrun, .inl rfl⟩
      · refine ⟨(act s').2, ?_, .inr fun t' ht' => hall t' (List.mem_cons_of_mem t ht')⟩
        rw [hrun, hquiet t act (hall t List.mem_cons_self) hw s s']

/-- A step forward. -/
theorem bump (e e' : ε) : Cut S k (fun _ => 1) (Parser.bump e : Parser τ σ ε Unit) (Parser.bump e') :=
  next (fun _ => rfl) fun _ _ _ h _ _ => by cases h; rfl

/-- A look at `w` tokens. When the end comes before them the answer is `c`; another answer
has to be followed by taking all `w` of them, else the look was at what comes after the piece. -/
theorem look (w : ℕ) (c : γ) {g : List τ → γ} {p p' : γ → Parser τ σ ε α}
    (hg : ∀ l rest, w ≤ l.length → g (S.alone l) = g (l ++ rest)) (hstop : ∀ l, l.length < w → g (S.alone l) = c)
    (hopen : ∀ x ts s a ts' s', g ts = x → x ≠ c → p x ts s = .ok (a, ts', s') → ts'.length + w ≤ ts.length)
    (hp : ∀ x, Cut S k n (p x) (p' x)) : Cut S k n (Parser.look g >>= p) (Parser.look g >>= p') where
  takes h := (hp _).takes h
  alone {u v rest s s' a s₁} hk hagree h := by
    have hsame : g (S.alone (u ++ v)) = g (u ++ (v ++ rest)) := by
      rcases Nat.lt_or_ge (u ++ v).length w with hshort | hlong
      · rw [hstop _ hshort]
        by_contra hne
        have hlen := hopen _ _ _ _ _ _ rfl (Ne.symm hne) h
        simp only [List.length_append] at hlen hshort
        omega
      · rw [hg _ rest hlong, List.append_assoc]
    change ∃ s₁', p' (g (S.alone (u ++ v))) (S.alone (u ++ v)) s' = _ ∧ _
    rw [hsame]
    exact (hp _).alone hk hagree h

/-- The next token, where all that may follow takes it. -/
theorem peek {d : τ} {p p' : τ → Parser τ σ ε α} (hp : ∀ t, Cut S k (fun _ => 1) (p t) (p' (S.token t))) :
    Cut S k (fun _ => 1) (Parser.look (fun ts => ts.headD d) >>= p) (Parser.look (fun ts => ts.headD d) >>= p') where
  takes h := (hp _).takes h
  alone {u v rest s s' a s₁} hk hagree h := by
    obtain ⟨w, hw, hlen⟩ := (hp _).takes h
    obtain rfl := List.append_cancel_right hw
    obtain ⟨t, u, rfl⟩ : ∃ t us, u = t :: us := List.exists_cons_of_ne_nil (by rintro rfl; simp at hlen)
    exact (hp t).alone hk hagree h

theorem fail_left {e : List τ → ε} {p' : Parser τ σ ε α} : Cut S k n (Parser.fail e) p' where
  takes hp := by cases hp
  alone _ _ hp := by cases hp

/-- With no tokens to take there is nothing to say of the piece. -/
theorem zero (h : Cut S k n p p') {q : Parser τ σ ε α} : Cut S 0 n p q where
  takes := h.takes
  alone hk := absurd hk (Nat.not_lt_zero _)

section Loop

variable (e e' : ε) {guard guard' : α → Parser τ σ ε (Option γ)} {body body' : α → γ → Parser τ σ ε α}

/-- Each turn takes a token, so fuel for as many turns as there are tokens to take is enough. -/
theorem whileFuel (hguard : ∀ a, Cut S k one (guard a) (guard' a))
    (hbody : ∀ a c, Cut S (k - 1) (fun _ => 0) (body a c) (body' a c)) {fuel fuel' j : ℕ} (hk : j ≤ k) (hfuel : j ≤ fuel')
    (a : α) : Cut S j (fun _ => 0) (Parser.whileFuel e guard body fuel a) (Parser.whileFuel e' guard' body' fuel' a) := by
  induction fuel generalizing fuel' j a with
  | zero => exact fail_left
  | succ fuel ih =>
    have hturn : ∀ {fuel' j : ℕ}, j ≤ k → j ≤ fuel' + 1 →
        Cut S j (fun _ => 0) (Parser.whileFuel e guard body (fuel + 1) a) (Parser.whileFuel e' guard' body' (fuel' + 1) a) := by
      intro fuel' j hk hfuel
      refine ((hguard a).mono hk fun _ => le_rfl).bind fun o => ?_
      cases o with
      | none => exact pure rfl
      | some c =>
        refine ((hbody a c).mono (Nat.sub_le_sub_right hk 1) fun _ => le_rfl).bind fun b => ?_
        have hless : j - 1 ≤ fuel' := by omega
        exact ih ((Nat.sub_le j 1).trans hk) hless b
    cases fuel' with
    | zero =>
      obtain rfl := Nat.le_zero.1 hfuel
      exact (hturn (Nat.zero_le k) (Nat.zero_le 1)).zero
    | succ fuel' => exact hturn hk hfuel

theorem whileSome (hguard : ∀ a, Cut S k one (guard a) (guard' a))
    (hbody : ∀ a c, Cut S (k - 1) (fun _ => 0) (body a c) (body' a c)) (a : α) :
    Cut S k (fun _ => 0) (Parser.whileSome e guard body a) (Parser.whileSome e' guard' body' a) where
  takes h := (whileFuel e e' hguard hbody le_rfl le_rfl a).takes h
  alone {u v rest s s' b s₁} hk hagree h := by
    have hlen : (S.alone (u ++ v)).length + 1 = u.length + v.length + 2 := by
      simp [Spelling.alone]
      omega
    refine (whileFuel e e' hguard hbody (j := u.length + 1) hk ?_ a).alone (Nat.lt_succ_self _) hagree h
    rw [hlen]
    omega

end Loop

end Cut

end Cursor
