/-
View expansion terminates.

A run of a query calls the queries `calls` lists, up to binding outer references
in a correlated subquery, and nothing else: `queryStep` gives the same answer with
any two nested runs that agree on these (`queryStep_congr`). Over an acyclic
catalog the calls are well-founded, so some depth of nesting answers the query
whatever happens below it.
-/
import Twill.ViewCycles

namespace Twill

/-! ## Rewriting and the subqueries of an expression -/

/-- The rewriter leaves no subquery. -/
structure Rewriter.Clears (W : Rewriter) : Prop where
  ref : ∀ t n e r, subqueries e = [] → W.ref t n e = .ok r → subqueries r = []
  scalar : ∀ q r, W.scalar q = .ok r → subqueries r = []
  exists_ : ∀ q negated r, W.exists_ q negated = .ok r → subqueries r = []
  inSub : ∀ e lhs q negated r, (∀ l, lhs = .ok l → subqueries l = []) → W.inSub e lhs q negated = .ok r →
    subqueries r = []

mutual

theorem rewrite_clears {W : Rewriter} (hW : W.Clears) : ∀ {e r : Expr}, rewrite W e = .ok r → subqueries r = []
  | .column n, r, h => hW.ref none n _ r rfl h
  | .qualified t n, r, h => hW.ref (some t) n _ r rfl h
  | .scalarSubquery q, r, h => hW.scalar q r h
  | .exists q negated, r, h => hW.exists_ q negated r h
  | .inSubquery e q negated, r, h => hW.inSub e _ q negated r (fun _ hl => rewrite_clears hW hl) h
  | .binary op a b, r, h => by
    obtain ⟨a', ha, h⟩ := Except.bind_eq_ok.1 h
    obtain ⟨b', hb, h⟩ := Except.bind_eq_ok.1 h
    obtain rfl := Except.ok.inj h
    simp [subqueries, rewrite_clears hW ha, rewrite_clears hW hb]
  | .unary op e, r, h => by
    obtain ⟨e', he, h⟩ := Except.bind_eq_ok.1 h
    obtain rfl := Except.ok.inj h
    exact (rewrite_clears hW he :)
  | .isNull e negated, r, h => by
    obtain ⟨e', he, h⟩ := Except.bind_eq_ok.1 h
    obtain rfl := Except.ok.inj h
    exact (rewrite_clears hW he :)
  | .cast e target, r, h => by
    obtain ⟨e', he, h⟩ := Except.bind_eq_ok.1 h
    obtain rfl := Except.ok.inj h
    exact (rewrite_clears hW he :)
  | .like e pattern escape negated insensitive, r, h => by
    obtain ⟨e', he, h⟩ := Except.bind_eq_ok.1 h
    obtain ⟨p', hp, h⟩ := Except.bind_eq_ok.1 h
    obtain ⟨x', hx, h⟩ := Except.bind_eq_ok.1 h
    obtain rfl := Except.ok.inj h
    simp [subqueries, rewrite_clears hW he, rewrite_clears hW hp, rewriteOpt_clears hW hx]
  | .inList e list negated, r, h => by
    obtain ⟨e', he, h⟩ := Except.bind_eq_ok.1 h
    obtain ⟨l', hl, h⟩ := Except.bind_eq_ok.1 h
    obtain rfl := Except.ok.inj h
    simp [subqueries, rewrite_clears hW he, rewriteList_clears hW hl]
  | .between e lo hi negated, r, h => by
    obtain ⟨e', he, h⟩ := Except.bind_eq_ok.1 h
    obtain ⟨lo', hlo, h⟩ := Except.bind_eq_ok.1 h
    obtain ⟨hi', hhi, h⟩ := Except.bind_eq_ok.1 h
    obtain rfl := Except.ok.inj h
    simp [subqueries, rewrite_clears hW he, rewrite_clears hW hlo, rewrite_clears hW hhi]
  | .case operand whens els, r, h => by
    obtain ⟨o', ho, h⟩ := Except.bind_eq_ok.1 h
    obtain ⟨w', hw, h⟩ := Except.bind_eq_ok.1 h
    obtain ⟨x', hx, h⟩ := Except.bind_eq_ok.1 h
    obtain rfl := Except.ok.inj h
    simp [subqueries, rewriteOpt_clears hW ho, rewriteWhens_clears hW hw, rewriteOpt_clears hW hx]
  | .func name args, r, h => by
    obtain ⟨a', ha, h⟩ := Except.bind_eq_ok.1 h
    obtain rfl := Except.ok.inj h
    exact rewriteList_clears hW ha
  | .aggregate func .star distinct sep, r, h => by
    obtain ⟨s', hs, h⟩ := Except.bind_eq_ok.1 h
    obtain rfl := Except.ok.inj h
    exact rewriteOpt_clears hW hs
  | .aggregate func (.expr e) distinct sep, r, h => by
    obtain ⟨e', he, h⟩ := Except.bind_eq_ok.1 h
    obtain ⟨s', hs, h⟩ := Except.bind_eq_ok.1 h
    obtain rfl := Except.ok.inj h
    simp [subqueries, rewrite_clears hW he, rewriteOpt_clears hW hs]
  | .null, _, h | .int _, _, h | .real _, _, h | .str _, _, h | .vector _, _, h | .lit _, _, h | .param _, _, h
  | .excluded _, _, h | .default, _, h => by
    obtain rfl := Except.ok.inj h
    rfl

theorem rewriteList_clears {W : Rewriter} (hW : W.Clears) : ∀ {es rs : List Expr}, rewriteList W es = .ok rs →
    subqueriesList rs = []
  | [], _, h => by
    obtain rfl := Except.ok.inj h
    rfl
  | e :: es, rs, h => by
    obtain ⟨e', he, h⟩ := Except.bind_eq_ok.1 h
    obtain ⟨es', hes, h⟩ := Except.bind_eq_ok.1 h
    obtain rfl := Except.ok.inj h
    simp [subqueriesList, rewrite_clears hW he, rewriteList_clears hW hes]

theorem rewriteOpt_clears {W : Rewriter} (hW : W.Clears) : ∀ {e r : Option Expr}, rewriteOpt W e = .ok r →
    subqueriesOpt r = []
  | none, _, h => by
    obtain rfl := Except.ok.inj h
    rfl
  | some e, _, h => by
    obtain ⟨e', he, h⟩ := Except.bind_eq_ok.1 h
    obtain rfl := Except.ok.inj h
    exact rewrite_clears hW he

theorem rewriteWhens_clears {W : Rewriter} (hW : W.Clears) : ∀ {ws rs : List (Expr × Expr)},
    rewriteWhens W ws = .ok rs → subqueriesWhens rs = []
  | [], _, h => by
    obtain rfl := Except.ok.inj h
    rfl
  | (c, v) :: ws, rs, h => by
    obtain ⟨c', hc, h⟩ := Except.bind_eq_ok.1 h
    obtain ⟨v', hv, h⟩ := Except.bind_eq_ok.1 h
    obtain ⟨ws', hws, h⟩ := Except.bind_eq_ok.1 h
    obtain rfl := Except.ok.inj h
    simp [subqueriesWhens, rewrite_clears hW hc, rewrite_clears hW hv, rewriteWhens_clears hW hws]

end

/-- Two rewriters that clear, and answer alike at the subqueries of a list. -/
structure AgreeOn (W W' : Rewriter) (qs : List SelectStmt) : Prop where
  clears : W'.Clears
  ref : W.ref = W'.ref
  scalar : ∀ q ∈ qs, W.scalar q = W'.scalar q
  exists_ : ∀ q ∈ qs, W.exists_ q = W'.exists_ q
  inSub : ∀ q ∈ qs, ∀ e lhs negated, (∀ l, lhs = .ok l → subqueries l = []) →
    W.inSub e lhs q negated = W'.inSub e lhs q negated

section

variable {W W' : Rewriter} {a b : List SelectStmt}

theorem AgreeOn.mono (h : AgreeOn W W' b) (hsub : a ⊆ b) : AgreeOn W W' a :=
  ⟨h.clears, h.ref, fun q hq => h.scalar q (hsub hq), fun q hq => h.exists_ q (hsub hq), fun q hq => h.inSub q (hsub hq)⟩

theorem AgreeOn.left (h : AgreeOn W W' (a ++ b)) : AgreeOn W W' a := h.mono (List.subset_append_left _ _)

theorem AgreeOn.right (h : AgreeOn W W' (a ++ b)) : AgreeOn W W' b := h.mono (List.subset_append_right _ _)

mutual

theorem rewrite_congr : ∀ {e : Expr}, AgreeOn W W' (subqueries e) → rewrite W e = rewrite W' e
  | .column n, h => by simp only [rewrite, h.ref]
  | .qualified t n, h => by simp only [rewrite, h.ref]
  | .scalarSubquery q, h => h.scalar q List.mem_cons_self
  | .exists q negated, h => congrFun (h.exists_ q List.mem_cons_self) negated
  | .inSubquery e q negated, h => by
    have hq : q ∈ subqueries (.inSubquery e q negated) := List.mem_append_right _ List.mem_cons_self
    simp only [rewrite, rewrite_congr (e := e) h.left]
    exact h.inSub q hq e _ negated fun l hl => rewrite_clears h.clears hl
  | .binary op l r, h => by simp only [rewrite, rewrite_congr (e := l) h.left, rewrite_congr (e := r) h.right]
  | .unary op e, h => by simp only [rewrite, rewrite_congr (e := e) h]
  | .isNull e negated, h => by simp only [rewrite, rewrite_congr (e := e) h]
  | .cast e target, h => by simp only [rewrite, rewrite_congr (e := e) h]
  | .like e pattern escape negated insensitive, h => by
    simp only [rewrite, rewrite_congr (e := e) h.left.left, rewrite_congr (e := pattern) h.left.right,
      rewriteOpt_congr (e := escape) h.right]
  | .inList e list negated, h => by
    simp only [rewrite, rewrite_congr (e := e) h.left, rewriteList_congr (l := list) h.right]
  | .between e lo hi negated, h => by
    simp only [rewrite, rewrite_congr (e := e) h.left.left, rewrite_congr (e := lo) h.left.right,
      rewrite_congr (e := hi) h.right]
  | .case operand whens els, h => by
    simp only [rewrite, rewriteOpt_congr (e := operand) h.left.left, rewriteWhens_congr (w := whens) h.left.right,
      rewriteOpt_congr (e := els) h.right]
  | .func name args, h => by simp only [rewrite, rewriteList_congr (l := args) h]
  | .aggregate func .star distinct sep, h => by simp only [rewrite, rewriteOpt_congr (e := sep) h]
  | .aggregate func (.expr e) distinct sep, h => by
    simp only [rewrite, rewrite_congr (e := e) h.left, rewriteOpt_congr (e := sep) h.right]
  | .null, _ | .int _, _ | .real _, _ | .str _, _ | .vector _, _ | .lit _, _ | .param _, _ | .excluded _, _
  | .default, _ => rfl

theorem rewriteList_congr : ∀ {l : List Expr}, AgreeOn W W' (subqueriesList l) → rewriteList W l = rewriteList W' l
  | [], _ => rfl
  | e :: es, h => by simp only [rewriteList, rewrite_congr (e := e) h.left, rewriteList_congr (l := es) h.right]

theorem rewriteOpt_congr : ∀ {e : Option Expr}, AgreeOn W W' (subqueriesOpt e) → rewriteOpt W e = rewriteOpt W' e
  | none, _ => rfl
  | some e, h => by simp only [rewriteOpt, rewrite_congr (e := e) h]

theorem rewriteWhens_congr : ∀ {w : List (Expr × Expr)}, AgreeOn W W' (subqueriesWhens w) →
    rewriteWhens W w = rewriteWhens W' w
  | [], _ => rfl
  | (c, r) :: ws, h => by
    simp only [rewriteWhens, rewrite_congr (e := c) h.left.left, rewrite_congr (e := r) h.left.right,
      rewriteWhens_congr (w := ws) h.right]

end

mutual

theorem anySubquery_congr {p p' : SelectStmt → Res Bool} : ∀ {e : Expr}, (∀ q ∈ subqueries e, p q = p' q) →
    anySubquery p e = anySubquery p' e
  | .scalarSubquery q, h => h q List.mem_cons_self
  | .exists q _, h => h q List.mem_cons_self
  | .inSubquery e q _, h => by
    simp only [subqueries, List.mem_append, List.mem_singleton] at h
    simp only [anySubquery, anySubquery_congr (e := e) fun q hq => h q (.inl hq), h q (.inr rfl)]
  | .binary _ l r, h => by
    simp only [subqueries, List.mem_append] at h
    simp only [anySubquery, anySubquery_congr (e := l) fun q hq => h q (.inl hq),
      anySubquery_congr (e := r) fun q hq => h q (.inr hq)]
  | .unary _ e, h => by simp only [anySubquery, anySubquery_congr (e := e) h]
  | .isNull e _, h => by simp only [anySubquery, anySubquery_congr (e := e) h]
  | .cast e _, h => by simp only [anySubquery, anySubquery_congr (e := e) h]
  | .like e pattern escape _ _, h => by
    simp only [subqueries, List.mem_append] at h
    simp only [anySubquery, anySubquery_congr (e := e) fun q hq => h q (.inl (.inl hq)),
      anySubquery_congr (e := pattern) fun q hq => h q (.inl (.inr hq)),
      anySubqueryOpt_congr (e := escape) fun q hq => h q (.inr hq)]
  | .inList e list _, h => by
    simp only [subqueries, List.mem_append] at h
    simp only [anySubquery, anySubquery_congr (e := e) fun q hq => h q (.inl hq),
      anySubqueryList_congr (l := list) fun q hq => h q (.inr hq)]
  | .between e lo hi _, h => by
    simp only [subqueries, List.mem_append] at h
    simp only [anySubquery, anySubquery_congr (e := e) fun q hq => h q (.inl (.inl hq)),
      anySubquery_congr (e := lo) fun q hq => h q (.inl (.inr hq)),
      anySubquery_congr (e := hi) fun q hq => h q (.inr hq)]
  | .case operand whens els, h => by
    simp only [subqueries, List.mem_append] at h
    simp only [anySubquery, anySubqueryOpt_congr (e := operand) fun q hq => h q (.inl (.inl hq)),
      anySubqueryWhens_congr (w := whens) fun q hq => h q (.inl (.inr hq)),
      anySubqueryOpt_congr (e := els) fun q hq => h q (.inr hq)]
  | .func _ args, h => by simp only [anySubquery, anySubqueryList_congr (l := args) h]
  | .aggregate _ .star _ sep, h => by simp only [anySubquery, anySubqueryOpt_congr (e := sep) h]
  | .aggregate _ (.expr e) _ sep, h => by
    simp only [subqueries, List.mem_append] at h
    simp only [anySubquery, anySubquery_congr (e := e) fun q hq => h q (.inl hq),
      anySubqueryOpt_congr (e := sep) fun q hq => h q (.inr hq)]
  | .null, _ | .int _, _ | .real _, _ | .str _, _ | .vector _, _ | .lit _, _ | .param _, _ | .column _, _
  | .excluded _, _ | .default, _ | .qualified _ _, _ => rfl

theorem anySubqueryList_congr {p p' : SelectStmt → Res Bool} : ∀ {l : List Expr},
    (∀ q ∈ subqueriesList l, p q = p' q) → anySubqueryList p l = anySubqueryList p' l
  | [], _ => rfl
  | e :: es, h => by
    simp only [subqueriesList, List.mem_append] at h
    simp only [anySubqueryList, anySubquery_congr (e := e) fun q hq => h q (.inl hq),
      anySubqueryList_congr (l := es) fun q hq => h q (.inr hq)]

theorem anySubqueryOpt_congr {p p' : SelectStmt → Res Bool} : ∀ {e : Option Expr},
    (∀ q ∈ subqueriesOpt e, p q = p' q) → anySubqueryOpt p e = anySubqueryOpt p' e
  | none, _ => rfl
  | some e, h => by simp only [anySubqueryOpt, anySubquery_congr (e := e) h]

theorem anySubqueryWhens_congr {p p' : SelectStmt → Res Bool} : ∀ {w : List (Expr × Expr)},
    (∀ q ∈ subqueriesWhens w, p q = p' q) → anySubqueryWhens p w = anySubqueryWhens p' w
  | [], _ => rfl
  | (c, r) :: ws, h => by
    simp only [subqueriesWhens, List.mem_append] at h
    simp only [anySubqueryWhens, anySubquery_congr (e := c) fun q hq => h q (.inl (.inl hq)),
      anySubquery_congr (e := r) fun q hq => h q (.inl (.inr hq)),
      anySubqueryWhens_congr (w := ws) fun q hq => h q (.inr hq)]

end

end

/-! ## Binding outer references -/

/-- The rewriter replaces references by what has no subquery and no aggregate, and
leaves subquery nodes as they are. -/
structure Rewriter.Keeps (W : Rewriter) : Prop where
  ref : ∀ t n e r, subqueries e = [] → exprHasAggregate e = false → W.ref t n e = .ok r →
    subqueries r = [] ∧ exprHasAggregate r = false
  scalar : ∀ q, W.scalar q = .ok (.scalarSubquery q)
  exists_ : ∀ q negated, W.exists_ q negated = .ok (.exists q negated)
  inSub : ∀ e lhs q negated, W.inSub e lhs q negated = .ok (.inSubquery e q negated)

theorem binder_keeps (inner outer : List RelCol) (row : Row) : (binder inner outer row).Keeps := by
  refine ⟨fun t n e r hsub hagg h => ?_, fun _ => rfl, fun _ _ => rfl, fun _ _ _ _ => rfl⟩
  simp only [binder] at h
  split_ifs at h with hinner
  · obtain rfl := Except.ok.inj h
    exact ⟨hsub, hagg⟩
  · cases hcol : resolveCol outer t n with
    | error e' =>
      rw [hcol] at h
      obtain rfl := Except.ok.inj h
      exact ⟨hsub, hagg⟩
    | ok idx =>
      rw [hcol] at h
      obtain ⟨v, -, h⟩ := Except.bind_eq_ok.1 h
      obtain rfl := Except.ok.inj h
      exact ⟨rfl, rfl⟩

section

variable {W : Rewriter}

mutual

theorem rewrite_keeps (hW : W.Keeps) : ∀ {e r : Expr}, rewrite W e = .ok r →
    subqueries r = subqueries e ∧ exprHasAggregate r = exprHasAggregate e
  | .column n, r, h => hW.ref none n _ r rfl rfl h
  | .qualified t n, r, h => hW.ref (some t) n _ r rfl rfl h
  | .scalarSubquery q, r, h => by
    obtain rfl := Except.ok.inj ((hW.scalar q).symm.trans h)
    exact ⟨rfl, rfl⟩
  | .exists q negated, r, h => by
    obtain rfl := Except.ok.inj ((hW.exists_ q negated).symm.trans h)
    exact ⟨rfl, rfl⟩
  | .inSubquery e q negated, r, h => by
    obtain rfl := Except.ok.inj ((hW.inSub e _ q negated).symm.trans h)
    exact ⟨rfl, rfl⟩
  | .binary op a b, r, h => by
    obtain ⟨a', ha, h⟩ := Except.bind_eq_ok.1 h
    obtain ⟨b', hb, h⟩ := Except.bind_eq_ok.1 h
    obtain rfl := Except.ok.inj h
    simp only [subqueries, exprHasAggregate, rewrite_keeps hW ha, rewrite_keeps hW hb, and_self]
  | .unary op e, r, h => by
    obtain ⟨e', he, h⟩ := Except.bind_eq_ok.1 h
    obtain rfl := Except.ok.inj h
    simp only [subqueries, exprHasAggregate, rewrite_keeps hW he, and_self]
  | .isNull e negated, r, h => by
    obtain ⟨e', he, h⟩ := Except.bind_eq_ok.1 h
    obtain rfl := Except.ok.inj h
    simp only [subqueries, exprHasAggregate, rewrite_keeps hW he, and_self]
  | .cast e target, r, h => by
    obtain ⟨e', he, h⟩ := Except.bind_eq_ok.1 h
    obtain rfl := Except.ok.inj h
    simp only [subqueries, exprHasAggregate, rewrite_keeps hW he, and_self]
  | .like e pattern escape negated insensitive, r, h => by
    obtain ⟨e', he, h⟩ := Except.bind_eq_ok.1 h
    obtain ⟨p', hp, h⟩ := Except.bind_eq_ok.1 h
    obtain ⟨x', hx, h⟩ := Except.bind_eq_ok.1 h
    obtain rfl := Except.ok.inj h
    simp only [subqueries, exprHasAggregate, rewrite_keeps hW he, rewrite_keeps hW hp, rewriteOpt_keeps hW hx, and_self]
  | .inList e list negated, r, h => by
    obtain ⟨e', he, h⟩ := Except.bind_eq_ok.1 h
    obtain ⟨l', hl, h⟩ := Except.bind_eq_ok.1 h
    obtain rfl := Except.ok.inj h
    simp only [subqueries, exprHasAggregate, rewrite_keeps hW he, rewriteList_keeps hW hl, and_self]
  | .between e lo hi negated, r, h => by
    obtain ⟨e', he, h⟩ := Except.bind_eq_ok.1 h
    obtain ⟨lo', hlo, h⟩ := Except.bind_eq_ok.1 h
    obtain ⟨hi', hhi, h⟩ := Except.bind_eq_ok.1 h
    obtain rfl := Except.ok.inj h
    simp only [subqueries, exprHasAggregate, rewrite_keeps hW he, rewrite_keeps hW hlo, rewrite_keeps hW hhi, and_self]
  | .case operand whens els, r, h => by
    obtain ⟨o', ho, h⟩ := Except.bind_eq_ok.1 h
    obtain ⟨w', hw, h⟩ := Except.bind_eq_ok.1 h
    obtain ⟨x', hx, h⟩ := Except.bind_eq_ok.1 h
    obtain rfl := Except.ok.inj h
    simp only [subqueries, exprHasAggregate, rewriteOpt_keeps hW ho, rewriteWhens_keeps hW hw, rewriteOpt_keeps hW hx,
      and_self]
  | .func name args, r, h => by
    obtain ⟨a', ha, h⟩ := Except.bind_eq_ok.1 h
    obtain rfl := Except.ok.inj h
    simp only [subqueries, exprHasAggregate, rewriteList_keeps hW ha, and_self]
  | .aggregate func .star distinct sep, r, h => by
    obtain ⟨s', hs, h⟩ := Except.bind_eq_ok.1 h
    obtain rfl := Except.ok.inj h
    simp only [subqueries, exprHasAggregate, rewriteOpt_keeps hW hs, and_self]
  | .aggregate func (.expr e) distinct sep, r, h => by
    obtain ⟨e', he, h⟩ := Except.bind_eq_ok.1 h
    obtain ⟨s', hs, h⟩ := Except.bind_eq_ok.1 h
    obtain rfl := Except.ok.inj h
    simp only [subqueries, exprHasAggregate, rewrite_keeps hW he, rewriteOpt_keeps hW hs, and_self]
  | .null, _, h | .int _, _, h | .real _, _, h | .str _, _, h | .vector _, _, h | .lit _, _, h | .param _, _, h
  | .excluded _, _, h | .default, _, h => by
    obtain rfl := Except.ok.inj h
    exact ⟨rfl, rfl⟩

theorem rewriteList_keeps (hW : W.Keeps) : ∀ {es rs : List Expr}, rewriteList W es = .ok rs →
    subqueriesList rs = subqueriesList es ∧ anyAggregate rs = anyAggregate es
  | [], _, h => by
    obtain rfl := Except.ok.inj h
    exact ⟨rfl, rfl⟩
  | e :: es, rs, h => by
    obtain ⟨e', he, h⟩ := Except.bind_eq_ok.1 h
    obtain ⟨es', hes, h⟩ := Except.bind_eq_ok.1 h
    obtain rfl := Except.ok.inj h
    simp only [subqueriesList, anyAggregate, rewrite_keeps hW he, rewriteList_keeps hW hes, and_self]

theorem rewriteOpt_keeps (hW : W.Keeps) : ∀ {e r : Option Expr}, rewriteOpt W e = .ok r →
    subqueriesOpt r = subqueriesOpt e ∧ optHasAggregate r = optHasAggregate e ∧ r.isSome = e.isSome
  | none, _, h => by
    obtain rfl := Except.ok.inj h
    exact ⟨rfl, rfl, rfl⟩
  | some e, _, h => by
    obtain ⟨e', he, h⟩ := Except.bind_eq_ok.1 h
    obtain rfl := Except.ok.inj h
    simp only [subqueriesOpt, optHasAggregate, rewrite_keeps hW he, Option.isSome_some, and_self]

theorem rewriteWhens_keeps (hW : W.Keeps) : ∀ {ws rs : List (Expr × Expr)}, rewriteWhens W ws = .ok rs →
    subqueriesWhens rs = subqueriesWhens ws ∧ whensHaveAggregate rs = whensHaveAggregate ws
  | [], _, h => by
    obtain rfl := Except.ok.inj h
    exact ⟨rfl, rfl⟩
  | (c, v) :: ws, rs, h => by
    obtain ⟨c', hc, h⟩ := Except.bind_eq_ok.1 h
    obtain ⟨v', hv, h⟩ := Except.bind_eq_ok.1 h
    obtain ⟨ws', hws, h⟩ := Except.bind_eq_ok.1 h
    obtain rfl := Except.ok.inj h
    simp only [subqueriesWhens, whensHaveAggregate, rewrite_keeps hW hc, rewrite_keeps hW hv, rewriteWhens_keeps hW hws,
      and_self]

end

theorem mapItems_keeps (hW : W.Keeps) : ∀ {items items' : List SelItem}, mapItems (rewrite W) items = .ok items' →
    items'.flatMap subqueriesItem = items.flatMap subqueriesItem ∧
      items'.any SelItem.hasAggregate = items.any SelItem.hasAggregate
  | [], _, h => by
    obtain rfl := Except.ok.inj h
    exact ⟨rfl, rfl⟩
  | item :: items, _, h => by
    rw [mapItems, Except.mapM_cons_eq] at h
    obtain ⟨item', hitem, h⟩ := Except.bind_eq_ok.1 h
    obtain ⟨items', hitems, h⟩ := Except.bind_eq_ok.1 h
    obtain rfl := Except.ok.inj h
    obtain ⟨hsubs, haggs⟩ := mapItems_keeps hW hitems
    cases item with
    | star qualifier =>
      obtain rfl := Except.ok.inj hitem
      simp [hsubs, haggs]
    | expr e alias_ =>
      obtain ⟨e', he, hitem⟩ := Except.bind_eq_ok.1 hitem
      obtain rfl := Except.ok.inj hitem
      obtain ⟨hsub, hagg⟩ := rewrite_keeps hW he
      simp [hsubs, haggs, subqueriesItem, SelItem.hasAggregate, hsub, hagg]

end

/-- A query with outer references bound: it calls what the query calls. -/
structure Variant (q q' : SelectStmt) : Prop where
  names : q'.names = q.names
  queries : q'.queries = q.queries

theorem Variant.refl (q : SelectStmt) : Variant q q := ⟨rfl, rfl⟩

theorem bindSelect_variant {inner outer : List RelCol} {row : Row} {q q' : SelectStmt}
    (h : bindSelect inner outer row q = .ok q') : Variant q q' := by
  have hW := binder_keeps inner outer row
  obtain ⟨filter, hfilter, h⟩ := Except.bind_eq_ok.1 h
  obtain ⟨items, hitems, h⟩ := Except.bind_eq_ok.1 h
  obtain ⟨groupBy, hgroup, h⟩ := Except.bind_eq_ok.1 h
  obtain ⟨having, hhaving, h⟩ := Except.bind_eq_ok.1 h
  obtain ⟨orderBy, -, h⟩ := Except.bind_eq_ok.1 h
  obtain rfl := Except.ok.inj h
  obtain ⟨hfilterSubs, -⟩ := rewriteOpt_keeps hW hfilter
  obtain ⟨hitemSubs, hitemAggs⟩ := mapItems_keeps hW hitems
  obtain ⟨hgroupSubs, -⟩ := rewriteList_keeps hW hgroup
  obtain ⟨hhavingSubs, -, hhavingSome⟩ := rewriteOpt_keeps hW hhaving
  have hgroupEmpty : groupBy.isEmpty = q.groupBy.isEmpty := by
    cases hq : q.groupBy with
    | nil =>
      rw [hq] at hgroup
      obtain rfl := Except.ok.inj hgroup
      rfl
    | cons e es =>
      rw [hq] at hgroup
      obtain ⟨e', -, hgroup⟩ := Except.bind_eq_ok.1 hgroup
      obtain ⟨es', -, hgroup⟩ := Except.bind_eq_ok.1 hgroup
      obtain rfl := Except.ok.inj hgroup
      rfl
  have hagg : aggQuery { q with filter, items, groupBy, having, orderBy } = aggQuery q := by
    simp only [aggQuery, hgroupEmpty, hhavingSome, hitemAggs]
  have hrow : SelectStmt.rowSubqueries { q with filter, items, groupBy, having, orderBy } = q.rowSubqueries := by
    simp only [SelectStmt.rowSubqueries, hitemSubs, hfilterSubs]
  have hprobed : SelectStmt.probed { q with filter, items, groupBy, having, orderBy } = q.probed := by
    simp only [SelectStmt.probed, hagg, hrow]
  refine ⟨?_, ?_⟩
  · simp only [SelectStmt.names, SelectStmt.coreNames, SelectStmt.cteNames, hprobed]
  · simp only [SelectStmt.queries, SelectStmt.coreQueries, hprobed, hrow, hgroupSubs, hhavingSubs]

/-! ## A step and the queries it calls -/

/-- The queries a run of `sel` calls, a view's body where it looks the view up. -/
def calls (sc : Scan) (sel : SelectStmt) : List SelectStmt := sel.queries ++ sel.names.filterMap sc.view

/-- Two nested runs answer alike, whatever outer references are bound. -/
def Alike (rq rq' : RunQuery) (qs : List SelectStmt) : Prop := ∀ q ∈ qs, ∀ q', Variant q q' → rq q' = rq' q'

section

variable {E : Env} {sc : Scan} {rq rq' : RunQuery} {bound : List String} {ctes : Ctes}

theorem Alike.mono {a b : List SelectStmt} (h : Alike rq rq' b) (hsub : a ⊆ b) : Alike rq rq' a :=
  fun q hq => h q (hsub hq)

theorem Alike.left {a b : List SelectStmt} (h : Alike rq rq' (a ++ b)) : Alike rq rq' a :=
  h.mono (List.subset_append_left _ _)

theorem Alike.right {a b : List SelectStmt} (h : Alike rq rq' (a ++ b)) : Alike rq rq' b :=
  h.mono (List.subset_append_right _ _)

theorem Alike.eq {q : SelectStmt} {qs : List SelectStmt} (h : Alike rq rq' qs) (hq : q ∈ qs) : rq q = rq' q :=
  h q hq q (.refl q)

theorem buildFrom_congr (hbound : ∀ k ∈ bound, (ctes.lookup k).isSome) : ∀ {f : FromClause},
    Alike rq rq' (fromQueries f) → Alike rq rq' ((fromNames bound f).filterMap sc.view) →
    buildFrom E sc rq ctes f = buildFrom E sc rq' ctes f
  | .table name alias_, _, hviews => by
    simp only [buildFrom]
    cases hcte : ctes.lookup (toAsciiLowercase name) with
    | some cte => rfl
    | none =>
      cases hview : sc.view name with
      | none => rfl
      | some q =>
        have hmem : name ∈ fromNames bound (.table name alias_) := by
          have hnot : toAsciiLowercase name ∉ bound := fun hin => by simpa [hcte] using hbound _ hin
          simp [fromNames, hnot]
        simp only [hviews.eq (List.mem_filterMap.2 ⟨name, hmem, hview⟩)]
  | .derived query alias_, hqueries, _ => by simp only [buildFrom, hqueries.eq List.mem_cons_self]
  | .join left right kind on_ using_, hqueries, hviews => by
    simp only [fromNames, List.filterMap_append] at hviews
    simp only [buildFrom, buildFrom_congr hbound (f := left) hqueries.left hviews.left,
      buildFrom_congr hbound (f := right) hqueries.right hviews.right]

theorem buildFromOpt_congr (hbound : ∀ k ∈ bound, (ctes.lookup k).isSome) {f : Option FromClause}
    (hqueries : Alike rq rq' (fromQueriesOpt f)) (hviews : Alike rq rq' ((fromNamesOpt bound f).filterMap sc.view)) :
    buildFromOpt E sc rq ctes f = buildFromOpt E sc rq' ctes f := by
  cases f with
  | none => rfl
  | some f => exact buildFrom_congr hbound hqueries hviews

theorem fromNamespace_congr {f : Option FromClause} (hqueries : Alike rq rq' (fromQueriesOpt f))
    (hviews : Alike rq rq' ((fromNamesOpt [] f).filterMap sc.view)) :
    fromNamespace E sc rq f = fromNamespace E sc rq' f := by
  cases f with
  | none => rfl
  | some f =>
    have hfrom : buildFrom E sc rq ∅ f = buildFrom E sc rq' ∅ f := buildFrom_congr (by simp) hqueries hviews
    simp only [fromNamespace, hfrom]

/-! ### Folding subqueries -/

theorem subqueries_scalarResult {rs : ResultSet} {r : Expr} (h : scalarResult rs = .ok r) : subqueries r = [] := by
  unfold scalarResult at h
  split_ifs at h
  split at h
  · obtain rfl := Except.ok.inj h
    rfl
  · obtain ⟨v, -, h⟩ := Except.bind_eq_ok.1 h
    obtain rfl := Except.ok.inj h
    rfl
  · cases h

theorem subqueries_inResult {rs : ResultSet} {list : List Expr} (h : inResult rs = .ok list) :
    subqueriesList list = [] := by
  unfold inResult at h
  split_ifs at h
  have hlits := Except.mapM_eq_ok.1 h
  clear h
  generalize rs.rows = rows at hlits
  induction hlits with
  | nil => rfl
  | cons hrow _ ih =>
    obtain ⟨v, -, hrow⟩ := Except.bind_eq_ok.1 hrow
    obtain rfl := Except.ok.inj hrow
    exact ih

theorem subResolver_clears (rq : RunQuery) : (subResolver rq).Clears := by
  refine ⟨fun t n e r hsub h => ?_, fun q r h => ?_, fun q negated r h => ?_, fun e lhs q negated r hlhs h => ?_⟩
  · obtain rfl := Except.ok.inj h
    exact hsub
  · obtain ⟨rs, -, h⟩ := Except.bind_eq_ok.1 h
    exact subqueries_scalarResult h
  · obtain ⟨rs, -, h⟩ := Except.bind_eq_ok.1 h
    obtain rfl := Except.ok.inj h
    rfl
  · obtain ⟨rs, -, h⟩ := Except.bind_eq_ok.1 h
    obtain ⟨list, hlist, h⟩ := Except.bind_eq_ok.1 h
    obtain ⟨l, hl, h⟩ := Except.bind_eq_ok.1 h
    obtain rfl := Except.ok.inj h
    simp only [subqueries, hlhs l hl, subqueries_inResult hlist, List.append_nil]

theorem subResolver_agree {qs : List SelectStmt} (h : Alike rq rq' qs) :
    AgreeOn (subResolver rq) (subResolver rq') qs := by
  refine ⟨subResolver_clears rq', rfl, fun q hq => ?_, fun q hq => ?_, fun q hq e lhs negated _ => ?_⟩
  · simp only [subResolver, h.eq hq]
  · simp only [subResolver, h.eq hq]
  · simp only [subResolver, h.eq hq]

theorem corrFolder_clears (rq : RunQuery) (outer : List RelCol) (row : Row) : (corrFolder E sc rq outer row).Clears := by
  refine ⟨fun t n e r hsub h => ?_, fun q r h => ?_, fun q negated r h => ?_, fun e lhs q negated r hlhs h => ?_⟩
  · obtain rfl := Except.ok.inj h
    exact hsub
  · obtain ⟨q', -, h⟩ := Except.bind_eq_ok.1 h
    obtain ⟨rs, -, h⟩ := Except.bind_eq_ok.1 h
    exact subqueries_scalarResult h
  · obtain ⟨q', -, h⟩ := Except.bind_eq_ok.1 h
    obtain ⟨rs, -, h⟩ := Except.bind_eq_ok.1 h
    obtain rfl := Except.ok.inj h
    rfl
  · obtain ⟨l, -, h⟩ := Except.bind_eq_ok.1 h
    obtain ⟨q', -, h⟩ := Except.bind_eq_ok.1 h
    obtain ⟨rs, -, h⟩ := Except.bind_eq_ok.1 h
    obtain ⟨list, hlist, h⟩ := Except.bind_eq_ok.1 h
    obtain ⟨l', hl', h⟩ := Except.bind_eq_ok.1 h
    obtain rfl := Except.ok.inj h
    simp only [subqueries, rewrite_clears (subResolver_clears rq) hl', subqueries_inResult hlist, List.append_nil]

/-- What a correlated fold asks of a subquery: its columns, and its answer once bound. -/
structure Probed (E : Env) (sc : Scan) (rq rq' : RunQuery) (qs : List SelectStmt) : Prop where
  answers : Alike rq rq' qs
  columns : ∀ q ∈ qs, fromNamespace E sc rq q.from_ = fromNamespace E sc rq' q.from_

theorem Probed.mono {a b : List SelectStmt} (h : Probed E sc rq rq' b) (hsub : a ⊆ b) : Probed E sc rq rq' a :=
  ⟨h.answers.mono hsub, fun q hq => h.columns q (hsub hq)⟩

theorem bindSub_congr {outer : List RelCol} {row : Row} {q : SelectStmt}
    (h : fromNamespace E sc rq q.from_ = fromNamespace E sc rq' q.from_) :
    bindSub E sc rq outer row q = bindSub E sc rq' outer row q := by
  simp only [bindSub, h]

theorem bindSub_variant {outer : List RelCol} {row : Row} {q q' : SelectStmt}
    (h : bindSub E sc rq outer row q = .ok q') : Variant q q' := by
  obtain ⟨inner, -, h⟩ := Except.bind_eq_ok.1 h
  exact bindSelect_variant h

theorem corrFolder_agree {qs : List SelectStmt} {outer : List RelCol} {row : Row} (h : Probed E sc rq rq' qs) :
    AgreeOn (corrFolder E sc rq outer row) (corrFolder E sc rq' outer row) qs := by
  have hrun : ∀ q ∈ qs, (bindSub E sc rq outer row q >>= rq) = (bindSub E sc rq' outer row q >>= rq') := by
    intro q hq
    rw [bindSub_congr (h.columns q hq)]
    exact Except.bind_congr_ok fun q' hq' => h.answers q hq q' (bindSub_variant hq')
  refine ⟨corrFolder_clears rq' outer row, rfl, fun q hq => ?_, fun q hq => ?_, fun q hq e lhs negated hlhs => ?_⟩
  · have := congrArg (fun x => x >>= scalarResult) (hrun q hq)
    simpa only [corrFolder, bind_assoc] using this
  · funext negated
    have := congrArg (fun x => x >>= fun rs => (pure (existsResult rs negated) : Res Expr)) (hrun q hq)
    simpa only [corrFolder, bind_assoc] using this
  · refine Except.bind_congr_ok fun l hl => ?_
    have hl : AgreeOn (subResolver rq) (subResolver rq') (subqueries l) := by
      rw [hlhs l hl]
      exact subResolver_agree fun q hq => nomatch hq
    have := congrArg (fun x => x >>= fun rs => inResult rs >>= fun list =>
      resolveSub rq' l >>= fun l => (pure (.inList l list negated) : Res Expr)) (hrun q hq)
    simpa only [bind_assoc, resolveSub, rewrite_congr hl] using this

/-! ### One core -/

theorem mapItems_congr {f f' : Expr → Res Expr} {items : List SelItem}
    (h : ∀ e alias_, .expr e alias_ ∈ items → f e = f' e) : mapItems f items = mapItems f' items := by
  unfold mapItems
  induction items with
  | nil => rfl
  | cons i items ih =>
    have hrest := ih fun e alias_ he => h e alias_ (List.mem_cons_of_mem _ he)
    rw [Except.mapM_cons_eq, Except.mapM_cons_eq, hrest]
    cases i with
    | star q => rfl
    | expr e alias_ => simp only [h e alias_ List.mem_cons_self]

theorem subqueries_subset_item {items : List SelItem} {e : Expr} {alias_ : Option String}
    (h : .expr e alias_ ∈ items) : subqueries e ⊆ items.flatMap subqueriesItem :=
  fun _ hq => List.mem_flatMap.2 ⟨.expr e alias_, h, hq⟩

theorem selectHasCorrelated_congr {outer : List RelCol} {sel : SelectStmt} (h : Probed E sc rq rq' sel.rowSubqueries) :
    selectHasCorrelated E sc rq outer sel = selectHasCorrelated E sc rq' outer sel := by
  have hone : ∀ q ∈ sel.rowSubqueries, subqueryCorrelated E sc rq outer q = subqueryCorrelated E sc rq' outer q :=
    fun q hq => by simp only [subqueryCorrelated, h.columns q hq]
  have hfilter : ∀ {f : Expr}, sel.filter = some f → anySubquery (subqueryCorrelated E sc rq outer) f =
      anySubquery (subqueryCorrelated E sc rq' outer) f := fun {f} hf =>
    anySubquery_congr fun q hq => hone q (List.mem_append_right _ (by rw [hf]; exact hq))
  have hitem : ∀ {e : Expr} {alias_ : Option String}, SelItem.expr e alias_ ∈ sel.items →
      anySubquery (subqueryCorrelated E sc rq outer) e = anySubquery (subqueryCorrelated E sc rq' outer) e :=
    fun {e _} hi => anySubquery_congr fun q hq => hone q (List.mem_append_left _ (subqueries_subset_item hi hq))
  unfold selectHasCorrelated
  cases hf : sel.filter with
  | none =>
    refine List.foldl_ext _ _ _ fun init i hi => ?_
    cases i with
    | star q => rfl
    | expr e alias_ => simp only [hitem hi]
  | some f =>
    simp only [hfilter hf]
    refine List.foldl_ext _ _ _ fun init i hi => ?_
    cases i with
    | star q => rfl
    | expr e alias_ => simp only [hitem hi]

theorem resolveClauses_congr {sel : SelectStmt} {correlated : Bool}
    (h : Alike rq rq' (sel.rowSubqueries ++ subqueriesList sel.groupBy ++ subqueriesOpt sel.having)) :
    resolveClauses rq sel correlated = resolveClauses rq' sel correlated := by
  have hfilter : Alike rq rq' (subqueriesOpt sel.filter) := h.left.left.right
  have hitems : mapItems (resolveSub rq) sel.items = mapItems (resolveSub rq') sel.items :=
    mapItems_congr fun e alias_ he =>
      rewrite_congr (subResolver_agree (h.left.left.left.mono (subqueries_subset_item he)))
  have hgroup := rewriteList_congr (subResolver_agree (h.left.right : Alike rq rq' (subqueriesList sel.groupBy)))
  have hhaving := rewriteOpt_congr (subResolver_agree (h.right : Alike rq rq' (subqueriesOpt sel.having)))
  simp only [resolveClauses, resolveOpt, rewriteOpt_congr (subResolver_agree hfilter), hitems, hgroup, hhaving]

theorem collectKept_congr {cols : List RelCol} {correlated : Bool} {filter : Option Expr} {rows : List Row}
    (h : correlated = true → Probed E sc rq rq' (subqueriesOpt filter)) :
    collectKept E sc rq cols correlated filter rows = collectKept E sc rq' cols correlated filter rows := by
  have hrow : keepRow E sc rq cols correlated filter = keepRow E sc rq' cols correlated filter := by
    funext row
    cases correlated with
    | false => rfl
    | true =>
      have hfold : AgreeOn (corrFolder E sc rq cols row) (corrFolder E sc rq' cols row) (subqueriesOpt filter) :=
        corrFolder_agree (h rfl)
      simp only [keepRow, foldCorrOpt, rewriteOpt_congr hfold]
  simp only [collectKept, hrow]

theorem buildEntry_congr {cols : List RelCol} {correlated : Bool} {items : List SelItem}
    (h : correlated = true → Probed E sc rq rq' (items.flatMap subqueriesItem)) :
    buildEntry E sc rq cols correlated items = buildEntry E sc rq' cols correlated items := by
  funext row
  cases correlated with
  | false => rfl
  | true =>
    have hfold : ∀ e alias_, .expr e alias_ ∈ items → foldCorr E sc rq cols row e = foldCorr E sc rq' cols row e :=
      fun e alias_ he => rewrite_congr (corrFolder_agree ((h rfl).mono (subqueries_subset_item he)))
    simp only [buildEntry, if_true]
    refine congrArg (fun x : Res (List Row) => x >>= fun out => (.ok (out.flatten, [row]) : Res Entry))
      (Except.mapM_congr fun i hi => ?_)
    cases i with
    | star q => rfl
    | expr e alias_ => simp only [hfold e alias_ hi]

/-- A core run in a WITH scope answers from the queries it calls. -/
theorem evalCore_congr {sel : SelectStmt} {applyTail : Bool} (hbound : ∀ k ∈ bound, (ctes.lookup k).isSome)
    (hqueries : Alike rq rq' sel.coreQueries) (hviews : Alike rq rq' ((sel.coreNames bound).filterMap sc.view)) :
    evalCore E sc rq ctes applyTail sel = evalCore E sc rq' ctes applyTail sel := by
  have hclauses : Alike rq rq' (sel.rowSubqueries ++ subqueriesList sel.groupBy ++ subqueriesOpt sel.having) :=
    hqueries.mono fun q hq => by
      simp only [SelectStmt.coreQueries, List.mem_append] at hq ⊢
      tauto
  simp only [SelectStmt.coreNames, List.filterMap_append] at hviews
  have hfrom : Alike rq rq' (fromQueriesOpt sel.from_) := hqueries.left.left.left.left
  rw [evalCore, evalCore, buildFromOpt_congr hbound hfrom hviews.left]
  refine Except.bind_congr_ok fun rel _ => ?_
  by_cases hagg : aggQuery sel = true
  · simp only [hagg, if_true, resolveClauses_congr hclauses]
    refine Except.bind_congr_ok fun correlated hcorr => Except.bind_congr_ok fun plan _ => ?_
    obtain rfl := Except.ok.inj hcorr
    have hkept : collectKept E sc rq rel.cols false plan.filter rel.rows =
        collectKept E sc rq' rel.cols false plan.filter rel.rows := collectKept_congr (by simp)
    rw [hkept]
  · -- the FROM of every subquery is materialised to see whether it is correlated
    have hprobed : sel.probed = sel.rowSubqueries := if_neg hagg
    have hprobe : Probed E sc rq rq' sel.rowSubqueries := by
      refine ⟨hclauses.left.left, fun q hq => fromNamespace_congr (hqueries.right.mono ?_) (hviews.right.mono ?_)⟩
      · intro r hr
        exact List.mem_flatMap.2 ⟨q, hprobed ▸ hq, hr⟩
      · intro r hr
        obtain ⟨name, hname, hr⟩ := List.mem_filterMap.1 hr
        exact List.mem_filterMap.2 ⟨name, List.mem_flatMap.2 ⟨q, hprobed ▸ hq, hname⟩, hr⟩
    simp only [hagg, Bool.false_eq_true, if_false, selectHasCorrelated_congr hprobe, resolveClauses_congr hclauses]
    refine Except.bind_congr_ok fun correlated _ => Except.bind_congr_ok fun plan hplan => ?_
    have hplan : correlated = true → plan = ⟨sel.filter, sel.items, sel.groupBy, sel.having⟩ := by
      rintro rfl
      exact (Except.ok.inj hplan).symm
    rw [collectKept_congr fun h => ?_, buildEntry_congr fun h => ?_]
    · rw [hplan h]
      exact hprobe.mono (List.subset_append_left _ _)
    · rw [hplan h]
      exact hprobe.mono (List.subset_append_right _ _)

/-! ### One query -/

theorem lookup_of_ctes {with_ : List CteDef} : ∀ {ctes ctes' : Ctes},
    with_.foldlM (fun (ctes : Ctes) cte => do
      let rs ← rq cte.query
      return ctes.insert (toAsciiLowercase cte.name) (relationFromResult cte.name rs)) ctes = .ok ctes' →
    (∀ k, (ctes.lookup k).isSome → (ctes'.lookup k).isSome) ∧
      ∀ cte ∈ with_, (ctes'.lookup (toAsciiLowercase cte.name)).isSome := by
  induction with_ with
  | nil =>
    intro ctes ctes' h
    obtain rfl := Except.ok.inj h
    exact ⟨fun _ h => h, fun _ h => nomatch h⟩
  | cons cte with_ ih =>
    intro ctes ctes' h
    rw [List.foldlM_cons] at h
    obtain ⟨ctes₁, hone, h⟩ := Except.bind_eq_ok.1 h
    obtain ⟨rs, -, hone⟩ := Except.bind_eq_ok.1 hone
    obtain rfl := Except.ok.inj hone
    obtain ⟨hold, hnew⟩ := ih h
    refine ⟨fun k hk => hold k ?_, fun c hc => ?_⟩
    · by_cases heq : k = toAsciiLowercase cte.name
      · subst heq
        simp
      · rwa [AList.lookup_insert_ne heq]
    · rcases List.mem_cons.1 hc with rfl | hc
      · exact hold _ (by simp)
      · exact hnew c hc

/-- **A query answers from the queries it calls.** -/
theorem queryStep_congr {sel : SelectStmt} (h : Alike rq rq' (calls sc sel)) :
    queryStep E sc rq sel = queryStep E sc rq' sel := by
  have hqueries : Alike rq rq' sel.queries := h.left
  have hviews : Alike rq rq' (sel.names.filterMap sc.view) := h.right
  simp only [SelectStmt.names, List.filterMap_append] at hviews
  unfold queryStep
  rw [Except.foldlM_congr fun cte hcte ctes => by rw [hqueries.left.left.eq (List.mem_map_of_mem hcte)]]
  refine Except.bind_congr_ok fun ctes hfold => ?_
  have hbound : ∀ k ∈ sel.cteNames, (ctes.lookup k).isSome := by
    intro k hk
    obtain ⟨cte, hcte, rfl⟩ := List.mem_map.1 hk
    exact (lookup_of_ctes hfold).2 cte hcte
  have hcore : ∀ applyTail, evalCore E sc rq ctes applyTail sel = evalCore E sc rq' ctes applyTail sel :=
    fun _ => evalCore_congr hbound hqueries.left.right hviews.left
  have hpart : ∀ part ∈ sel.setOps, evalCore E sc rq ctes true part.query = evalCore E sc rq' ctes true part.query := by
    intro part hpart
    refine evalCore_congr hbound (hqueries.right.mono fun q hq => ?_) (hviews.right.mono fun q hq => ?_)
    · exact List.mem_flatMap.2 ⟨part, hpart, hq⟩
    · obtain ⟨name, hname, hq⟩ := List.mem_filterMap.1 hq
      exact List.mem_filterMap.2 ⟨name, List.mem_flatMap.2 ⟨part, hpart, hname⟩, hq⟩
  rw [hcore true, hcore false]
  by_cases hempty : sel.setOps.isEmpty = true
  · rw [if_pos hempty, if_pos hempty]
  · rw [if_neg hempty, if_neg hempty]
    refine Except.bind_congr_ok fun acc _ => ?_
    rw [Except.foldlM_congr fun part hin acc => by rw [hpart part hin]]

end

end Twill
