/-
What an expression sees of its row. `eval` reads a row through the names of
its columns, the `excluded` names and the bound parameters; two contexts that
answer these alike, with no group, evaluate every expression alike.
-/
import Twill.Eval
import Twill.Lib.Except

namespace Twill

/-- Contexts no expression tells apart. -/
structure EvalCtx.Alike (c c' : EvalCtx) : Prop where
  params : c.params = c'.params
  column : ∀ table name, resolveValue c table name = resolveValue c' table name
  excluded : ∀ name, evalExcluded c name = evalExcluded c' name
  group : c.group = none
  group' : c'.group = none

namespace EvalCtx.Alike

variable {E : Env} {c c' : EvalCtx}

theorem groupOf_eq (h : c.Alike c') : groupOf c = groupOf c' := by
  unfold groupOf
  rw [h.group, h.group']

theorem groupOf_error (h : c.Alike c') : ∃ stop, groupOf c = .error stop := by
  unfold groupOf
  rw [h.group]
  exact ⟨_, rfl⟩

mutual

theorem eval_eq (h : c.Alike c') : ∀ e : Expr, eval E e c = eval E e c'
  | .null => by simp only [eval]
  | .int _ => by simp only [eval]
  | .real _ => by simp only [eval]
  | .str _ => by simp only [eval]
  | .vector _ => by simp only [eval]
  | .lit _ => by simp only [eval]
  | .param _ => by simp only [eval, evalParam, h.params]
  | .column name => by simp only [eval, h.column]
  | .qualified table name => by simp only [eval, h.column]
  | .unary op e => by simp only [eval, eval_eq h e]
  | .isNull e negated => by simp only [eval, eval_eq h e]
  | .like e pattern escape _ _ => by simp only [eval, eval_eq h e, eval_eq h pattern, evalOpt_eq h escape]
  | .inList e list negated => by simp only [eval, eval_eq h e, evalInList_eq h list]
  | .between e lo hi _ => by simp only [eval, eval_eq h e, eval_eq h lo, eval_eq h hi]
  | .case operand whens els => by simp only [eval, evalOpt_eq h operand, evalWhens_eq h whens, evalOpt_eq h els]
  | .default => by simp only [eval]
  | .excluded name => by simp only [eval, h.excluded]
  | .binary op l r => by simp only [eval, eval_eq h l, eval_eq h r]
  | .cast e _ => by simp only [eval, eval_eq h e]
  | .func name args => by simp only [eval, evalHead_eq h args, evalList_eq h args]
  | .aggregate _ .star _ sep => by
    -- with no group there are no rows to aggregate
    simp only [eval, h.groupOf_eq, evalOpt_eq h sep]
  | .aggregate _ (.expr _) _ sep => by
    obtain ⟨stop, hstop⟩ := h.groupOf_error
    simp only [eval, ← h.groupOf_eq, hstop, Except.error_bind]
  | .scalarSubquery _ => by simp only [eval]
  | .exists _ _ => by simp only [eval]
  | .inSubquery _ _ _ => by simp only [eval]

theorem evalList_eq (h : c.Alike c') : ∀ es : List Expr, evalList E es c = evalList E es c'
  | [] => by simp only [evalList]
  | e :: es => by simp only [evalList, eval_eq h e, evalList_eq h es]

theorem evalHead_eq (h : c.Alike c') : ∀ es : List Expr, evalHead E es c = evalHead E es c'
  | [] => by simp only [evalHead]
  | e :: _ => by simp only [evalHead, eval_eq h e]

theorem evalOpt_eq (h : c.Alike c') : ∀ e : Option Expr, evalOpt E e c = evalOpt E e c'
  | none => by simp only [evalOpt]
  | some e => by simp only [evalOpt, eval_eq h e]

theorem evalInList_eq (h : c.Alike c') : ∀ (es : List Expr) (v : Value) (negated sawNull : Bool),
    evalInList E es v negated sawNull c = evalInList E es v negated sawNull c'
  | [], _, _, _ => by simp only [evalInList]
  | e :: es, v, negated, sawNull => by simp only [evalInList, eval_eq h e, evalInList_eq h es]

theorem evalWhens_eq (h : c.Alike c') : ∀ (whens : List (Expr × Expr)) (operand : Option Value),
    evalWhens E whens operand c = evalWhens E whens operand c'
  | [], _ => by simp only [evalWhens]
  | (cond, result) :: whens, operand => by
    simp only [evalWhens, eval_eq h cond, eval_eq h result, evalWhens_eq h whens]

end

theorem predicate_eq (h : c.Alike c') (filter : Option Expr) : predicate E filter c = predicate E filter c' := by
  cases filter with
  | none => rfl
  | some e => simp only [predicate, h.eval_eq e]

end EvalCtx.Alike

/-! ## Rows under their column names -/

/-- The cells of a row under a name. -/
def named (table : Option String) (name : String) (cells : List (RelCol × Value)) : List Value :=
  (cells.filter fun p => relColMatches table name p.1).map (·.2)

/-- The one value of a name, or the error of `resolve_col`. -/
def theValue (table : Option String) (name : String) : List Value → Res Value
  | [] => .error (EngineError.sql ("no such column: " ++ qualifierText table ++ name))
  | [v] => .ok v
  | _ => .error (EngineError.sql ("ambiguous column reference: " ++ qualifierText table ++ name))

theorem filter_zipIdx_named (table : Option String) (name : String) :
    ∀ (cols : List RelCol) (row : Row) (k : ℕ), row.length = cols.length →
      List.Forall₂ (fun i v => k ≤ i ∧ row[i - k]? = some v)
        (((cols.zipIdx k).filter fun p => relColMatches table name p.1).map (·.2)) (named table name (cols.zip row))
  | [], [], _, _ => by simp [named]
  | c :: cols, v :: row, k, h => by
    have ih := filter_zipIdx_named table name cols row (k + 1) (by simpa using h)
    have hshift := ih.imp (fun i w (hiw : k + 1 ≤ i ∧ row[i - (k + 1)]? = some w) =>
      (⟨by omega, by
        obtain ⟨j, rfl⟩ : ∃ j, i = j + (k + 1) := ⟨i - (k + 1), by omega⟩
        have hj : j + (k + 1) - k = j + 1 := by omega
        rw [hj, List.getElem?_cons_succ]
        simpa using hiw.2⟩ : k ≤ i ∧ (v :: row)[i - k]? = some w))
    rw [List.zipIdx_cons, List.zip_cons_cons, named, List.filter_cons, List.filter_cons]
    by_cases hc : relColMatches table name c = true
    · rw [if_pos hc, if_pos hc]
      exact .cons ⟨le_refl k, by simp⟩ hshift
    · rw [if_neg hc, if_neg hc]
      exact hshift

/-- A column reference over a row as wide as its columns: the cell under that name. -/
theorem resolveValue_rel {row : Row} {cols : List RelCol} {params : List Value} (h : row.length = cols.length)
    (table : Option String) (name : String) :
    resolveValue (EvalCtx.rel row cols params) table name = theValue table name (named table name (cols.zip row)) := by
  have hpos := filter_zipIdx_named table name cols row 0 h
  change (resolveCol cols table name >>= indexRow row) = _
  unfold resolveCol
  revert hpos
  generalize ((cols.zipIdx.filter fun p => relColMatches table name p.1).map (·.2)) = is
  generalize named table name (cols.zip row) = vs
  intro hpos
  match is, vs, hpos with
  | [], [], _ => rfl
  | [i], [v], .cons hi _ =>
    have hrow : row[i]? = some v := hi.2
    simp only [Except.ok_bind, indexRow, hrow, theValue]
  | _ :: _ :: _, _ :: _ :: _, _ => rfl

theorem theValue_perm {table : Option String} {name : String} {vs ws : List Value} (h : vs.Perm ws) :
    theValue table name vs = theValue table name ws := by
  match vs, ws, h.length_eq with
  | [], [], _ => rfl
  | [v], [w], _ =>
    rw [List.singleton_perm_singleton.1 h]
  | _ :: _ :: _, _ :: _ :: _, _ => rfl

/-- The cells in another order read alike. -/
theorem EvalCtx.alike_perm {row row' : Row} {cols cols' : List RelCol} {params : List Value}
    (h : row.length = cols.length) (h' : row'.length = cols'.length) (hperm : (cols.zip row).Perm (cols'.zip row')) :
    (EvalCtx.rel row cols params).Alike (EvalCtx.rel row' cols' params) where
  params := rfl
  column table name := by
    rw [resolveValue_rel h, resolveValue_rel h']
    exact theValue_perm ((hperm.filter _).map _)
  excluded _ := rfl
  group := rfl
  group' := rfl

end Twill
