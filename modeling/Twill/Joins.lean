/-
The joins of the relational executor (`join`, `join_inner`, `join_outer`,
`join_full`) against relational algebra: where the condition evaluates at every
pair of rows, each kind of join is its multiset of the library, a missing side
filled with nulls, and a right join is the left join of the operands swapped,
row for row.
-/
import Twill.EvalAlike
import Twill.OrderBy
import Twill.Relational
import Twill.Lib.JoinAlgebra

namespace Twill

open JoinAlgebra

/-! ## Loops that answer -/

theorem mapM_ok {α β : Type} {f : α → Res β} {g : α → β} {l : List α} (h : ∀ a ∈ l, f a = .ok (g a)) :
    l.mapM f = .ok (l.map g) := by
  rw [Except.mapM_eq_ok]
  induction l with
  | nil => exact .nil
  | cons a l ih => exact .cons (h a List.mem_cons_self) (ih fun b hb => h b (List.mem_cons_of_mem a hb))

theorem filterMap_map_if {α β : Type} (p : α → Bool) (f : α → β) (l : List α) :
    (l.map fun a => if p a then some (f a) else none).filterMap id = (l.filter p).map f := by
  induction l with
  | nil => rfl
  | cons a l ih =>
    rw [List.map_cons, List.filter_cons]
    by_cases h : p a = true
    · rw [if_pos h, if_pos h, List.filterMap_cons_some (f := id) rfl, ih, List.map_cons]
    · rw [if_neg h, if_neg h, List.filterMap_cons_none rfl, ih]

/-- The combined rows of an outer row, from the inner rows it matches. -/
theorem matchRows_ok {E : Env} {jc : JoinCtx} {m : Row → Bool} {outer : Row} {inner : List Row}
    (h : ∀ irow ∈ inner, rowMatches E jc (jc.combine outer irow) = .ok (m irow)) :
    matchRows E jc outer inner = .ok ((inner.filter m).map (jc.combine outer)) := by
  have hbody := mapM_ok (f := fun irow => (do
      let c := jc.combine outer irow
      return if ← rowMatches E jc c then some c else none : Res (Option Row)))
    (g := fun irow => if m irow then some (jc.combine outer irow) else none) (l := inner)
    (fun irow hmem => by simp only [h irow hmem, Except.ok_bind, Except.pure_eq])
  unfold matchRows
  rw [hbody]
  simp only [Except.ok_bind, Except.pure_eq, filterMap_map_if]

/-! ## The rows of a join -/

/-- A joined pair as a row: a missing side is all nulls. -/
def joinedRow (lw rw : ℕ) (p : Option Row × Option Row) : Row :=
  p.1.getD (List.replicate lw .null) ++ p.2.getD (List.replicate rw .null)

/-- The join condition evaluates at every pair of rows. -/
def Evaluates (E : Env) (jc : JoinCtx) (L R : List Row) (m : Row → Row → Bool) : Prop :=
  ∀ lr ∈ L, ∀ rr ∈ R, rowMatches E jc (lr ++ rr) = .ok (m lr rr)

section Rows

variable {E : Env} {l r : Relation} {jc : JoinCtx} {m : Row → Row → Bool} {lw rw : ℕ}

theorem matchRows_left (hm : Evaluates E jc l.rows r.rows m) (hjc : jc.swapped = false) (lw rw : ℕ) :
    ∀ lr ∈ l.rows, matchRows E jc lr r.rows = .ok ((hits m r.rows lr).map (joinedRow lw rw)) := by
  intro lr hlr
  have hcombine : jc.combine lr = fun rr => lr ++ rr := by
    funext rr
    rw [JoinCtx.combine, hjc, if_neg (by decide)]
  rw [matchRows_ok (m := m lr) (fun rr hrr => by rw [hcombine]; exact hm lr hlr rr hrr), hcombine]
  simp [hits, joinedRow, Function.comp_def]

/-- The outer side is the right one, and its rows still stand right. -/
theorem matchRows_right (hm : Evaluates E jc l.rows r.rows m) (hjc : jc.swapped = true) (lw rw : ℕ) :
    ∀ rr ∈ r.rows, matchRows E jc rr l.rows =
      .ok ((hits (fun b a => m a b) l.rows rr).map fun p => joinedRow lw rw p.swap) := by
  intro rr hrr
  have hcombine : jc.combine rr = fun lr => lr ++ rr := by
    funext lr
    rw [JoinCtx.combine, hjc, if_pos rfl]
  rw [matchRows_ok (m := fun lr => m lr rr) (fun lr hlr => by rw [hcombine]; exact hm lr hlr rr hrr), hcombine]
  simp [hits, joinedRow, Function.comp_def]

theorem joinInner_ok (hm : Evaluates E jc l.rows r.rows m) (hjc : jc.swapped = false) (lw rw : ℕ) :
    joinInner E l r jc = .ok ((l.rows.flatMap (hits m r.rows)).map (joinedRow lw rw)) := by
  unfold joinInner
  rw [mapM_ok (matchRows_left hm hjc lw rw)]
  simp [List.flatMap_def, List.map_flatten, Function.comp_def]

/-- The nested loop of an outer join, from the matches of each outer row. -/
theorem joinOuter_ok {outer inner : Relation} {θ : Row → Row → Bool} {f : Option Row × Option Row → Row}
    (hmatch : ∀ o ∈ outer.rows, matchRows E jc o inner.rows = .ok ((hits θ inner.rows o).map f)) {nullInner : Row}
    (hnull : ∀ o, jc.combine o nullInner = f (some o, none)) :
    joinOuter E outer inner jc nullInner =
      .ok ((outer.rows.flatMap (hitsOrAlone θ inner.rows)).map f) := by
  have hbody := mapM_ok (f := fun orow => (do
      let hits ← matchRows E jc orow inner.rows
      return if hits.isEmpty then [jc.combine orow nullInner] else hits : Res (List Row)))
    (g := fun o => (hitsOrAlone θ inner.rows o).map f)
    (l := outer.rows) (fun o ho => by
      rw [hmatch o ho]
      simp only [Except.ok_bind, Except.pure_eq, List.isEmpty_map, hnull, hitsOrAlone]
      by_cases hempty : (hits θ inner.rows o).isEmpty = true
      · rw [if_pos hempty, if_pos hempty]
        rfl
      · rw [if_neg hempty, if_neg hempty])
  unfold joinOuter
  rw [hbody]
  simp [List.flatMap_def, List.map_flatten, Function.comp_def]

/-- A right row is hit by its position exactly when some left row matches it. -/
theorem unhit_eq (L R : List Row) :
    ((R.zipIdx.filter fun p => !(L.flatMap fun lr => (R.zipIdx.filter fun q => m lr q.1).map (·.2)).contains p.2).map
        (·.1)) = R.filter fun rr => ∀ lr ∈ L, ¬ m lr rr := by
  have hzip : R = R.zipIdx.map (·.1) := by simp
  have hfilter : (R.zipIdx.filter fun p => !(L.flatMap fun lr => (R.zipIdx.filter fun q => m lr q.1).map (·.2)).contains p.2) =
      R.zipIdx.filter fun p => ∀ lr ∈ L, ¬ m lr p.1 := by
    apply List.filter_congr
    rintro ⟨rr, j⟩ hj
    rw [List.mem_zipIdx_iff_getElem?] at hj
    have hhit : (L.flatMap fun lr => (R.zipIdx.filter fun q => m lr q.1).map (·.2)).contains j = true ↔
        ∃ lr ∈ L, m lr rr = true := by
      simp only [List.contains_iff_mem, List.mem_flatMap, List.mem_map, List.mem_filter, List.mem_zipIdx_iff_getElem?]
      constructor
      · rintro ⟨lr, hlr, ⟨rr', j'⟩, ⟨hj', hmatch⟩, hjj⟩
        obtain rfl : j' = j := hjj
        rw [hj] at hj'
        obtain rfl := Option.some.inj hj'
        exact ⟨lr, hlr, hmatch⟩
      · rintro ⟨lr, hlr, hmatch⟩
        exact ⟨lr, hlr, (rr, j), ⟨hj, hmatch⟩, rfl⟩
    rw [Bool.eq_iff_iff, Bool.not_eq_true', ← Bool.not_eq_true, hhit]
    simp
  rw [hfilter]
  conv_rhs => rw [hzip, List.filter_map]
  rfl

/-- The right rows a left row matches, with their positions. -/
def fullHits (m : Row → Row → Bool) (R : List Row) (lr : Row) : List (Row × ℕ) :=
  (R.zipIdx.filter fun p => m lr p.1).map fun p => (lr ++ p.1, p.2)

theorem fullHits_rows (m : Row → Row → Bool) (R : List Row) (lr : Row) (lw rw : ℕ) :
    (fullHits m R lr).map (·.1) = (hits m R lr).map (joinedRow lw rw) := by
  have hzip : R.filter (m lr) = (R.zipIdx.filter fun p => m lr p.1).map (·.1) := by
    have hmap : R = R.zipIdx.map (·.1) := by simp
    conv_lhs => rw [hmap, List.filter_map]
    rfl
  unfold fullHits hits
  rw [hzip]
  simp [joinedRow, Function.comp_def]

theorem joinFull_ok (hm : Evaluates E jc l.rows r.rows m) (lw rw : ℕ) :
    joinFull E l r jc (List.replicate lw .null) (List.replicate rw .null) =
      .ok ((l.rows.flatMap (hitsOrAlone m r.rows) ++
        (r.rows.filter fun rr => ∀ lr ∈ l.rows, ¬ m lr rr).map fun b => (none, some b)).map (joinedRow lw rw)) := by
  have hinner : ∀ lr ∈ l.rows, (r.rows.zipIdx.mapM fun p => do
        return if ← rowMatches E jc (lr ++ p.1) then some (lr ++ p.1, p.2) else none : Res _) =
      .ok (r.rows.zipIdx.map fun p => if m lr p.1 then some (lr ++ p.1, p.2) else none) := by
    intro lr hlr
    apply mapM_ok
    rintro ⟨rr, j⟩ hj
    have hrr : rr ∈ r.rows := List.mem_of_getElem? (List.mem_zipIdx_iff_getElem?.1 hj)
    simp only [hm lr hlr rr hrr, Except.ok_bind, Except.pure_eq]
  have houter := mapM_ok (f := fun lr => (do
      let hits ← r.rows.zipIdx.mapM fun p => do
        return if ← rowMatches E jc (lr ++ p.1) then some (lr ++ p.1, p.2) else none
      let hits := hits.filterMap id
      return (if hits.isEmpty then [lr ++ List.replicate rw Value.null] else hits.map (·.1), hits.map (·.2)) :
        Res (List Row × List ℕ)))
    (g := fun lr => ((hitsOrAlone m r.rows lr).map (joinedRow lw rw), (fullHits m r.rows lr).map (·.2))) (l := l.rows) (fun lr hlr => by
        rw [hinner lr hlr]
        have hfilter := filterMap_map_if (fun p => m lr p.1) (fun p => (lr ++ p.1, p.2)) r.rows.zipIdx
        have hempty : (fullHits m r.rows lr).isEmpty = (hits m r.rows lr).isEmpty := by
          have h := congrArg List.isEmpty (fullHits_rows m r.rows lr lw rw)
          simpa using h
        simp only [Except.ok_bind, Except.pure_eq, hfilter]
        change Except.ok (if (fullHits m r.rows lr).isEmpty then _ else (fullHits m r.rows lr).map (·.1),
          (fullHits m r.rows lr).map (·.2)) = _
        rw [hempty, fullHits_rows m r.rows lr lw rw, hitsOrAlone]
        by_cases h : (hits m r.rows lr).isEmpty = true
        · rw [if_pos h, if_pos h]
          rfl
        · rw [if_neg h, if_neg h])
  unfold joinFull
  rw [houter]
  simp only [Except.ok_bind, Except.pure_eq]
  have hhit : ((l.rows.map fun lr => ((hitsOrAlone m r.rows lr).map (joinedRow lw rw),
        (fullHits m r.rows lr).map (·.2))).flatMap fun p => p.2) =
      l.rows.flatMap fun lr => (r.rows.zipIdx.filter fun q => m lr q.1).map (·.2) := by
    simp [List.flatMap_map, fullHits, Function.comp_def]
  rw [hhit, List.map_append, ← unhit_eq l.rows r.rows]
  simp [List.flatMap_map, List.map_flatMap, joinedRow, Function.comp_def]

end Rows

/-! ## Swapping the operands -/

/-- The positions the USING columns equate: in the left columns and, behind them, in the right. -/
def usingPairs (l r : List RelCol) (using_ : List String) : Res (List (ℕ × ℕ)) :=
  using_.mapM fun u => do
    let i ← resolveCol l none u
    let j ← resolveCol r none u
    return (i, l.length + j)

/-- A relation: every row is as wide as the columns. -/
def Relation.Rectangular (l : Relation) : Prop := ∀ row ∈ l.rows, row.length = l.cols.length

theorem resolveCol_lt {cols : List RelCol} {table : Option String} {name : String} {i : ℕ}
    (h : resolveCol cols table name = .ok i) : i < cols.length := by
  unfold resolveCol at h
  split at h
  · cases h
  · rename_i j hj
    obtain rfl : j = i := Except.ok.inj h
    have hmem : j ∈ (cols.zipIdx.filter fun p => relColMatches table name p.1).map (·.2) := by rw [hj]; simp
    obtain ⟨⟨c, k⟩, hk, rfl⟩ := List.mem_map.1 hmem
    exact (List.getElem?_eq_some_iff.1 (List.mem_zipIdx_iff_getElem?.1 (List.mem_of_mem_filter hk))).1
  · cases h

/-- The pairs of the operands swapped name the same two cells. -/
theorem usingPairs_swap {l r : List RelCol} {using_ : List String} {pairs : List (ℕ × ℕ)}
    (h : usingPairs l r using_ = .ok pairs) :
    ∃ pairs', usingPairs r l using_ = .ok pairs' ∧
      List.Forall₂ (fun p q => ∃ i j, i < l.length ∧ j < r.length ∧ p = (i, l.length + j) ∧ q = (j, r.length + i))
        pairs pairs' := by
  unfold usingPairs at h ⊢
  rw [Except.mapM_eq_ok] at h
  induction h with
  | nil => exact ⟨[], rfl, .nil⟩
  | @cons u p us ps hu _ ih =>
    obtain ⟨ps', hps', hrel⟩ := ih
    obtain ⟨i, hi, hu⟩ := Except.bind_eq_ok.1 hu
    obtain ⟨j, hj, hu⟩ := Except.bind_eq_ok.1 hu
    refine ⟨(j, r.length + i) :: ps', ?_, .cons ⟨i, j, resolveCol_lt hi, resolveCol_lt hj, (Except.ok.inj hu).symm, rfl⟩
      hrel⟩
    rw [Except.mapM_cons_eq, hps', hi, hj]
    rfl

theorem sqlEq_comm (v w : Value) : v.sqlEq w = w.sqlEq v := by
  unfold Value.sqlEq
  rw [sqlCmp_swap w v, Bool.or_comm]
  split
  · rfl
  · cases w.sqlCmp v with
    | none => rfl
    | some o => cases o <;> rfl

theorem pairsMatch_swap {lr rr : Row} {pairs pairs' : List (ℕ × ℕ)}
    (h : List.Forall₂ (fun p q => ∃ i j, i < lr.length ∧ j < rr.length ∧ p = (i, lr.length + j) ∧ q = (j, rr.length + i))
      pairs pairs') : pairsMatch (lr ++ rr) pairs = pairsMatch (rr ++ lr) pairs' := by
  induction h with
  | nil => rfl
  | cons hpq _ ih =>
    obtain ⟨i, j, hi, hj, rfl, rfl⟩ := hpq
    have hcell : ∀ {a b : Row} {k : ℕ}, k < a.length → indexRow (a ++ b) k = indexRow a k := by
      intro a b k hk
      simp only [indexRow, List.getElem?_append_left hk]
    have hcell' : ∀ {a b : Row} {k : ℕ}, indexRow (a ++ b) (a.length + k) = indexRow b k := by
      intro a b k
      simp only [indexRow, List.getElem?_append_right (Nat.le_add_right _ _), Nat.add_sub_cancel_left]
    have hok : ∀ {a : Row} {k : ℕ}, k < a.length → ∃ v, indexRow a k = .ok v := by
      intro a k hk
      simp only [indexRow, List.getElem?_eq_getElem hk]
      exact ⟨_, rfl⟩
    obtain ⟨v, hv⟩ := hok hi
    obtain ⟨w, hw⟩ := hok hj
    simp only [pairsMatch, hcell hi, hcell hj, hcell', hv, hw, Except.ok_bind, sqlEq_comm w v, ih]

/-- The condition reads a pair of rows alike, whichever side stands first. -/
theorem rowMatches_swap {E : Env} {l r : List RelCol} {on_ : Option Expr} {params : List Value}
    {pairs pairs' : List (ℕ × ℕ)} {lr rr : Row} {b : Bool} (hl : lr.length = l.length) (hr : rr.length = r.length)
    (hpairs : List.Forall₂ (fun p q => ∃ i j, i < l.length ∧ j < r.length ∧ p = (i, l.length + j) ∧ q = (j, r.length + i))
      pairs pairs') :
    rowMatches E ⟨r ++ l, on_, pairs', params, b⟩ (rr ++ lr) = rowMatches E ⟨l ++ r, on_, pairs, params, b⟩ (lr ++ rr) := by
  have halike : (EvalCtx.rel (rr ++ lr) (r ++ l) params).Alike (EvalCtx.rel (lr ++ rr) (l ++ r) params) := by
    apply EvalCtx.alike_perm
    · simp [hl, hr]
    · simp [hl, hr]
    · rw [List.zip_append hr.symm, List.zip_append hl.symm]
      exact List.perm_append_comm
  rw [← hl, ← hr] at hpairs
  unfold rowMatches
  rw [pairsMatch_swap hpairs, halike.predicate_eq]

/-- Puts the columns of the operands swapped back in order: the right ones stand first, `rw` of them. -/
def putBack (rw : ℕ) (row : Row) : Row := row.drop rw ++ row.take rw

/-! ## Every kind of join -/

theorem joinRel_eq (E : Env) (l r : Relation) (kind : JoinKind) (on_ : Option Expr) (using_ : List String)
    (params : List Value) : joinRel E l r kind on_ using_ params = (do
      let pairs ← usingPairs l.cols r.cols using_
      let nullL := List.replicate l.cols.length Value.null
      let nullR := List.replicate r.cols.length Value.null
      let jc : JoinCtx := ⟨l.cols ++ r.cols, on_, pairs, params, false⟩
      let rows ← match kind with
        | .inner | .cross => joinInner E l r jc
        | .left => joinOuter E l r jc nullR
        | .right => joinOuter E r l { jc with swapped := true } nullL
        | .full => joinFull E l r jc nullL nullR
      return ⟨l.cols ++ r.cols, rows⟩) := rfl

/-- The condition of a join on a combined row: every USING pair is equal and ON is true, neither of
them NULL. -/
def JoinCondition (E : Env) (jc : JoinCtx) (c : Row) : Prop :=
  (∀ p ∈ jc.pairs, ∃ v w, indexRow c p.1 = .ok v ∧ indexRow c p.2 = .ok w ∧ v.sqlEq w = some true) ∧
  ∀ e, jc.on_ = some e → ∃ v, eval E e (EvalCtx.rel c jc.cols jc.params) = .ok v ∧ v.asBool = some true

theorem pairsMatch_true {c : Row} : ∀ {pairs : List (ℕ × ℕ)} {b : Bool}, pairsMatch c pairs = .ok b →
    (b = true ↔ ∀ p ∈ pairs, ∃ v w, indexRow c p.1 = .ok v ∧ indexRow c p.2 = .ok w ∧ v.sqlEq w = some true)
  | [], b, h => by
    obtain rfl := Except.ok.inj h
    simp
  | (i, j) :: pairs, b, h => by
    obtain ⟨v, hv, h⟩ := Except.bind_eq_ok.1 h
    obtain ⟨w, hw, h⟩ := Except.bind_eq_ok.1 h
    by_cases heq : v.sqlEq w = some true
    · rw [if_pos heq] at h
      rw [pairsMatch_true h, List.forall_mem_cons]
      exact ⟨fun hrest => ⟨⟨v, w, hv, hw, heq⟩, hrest⟩, fun hall => hall.2⟩
    · rw [if_neg heq] at h
      obtain rfl := Except.ok.inj h
      refine ⟨fun hfalse => absurd hfalse (by decide), fun hall => ?_⟩
      obtain ⟨v', w', hv', hw', hsql⟩ := hall (i, j) List.mem_cons_self
      rw [hv] at hv'
      rw [hw] at hw'
      rw [← Except.ok.inj hv', ← Except.ok.inj hw'] at hsql
      exact absurd hsql heq

theorem rowMatches_true {E : Env} {jc : JoinCtx} {c : Row} {b : Bool} (h : rowMatches E jc c = .ok b) :
    b = true ↔ JoinCondition E jc c := by
  unfold rowMatches at h
  obtain ⟨u, hu, h⟩ := Except.bind_eq_ok.1 h
  unfold JoinCondition
  rw [← pairsMatch_true hu]
  cases u with
  | false =>
    obtain rfl := Except.ok.inj h
    simp
  | true =>
    rw [if_pos rfl] at h
    unfold predicate at h
    cases hon : jc.on_ with
    | none =>
      rw [hon] at h
      obtain rfl := Except.ok.inj h
      simp
    | some e =>
      rw [hon] at h
      obtain ⟨v, hv, h⟩ := Except.bind_eq_ok.1 h
      obtain rfl := Except.ok.inj h
      constructor
      · intro htrue
        refine ⟨rfl, fun e' he' => ⟨v, Option.some.inj he' ▸ hv, ?_⟩⟩
        cases hb : v.asBool with
        | none => rw [hb] at htrue; cases htrue
        | some b => rw [hb] at htrue; exact congrArg some htrue
      · rintro ⟨-, he⟩
        obtain ⟨v', hv', htrue⟩ := he e rfl
        rw [hv] at hv'
        rw [Except.ok.inj hv', htrue]
        rfl

/-- **Joins are relational algebra.** Where the USING columns resolve and the condition evaluates at
every pair of rows, every kind of join answers, with its multiset of rows; and over rows as wide
as their columns RIGHT is LEFT of the operands swapped, with the columns put back. -/
theorem joinRel_algebra {E : Env} {l r : Relation} {on_ : Option Expr} {using_ : List String} {params : List Value}
    {pairs : List (ℕ × ℕ)} {m : Row → Row → Bool} (hpairs : usingPairs l.cols r.cols using_ = .ok pairs)
    (hm : Evaluates E ⟨l.cols ++ r.cols, on_, pairs, params, false⟩ l.rows r.rows m) :
    (∀ lr ∈ l.rows, ∀ rr ∈ r.rows,
      m lr rr = true ↔ JoinCondition E ⟨l.cols ++ r.cols, on_, pairs, params, false⟩ (lr ++ rr)) ∧
    (∃ rows, joinRel E l r .inner on_ using_ params = .ok ⟨l.cols ++ r.cols, rows⟩ ∧
      (rows : Multiset Row) = (inner m l.rows r.rows).map (joinedRow l.cols.length r.cols.length)) ∧
    (∃ rows, joinRel E l r .left on_ using_ params = .ok ⟨l.cols ++ r.cols, rows⟩ ∧
      (rows : Multiset Row) = (left m l.rows r.rows).map (joinedRow l.cols.length r.cols.length)) ∧
    (∃ rows, joinRel E l r .right on_ using_ params = .ok ⟨l.cols ++ r.cols, rows⟩ ∧
      (rows : Multiset Row) = (right m l.rows r.rows).map (joinedRow l.cols.length r.cols.length) ∧
      (l.Rectangular → r.Rectangular → ∃ rows',
        joinRel E r l .left on_ using_ params = .ok ⟨r.cols ++ l.cols, rows'⟩ ∧
          rows = rows'.map (putBack r.cols.length))) ∧
    ∃ rows, joinRel E l r .full on_ using_ params = .ok ⟨l.cols ++ r.cols, rows⟩ ∧
      (rows : Multiset Row) = (full m l.rows r.rows).map (joinedRow l.cols.length r.cols.length) := by
  have hleft := matchRows_left hm rfl l.cols.length r.cols.length
  have hm' : Evaluates E ⟨l.cols ++ r.cols, on_, pairs, params, true⟩ l.rows r.rows m := hm
  have hright := matchRows_right hm' rfl l.cols.length r.cols.length
  refine ⟨fun lr hlr rr hrr => rowMatches_true (hm lr hlr rr hrr), ?_, ?_, ?_, ?_⟩
  · refine ⟨(l.rows.flatMap (hits m r.rows)).map (joinedRow l.cols.length r.cols.length), ?_, ?_⟩
    · rw [joinRel_eq, hpairs]
      simp only [Except.ok_bind]
      rw [joinInner_ok hm rfl l.cols.length r.cols.length]
      rfl
    · rw [inner_eq_nested, Multiset.map_coe]
  · refine ⟨(l.rows.flatMap (hitsOrAlone m r.rows)).map (joinedRow l.cols.length r.cols.length), ?_, ?_⟩
    · rw [joinRel_eq, hpairs]
      simp only [Except.ok_bind]
      rw [joinOuter_ok hleft (fun o => rfl)]
      rfl
    · rw [left_eq_nested, Multiset.map_coe]
  · refine ⟨(r.rows.flatMap (hitsOrAlone (fun rr lr => m lr rr) l.rows)).map
      fun p => joinedRow l.cols.length r.cols.length p.swap, ?_, ?_, ?_⟩
    · rw [joinRel_eq, hpairs]
      simp only [Except.ok_bind]
      rw [joinOuter_ok hright (fun o => rfl)]
      rfl
    · rw [right, left_eq_nested, Multiset.map_map, Multiset.map_coe]
      rfl
    · intro hl hr
      obtain ⟨pairs', hpairs', hrel⟩ := usingPairs_swap hpairs
      have hm' : Evaluates E ⟨r.cols ++ l.cols, on_, pairs', params, false⟩ r.rows l.rows fun rr lr => m lr rr := by
        intro rr hrr lr hlr
        rw [rowMatches_swap (hl lr hlr) (hr rr hrr) hrel]
        exact hm lr hlr rr hrr
      refine ⟨(r.rows.flatMap (hitsOrAlone (fun rr lr => m lr rr) l.rows)).map
        (joinedRow r.cols.length l.cols.length), ?_, ?_⟩
      · rw [joinRel_eq, hpairs']
        simp only [Except.ok_bind]
        rw [joinOuter_ok (matchRows_left hm' rfl r.cols.length l.cols.length) (fun o => rfl)]
        rfl
      · rw [List.map_map]
        apply List.map_congr_left
        rintro ⟨o, i⟩ hp
        obtain ⟨rr, hrr, hmem⟩ := List.mem_flatMap.1 hp
        have hside : o = some rr := by
          unfold hitsOrAlone at hmem
          split at hmem
          · simpa using congrArg Prod.fst (List.mem_singleton.1 hmem)
          · obtain ⟨_, -, heq⟩ := List.mem_map.1 hmem
            exact (congrArg Prod.fst heq).symm
        subst hside
        have hwidth := hr rr hrr
        simp [joinedRow, putBack, ← hwidth]
  · refine ⟨(l.rows.flatMap (hitsOrAlone m r.rows) ++
      (r.rows.filter fun rr => ∀ lr ∈ l.rows, ¬ m lr rr).map fun b => (none, some b)).map
        (joinedRow l.cols.length r.cols.length), ?_, ?_⟩
    · rw [joinRel_eq, hpairs]
      simp only [Except.ok_bind]
      rw [joinFull_ok hm]
      rfl
    · rw [full, left_eq_nested, unmatched, Multiset.filter_coe, Multiset.map_coe, Multiset.coe_add, Multiset.map_coe]
      simp only [Multiset.mem_coe]

/-- A row of one text, or of NULL. -/
def oneColumn (table : String) (rows : List Row) : Relation := ⟨[⟨some table, "k", .text⟩], rows⟩

/-- A duplicate on the right and a NULL on the left, over `USING (k)`. -/
theorem joinRel_algebra_using :
    ∃ rows, joinRel Env.bare (oneColumn "l" [[.text "x"], [.null]]) (oneColumn "r" [[.text "x"], [.text "x"]]) .full none
        ["k"] [] = .ok ⟨[⟨some "l", "k", .text⟩, ⟨some "r", "k", .text⟩], rows⟩ ∧
      (rows : Multiset Row) = (full (fun lr _ => !lr.contains .null)
        (([[.text "x"], [.null]] : List Row) : Multiset Row) (([[.text "x"], [.text "x"]] : List Row) : Multiset Row)).map
          (joinedRow 1 1) :=
  (joinRel_algebra (E := Env.bare) (l := oneColumn "l" [[.text "x"], [.null]])
    (r := oneColumn "r" [[.text "x"], [.text "x"]])
    (m := fun lr _ => !lr.contains .null) rfl (by
      intro lr hlr rr hrr
      simp only [oneColumn, List.mem_cons, List.not_mem_nil, or_false, or_self] at hlr hrr
      rcases hlr with rfl | rfl
      · subst hrr
        rfl
      · subst hrr
        rfl)).2.2.2.2

end Twill
