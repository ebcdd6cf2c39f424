/-
What running a query runs: the queries it calls and the relations it looks up.

`queries` and `names` follow the executor: a CTE body, a derived table and an
expression subquery run with no CTE in scope, and a subquery whose correlation
is checked has its FROM materialised once more, without its own CTEs.
`Reads` closes this over nested queries, and `collectSelectRefs` covers it.
-/
import Twill.Relational
import Twill.Ddl

namespace Twill

/-! ## Direct calls -/

mutual

/-- The subqueries of an expression, none inside another. -/
def subqueries : Expr → List SelectStmt
  | .scalarSubquery q => [q]
  | .exists q _ => [q]
  | .inSubquery e q _ => subqueries e ++ [q]
  | .binary _ l r => subqueries l ++ subqueries r
  | .unary _ e => subqueries e
  | .isNull e _ => subqueries e
  | .cast e _ => subqueries e
  | .like e pattern escape _ _ => subqueries e ++ subqueries pattern ++ subqueriesOpt escape
  | .inList e list _ => subqueries e ++ subqueriesList list
  | .between e lo hi _ => subqueries e ++ subqueries lo ++ subqueries hi
  | .case operand whens els => subqueriesOpt operand ++ subqueriesWhens whens ++ subqueriesOpt els
  | .func _ args => subqueriesList args
  | .aggregate _ .star _ sep => subqueriesOpt sep
  | .aggregate _ (.expr e) _ sep => subqueries e ++ subqueriesOpt sep
  | _ => []

def subqueriesList : List Expr → List SelectStmt
  | [] => []
  | e :: es => subqueries e ++ subqueriesList es

def subqueriesOpt : Option Expr → List SelectStmt
  | none => []
  | some e => subqueries e

def subqueriesWhens : List (Expr × Expr) → List SelectStmt
  | [] => []
  | (c, r) :: whens => subqueries c ++ subqueries r ++ subqueriesWhens whens

end

def subqueriesItem : SelItem → List SelectStmt
  | .expr e _ => subqueries e
  | .star _ => []

/-- The relations a FROM looks up, the names in `bound` excepted. -/
def fromNames (bound : List String) : FromClause → List String
  | .table name _ => if bound.contains (toAsciiLowercase name) then [] else [name]
  | .derived .. => []
  | .join left right .. => fromNames bound left ++ fromNames bound right

/-- The derived tables of a FROM. -/
def fromQueries : FromClause → List SelectStmt
  | .table .. => []
  | .derived query _ => [query]
  | .join left right .. => fromQueries left ++ fromQueries right

def fromNamesOpt (bound : List String) (f : Option FromClause) : List String := f.elim [] (fromNames bound)

def fromQueriesOpt (f : Option FromClause) : List SelectStmt := f.elim [] fromQueries

namespace SelectStmt

/-- The subqueries of WHERE and the projection. -/
def rowSubqueries (sel : SelectStmt) : List SelectStmt := sel.items.flatMap subqueriesItem ++ subqueriesOpt sel.filter

/-- The subqueries whose FROM is materialised to see whether they are correlated. -/
def probed (sel : SelectStmt) : List SelectStmt := if aggQuery sel then [] else sel.rowSubqueries

def coreNames (bound : List String) (sel : SelectStmt) : List String :=
  fromNamesOpt bound sel.from_ ++ sel.probed.flatMap fun q => fromNamesOpt [] q.from_

def coreQueries (sel : SelectStmt) : List SelectStmt :=
  fromQueriesOpt sel.from_ ++ sel.rowSubqueries ++ subqueriesList sel.groupBy ++ subqueriesOpt sel.having ++
    sel.probed.flatMap fun q => fromQueriesOpt q.from_

def cteNames (sel : SelectStmt) : List String := sel.with_.map fun c => toAsciiLowercase c.name

/-- The relations a run of the query looks up itself. -/
def names (sel : SelectStmt) : List String :=
  sel.coreNames sel.cteNames ++ sel.setOps.flatMap fun part => part.query.coreNames sel.cteNames

/-- The queries written in the query that a run of it runs itself. -/
def queries (sel : SelectStmt) : List SelectStmt :=
  sel.with_.map (·.query) ++ sel.coreQueries ++ sel.setOps.flatMap fun part => part.query.coreQueries

/-- A run of the query looks the relation up, itself or in a query written in it. -/
inductive Reads : SelectStmt → String → Prop where
  | here {sel : SelectStmt} {name : String} (h : name ∈ sel.names) : Reads sel name
  | nested {sel q : SelectStmt} {name : String} (hq : q ∈ sel.queries) (h : Reads q name) : Reads sel name

/-- What the query reads from the store it does not bind in its own WITH. -/
def Scoped (sel : SelectStmt) : Prop := ∀ name, sel.Reads name → toAsciiLowercase name ∉ sel.cteNames

end SelectStmt

/-! ## What the cycle check collects -/

/-- The check sees what a part of the query names, and the part is smaller. -/
def Covered (q : SelectStmt) (refs : List String) (size : Nat) : Prop := collectSelectRefs q ⊆ refs ∧ sizeOf q < size

theorem Covered.mono {q : SelectStmt} {refs refs' : List String} {size size' : Nat} (h : Covered q refs size)
    (hrefs : refs ⊆ refs') (hsize : size ≤ size') : Covered q refs' size' :=
  ⟨List.Subset.trans h.1 hrefs, h.2.trans_le hsize⟩

/-- The same, of the subqueries of several parts. -/
theorem covered_append {a b : List SelectStmt} {ra rb : List String} {k m n : Nat} {q : SelectStmt}
    (ha : ∀ q ∈ a, Covered q ra k) (hb : ∀ q ∈ b, Covered q rb m) (hn : k + m ≤ n) (hq : q ∈ a ++ b) :
    Covered q (ra ++ rb) n := by
  rcases List.mem_append.1 hq with hq | hq
  · exact (ha q hq).mono (List.subset_append_left _ _) (by omega)
  · exact (hb q hq).mono (List.subset_append_right _ _) (by omega)

mutual

theorem covered_subqueries : ∀ (e : Expr), ∀ q ∈ subqueries e, Covered q (collectExprRefs e) (sizeOf e)
  | .scalarSubquery q, q', hq => by
    obtain rfl := List.mem_singleton.1 hq
    exact ⟨List.Subset.refl _, by simp⟩
  | .exists q _, q', hq => by
    obtain rfl := List.mem_singleton.1 hq
    exact ⟨List.Subset.refl _, by simp⟩
  | .inSubquery e q _, q', hq => by
    refine covered_append (m := sizeOf q + 1) (covered_subqueries e) (fun r hr => ?_) ?_ hq
    · obtain rfl := List.mem_singleton.1 hr
      exact ⟨List.Subset.refl _, Nat.lt_succ_self _⟩
    · simp
      omega
  | .binary _ l r, q, hq => by
    exact covered_append (covered_subqueries l) (covered_subqueries r) (by simp) hq
  | .unary _ e, q, hq => (covered_subqueries e q hq).mono (List.Subset.refl _) (by simp)
  | .isNull e _, q, hq => (covered_subqueries e q hq).mono (List.Subset.refl _) (by simp; omega)
  | .cast e _, q, hq => (covered_subqueries e q hq).mono (List.Subset.refl _) (by simp; omega)
  | .like e pattern escape _ _, q, hq => by
    refine covered_append (n := sizeOf _) (k := sizeOf e + sizeOf pattern) (fun q hq => ?_) (covered_opt escape)
      (by simp; omega) hq
    exact covered_append (covered_subqueries e) (covered_subqueries pattern) le_rfl hq
  | .inList e list _, q, hq => by
    exact covered_append (covered_subqueries e) (covered_list list) (by simp; omega) hq
  | .between e lo hi _, q, hq => by
    refine covered_append (k := sizeOf e + sizeOf lo) (fun q hq => ?_) (covered_subqueries hi) (by simp; omega) hq
    exact covered_append (covered_subqueries e) (covered_subqueries lo) le_rfl hq
  | .case operand whens els, q, hq => by
    refine covered_append (k := sizeOf operand + sizeOf whens) (fun q hq => ?_) (covered_opt els) (by simp) hq
    exact covered_append (covered_opt operand) (covered_whens whens) le_rfl hq
  | .func _ args, q, hq => (covered_list args q hq).mono (List.Subset.refl _) (by simp)
  | .aggregate _ .star _ sep, q, hq => (covered_opt sep q hq).mono (List.Subset.refl _) (by simp)
  | .aggregate _ (.expr e) _ sep, q, hq => by
    exact covered_append (covered_subqueries e) (covered_opt sep) (by simp; omega) hq
  | .null, _, hq | .int _, _, hq | .real _, _, hq | .str _, _, hq | .vector _, _, hq | .lit _, _, hq | .param _, _, hq
  | .column _, _, hq | .excluded _, _, hq | .default, _, hq | .qualified _ _, _, hq => nomatch hq

theorem covered_list : ∀ (es : List Expr), ∀ q ∈ subqueriesList es, Covered q (collectListRefs es) (sizeOf es)
  | [], _, hq => nomatch hq
  | e :: es, q, hq => by exact covered_append (covered_subqueries e) (covered_list es) (by simp) hq

theorem covered_opt : ∀ (e : Option Expr), ∀ q ∈ subqueriesOpt e, Covered q (collectOptRefs e) (sizeOf e)
  | none, _, hq => nomatch hq
  | some e, q, hq => (covered_subqueries e q hq).mono (List.Subset.refl _) (by simp)

theorem covered_whens : ∀ (whens : List (Expr × Expr)), ∀ q ∈ subqueriesWhens whens,
    Covered q (collectWhenRefs whens) (sizeOf whens)
  | [], _, hq => nomatch hq
  | (c, r) :: whens, q, hq => by
    refine covered_append (k := sizeOf c + sizeOf r) (fun q hq => ?_) (covered_whens whens) (by simp; omega) hq
    exact covered_append (covered_subqueries c) (covered_subqueries r) le_rfl hq

end

theorem covered_items : ∀ (items : List SelItem), ∀ q ∈ items.flatMap subqueriesItem,
    Covered q (collectItemRefs items) (sizeOf items)
  | [], _, hq => nomatch hq
  | .expr e alias_ :: items, q, hq => by
    rw [List.flatMap_cons] at hq
    exact covered_append (covered_subqueries e) (covered_items items) (by simp; omega) hq
  | .star _ :: items, q, hq => (covered_items items q hq).mono (List.Subset.refl _) (by simp)

theorem fromNames_subset (bound : List String) : ∀ (f : FromClause), fromNames bound f ⊆ collectFromRefs f
  | .table name _ => by
    unfold fromNames collectFromRefs
    split_ifs
    · exact List.nil_subset _
    · exact List.Subset.refl _
  | .derived .. => List.nil_subset _
  | .join left right _ on_ _ => by
    refine List.append_subset.2 ⟨List.Subset.trans (fromNames_subset bound left) ?_,
      List.Subset.trans (fromNames_subset bound right) ?_⟩
    · exact List.Subset.trans (List.subset_append_left _ _) (List.subset_append_left _ _)
    · exact List.Subset.trans (List.subset_append_right _ _) (List.subset_append_left _ _)

theorem fromNamesOpt_subset (bound : List String) : ∀ (f : Option FromClause),
    fromNamesOpt bound f ⊆ collectFromOptRefs f
  | none => List.nil_subset _
  | some f => fromNames_subset bound f

theorem covered_from : ∀ (f : FromClause), ∀ q ∈ fromQueries f, Covered q (collectFromRefs f) (sizeOf f)
  | .table .., _, hq => nomatch hq
  | .derived query _, q, hq => by
    obtain rfl := List.mem_singleton.1 hq
    exact ⟨List.Subset.refl _, by simp; omega⟩
  | .join left right _ on_ _, q, hq => by
    refine (covered_append (covered_from left) (covered_from right) le_rfl hq).mono ?_ (by simp; omega)
    exact List.subset_append_left _ _

theorem covered_fromOpt : ∀ (f : Option FromClause), ∀ q ∈ fromQueriesOpt f,
    Covered q (collectFromOptRefs f) (sizeOf f)
  | none, _, hq => nomatch hq
  | some f, q, hq => (covered_from f q hq).mono (List.Subset.refl _) (by simp)

namespace SelectStmt

variable {sel q : SelectStmt} {name : String}

/-- What is in one of the clauses of a query is in the query. -/
theorem collectSelectRefs_eq (sel : SelectStmt) : collectSelectRefs sel =
    collectCteRefs sel.with_ ++ collectFromOptRefs sel.from_ ++ collectItemRefs sel.items ++ collectOptRefs sel.filter ++
      collectListRefs sel.groupBy ++ collectOptRefs sel.having ++ collectKeyRefs sel.orderBy ++
      collectSetRefs sel.setOps := by
  obtain ⟨with_, distinct, items, from_, filter, groupBy, having, setOps, orderBy, limit, offset⟩ := sel
  rw [collectSelectRefs]

theorem sizeOf_eq (sel : SelectStmt) : sizeOf sel.with_ + sizeOf sel.from_ + sizeOf sel.items + sizeOf sel.filter +
    sizeOf sel.groupBy + sizeOf sel.having + sizeOf sel.setOps < sizeOf sel := by
  obtain ⟨with_, distinct, items, from_, filter, groupBy, having, setOps, orderBy, limit, offset⟩ := sel
  simp only [mk.sizeOf_spec]
  omega

theorem from_subset (sel : SelectStmt) : collectFromOptRefs sel.from_ ⊆ collectSelectRefs sel := by
  rw [collectSelectRefs_eq]
  intro name h
  simp only [List.mem_append]
  tauto

theorem covered_rowSubqueries (h : q ∈ sel.rowSubqueries) : Covered q (collectSelectRefs sel) (sizeOf sel) := by
  have hsize := sizeOf_eq sel
  refine (covered_append (covered_items sel.items) (covered_opt sel.filter) le_rfl h).mono ?_ (by omega)
  rw [collectSelectRefs_eq]
  intro name h
  simp only [List.mem_append] at h ⊢
  tauto

theorem mem_rowSubqueries_of_probed (h : q ∈ sel.probed) : q ∈ sel.rowSubqueries := by
  unfold probed at h
  split_ifs at h
  · cases h
  · exact h

theorem coreNames_subset (bound : List String) (sel : SelectStmt) : sel.coreNames bound ⊆ collectSelectRefs sel := by
  intro name h
  rcases List.mem_append.1 h with h | h
  · exact from_subset sel (fromNamesOpt_subset _ _ h)
  · obtain ⟨q, hq, h⟩ := List.mem_flatMap.1 h
    exact (covered_rowSubqueries (mem_rowSubqueries_of_probed hq)).1 (from_subset q (fromNamesOpt_subset _ _ h))

theorem covered_coreQueries (h : q ∈ sel.coreQueries) : Covered q (collectSelectRefs sel) (sizeOf sel) := by
  have hsize := sizeOf_eq sel
  simp only [coreQueries, List.mem_append] at h
  have hrefs := collectSelectRefs_eq sel
  rcases h with (((h | h) | h) | h) | h
  · exact (covered_fromOpt _ q h).mono (from_subset sel) (by omega)
  · exact covered_rowSubqueries h
  · refine (covered_list _ q h).mono (fun name hname => ?_) (by omega)
    rw [hrefs]
    simp only [List.mem_append]
    tauto
  · refine (covered_opt _ q h).mono (fun name hname => ?_) (by omega)
    rw [hrefs]
    simp only [List.mem_append]
    tauto
  · obtain ⟨sub, hsub, h⟩ := List.mem_flatMap.1 h
    have hsub := covered_rowSubqueries (mem_rowSubqueries_of_probed hsub)
    have hsubSize := sizeOf_eq sub
    refine (covered_fromOpt _ q h).mono (List.Subset.trans (from_subset sub) hsub.1) ?_
    have := hsub.2
    omega

theorem covered_ctes : ∀ (ctes : List CteDef) {q : SelectStmt}, q ∈ ctes.map (·.query) →
    Covered q (collectCteRefs ctes) (sizeOf ctes)
  | [], _, h => nomatch h
  | ⟨cname, query⟩ :: ctes, q, h => by
    rcases List.mem_cons.1 h with rfl | h
    · exact ⟨List.subset_append_left _ _, by simp; omega⟩
    · exact (covered_ctes ctes h).mono (List.subset_append_right _ _) (by simp)

theorem covered_part : ∀ (parts : List SetOpPart) {part : SetOpPart}, part ∈ parts →
    Covered part.query (collectSetRefs parts) (sizeOf parts)
  | [], _, h => nomatch h
  | ⟨op, all, query⟩ :: parts, part, h => by
    rcases List.mem_cons.1 h with rfl | h
    · exact ⟨List.subset_append_left _ _, by simp; omega⟩
    · exact (covered_part parts h).mono (List.subset_append_right _ _) (by simp)

theorem setOps_subset (sel : SelectStmt) : collectSetRefs sel.setOps ⊆ collectSelectRefs sel := by
  rw [collectSelectRefs_eq]
  exact List.subset_append_right _ _

theorem names_subset (sel : SelectStmt) : sel.names ⊆ collectSelectRefs sel := by
  intro name h
  rcases List.mem_append.1 h with h | h
  · exact coreNames_subset _ sel h
  · obtain ⟨part, hpart, h⟩ := List.mem_flatMap.1 h
    exact setOps_subset sel ((covered_part _ hpart).1 (coreNames_subset _ _ h))

theorem covered_queries (h : q ∈ sel.queries) : Covered q (collectSelectRefs sel) (sizeOf sel) := by
  have hsize := sizeOf_eq sel
  simp only [queries, List.mem_append] at h
  rcases h with (h | h) | h
  · refine (covered_ctes _ h).mono (fun name hname => ?_) (by omega)
    rw [collectSelectRefs_eq]
    simp only [List.mem_append]
    tauto
  · exact covered_coreQueries h
  · obtain ⟨part, hpart, h⟩ := List.mem_flatMap.1 h
    have hcore := covered_coreQueries h
    have hpart := covered_part _ hpart
    exact ⟨List.Subset.trans hcore.1 (List.Subset.trans hpart.1 (setOps_subset sel)), by have := hcore.2; have := hpart.2; omega⟩

theorem Reads.collected (h : sel.Reads name) : name ∈ collectSelectRefs sel := by
  induction h with
  | here h => exact names_subset _ h
  | nested hq _ ih => exact (covered_queries hq).1 ih

/-- A scoped query names to the cycle check all it reads. -/
theorem Reads.referenced (h : sel.Reads name) (hscoped : sel.Scoped) : name ∈ referencedRelations sel := by
  refine List.mem_filter.2 ⟨h.collected, ?_⟩
  have hnot := hscoped name h
  simpa [cteNames] using hnot

end SelectStmt

end Twill
