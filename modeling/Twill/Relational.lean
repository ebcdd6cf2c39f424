/-
The relational executor (`exec.rs`, `mod relational`): CTEs, joins, derived
tables, views, set operations, DISTINCT and subqueries.

The recursion of the source goes `run_query` → `eval_core` → `build_from` /
subquery folding → `run_query`. Here every helper takes the nested call as
`rq : SelectStmt → Res ResultSet`, and `runQuery` ties the knot with fuel.
The store is read in two places only, a view body and a base-table scan; both
are in `Scan`, together with the bound parameters.
-/
import Twill.Select

namespace Twill

/-- A materialized intermediate. -/
structure Relation where
  cols : List RelCol
  rows : List Row

/-- What a relational scan reads: view bodies, the rows of a base table under a
source name, and the bound parameters. -/
structure Scan where
  view : String → Option SelectStmt
  base : String → String → Res Relation
  params : List Value

def schemaRelCols (schema : TableSchema) (src : String) : List RelCol :=
  schema.columns.map fun c => ⟨some src, c.name, c.ty⟩

/-- A base table at the snapshot, under its own read filter. -/
def scanTable (E : Env) (store : Store) (snapshot : Nat) (writer : Option Nat) (params : List Value)
    (name src : String) : Res Relation :=
  match store.table name with
  | none => .error (EngineError.sql ("no such table: " ++ name))
  | some t => do
    let rls ← rlsRead E t.schema .select
    let rows ← scanMatched E rls none t.schema snapshot writer params t.rows
    return ⟨schemaRelCols t.schema src, rows⟩

def Store.scan (E : Env) (store : Store) (snapshot : Nat) (writer : Option Nat) (params : List Value) :
    Scan :=
  ⟨store.view, scanTable E store snapshot writer params, params⟩

/-- The nested query run. -/
abbrev RunQuery := SelectStmt → Res ResultSet

/-- CTE results in scope, by lowercased name. -/
abbrev Ctes := AList fun _ : String => Relation

def relationFromResult (src : String) (rs : ResultSet) : Relation :=
  ⟨(rs.columns.zip rs.types).map fun p => ⟨some src, p.1, p.2⟩, rs.rows⟩

def retag (cols : List RelCol) (src : String) : List RelCol := cols.map fun c => { c with table := some src }

/-! ## Joins -/

structure JoinCtx where
  cols : List RelCol
  on_ : Option Expr
  /-- Positions the USING columns equate in the combined row. -/
  pairs : List (Nat × Nat)
  params : List Value
  /-- The outer side is the right one. -/
  swapped : Bool

def JoinCtx.combine (jc : JoinCtx) (outer inner : Row) : Row :=
  if jc.swapped then inner ++ outer else outer ++ inner

/-- Whether the USING pairs are equal, in order. -/
def pairsMatch (combined : Row) : List (Nat × Nat) → Res Bool
  | [] => .ok true
  | (i, j) :: pairs => do
    let a ← indexRow combined i
    let b ← indexRow combined j
    if a.sqlEq b = some true then pairsMatch combined pairs else return false

def rowMatches (E : Env) (jc : JoinCtx) (combined : Row) : Res Bool := do
  if ← pairsMatch combined jc.pairs then predicate E jc.on_ (EvalCtx.rel combined jc.cols jc.params)
  else return false

/-- The combined rows of one outer row with the inner rows it matches. -/
def matchRows (E : Env) (jc : JoinCtx) (outer : Row) (inner : List Row) : Res (List Row) := do
  let hits ← inner.mapM fun irow => do
    let c := jc.combine outer irow
    return if ← rowMatches E jc c then some c else none
  return hits.filterMap id

def joinInner (E : Env) (l r : Relation) (jc : JoinCtx) : Res (List Row) := do
  return (← l.rows.mapM fun lr => matchRows E jc lr r.rows).flatten

/-- Unmatched outer rows are padded with nulls. -/
def joinOuter (E : Env) (outer inner : Relation) (jc : JoinCtx) (nullInner : Row) : Res (List Row) := do
  let out ← outer.rows.mapM fun orow => do
    let hits ← matchRows E jc orow inner.rows
    return if hits.isEmpty then [jc.combine orow nullInner] else hits
  return out.flatten

/-- For each left row, its combined rows and which right positions it hit. -/
def joinFull (E : Env) (l r : Relation) (jc : JoinCtx) (nullL nullR : Row) : Res (List Row) := do
  let out ← l.rows.mapM fun lr => do
    let hits ← r.rows.zipIdx.mapM fun p => do
      return if ← rowMatches E jc (lr ++ p.1) then some (lr ++ p.1, p.2) else none
    let hits := hits.filterMap id
    return (if hits.isEmpty then [lr ++ nullR] else hits.map (·.1), hits.map (·.2))
  let hit := out.flatMap (·.2)
  let unmatched := (r.rows.zipIdx.filter fun p => !hit.contains p.2).map fun p => nullL ++ p.1
  return out.flatMap (·.1) ++ unmatched

def joinRel (E : Env) (l r : Relation) (kind : JoinKind) (on_ : Option Expr) (using_ : List String)
    (params : List Value) : Res Relation := do
  let cols := l.cols ++ r.cols
  let lw := l.cols.length
  let pairs ← using_.mapM fun u => do
    let i ← resolveCol l.cols none u
    let j ← resolveCol r.cols none u
    return (i, lw + j)
  let nullL := List.replicate lw Value.null
  let nullR := List.replicate r.cols.length Value.null
  let jc : JoinCtx := ⟨cols, on_, pairs, params, false⟩
  let rows ← match kind with
    | .inner | .cross => joinInner E l r jc
    | .left => joinOuter E l r jc nullR
    | .right => joinOuter E r l { jc with swapped := true } nullL
    | .full => joinFull E l r jc nullL nullR
  return ⟨cols, rows⟩

/-! ## FROM -/

def buildFrom (E : Env) (sc : Scan) (rq : RunQuery) (ctes : Ctes) : FromClause → Res Relation
  | .table name alias_ =>
    let src := alias_.getD name
    match ctes.lookup (toAsciiLowercase name) with
    | some cte => .ok ⟨retag cte.cols src, cte.rows⟩
    | none => match sc.view name with
      | some q => do return relationFromResult src (← rq q)
      | none => sc.base name src
  | .derived query alias_ => do return relationFromResult alias_ (← rq query)
  | .join left right kind on_ using_ => do
    let l ← buildFrom E sc rq ctes left
    let r ← buildFrom E sc rq ctes right
    joinRel E l r kind on_ using_ sc.params

/-- No FROM is one empty row. -/
def buildFromOpt (E : Env) (sc : Scan) (rq : RunQuery) (ctes : Ctes) : Option FromClause → Res Relation
  | none => .ok ⟨[], [[]]⟩
  | some f => buildFrom E sc rq ctes f

/-! ## Rewriting expressions -/

/-- What a rewrite does at column references and subquery nodes. `inSub` gets
the rewritten left operand as a computation, to run when its turn comes. -/
structure Rewriter where
  ref : Option String → String → Expr → Res Expr
  scalar : SelectStmt → Res Expr
  exists_ : SelectStmt → Bool → Res Expr
  inSub : Expr → Res Expr → SelectStmt → Bool → Res Expr

mutual

/-- Rebuilds an expression child by child (`map_children`, `resolve_children`). -/
def rewrite (W : Rewriter) : Expr → Res Expr
  | .column n => W.ref none n (.column n)
  | .qualified t n => W.ref (some t) n (.qualified t n)
  | .scalarSubquery q => W.scalar q
  | .exists q negated => W.exists_ q negated
  | .inSubquery e q negated => W.inSub e (rewrite W e) q negated
  | .binary op l r => do return .binary op (← rewrite W l) (← rewrite W r)
  | .unary op e => do return .unary op (← rewrite W e)
  | .isNull e negated => do return .isNull (← rewrite W e) negated
  | .like e pattern escape negated insensitive => do
    return .like (← rewrite W e) (← rewrite W pattern) (← rewriteOpt W escape) negated insensitive
  | .inList e list negated => do return .inList (← rewrite W e) (← rewriteList W list) negated
  | .between e lo hi negated => do
    return .between (← rewrite W e) (← rewrite W lo) (← rewrite W hi) negated
  | .case operand whens els => do
    return .case (← rewriteOpt W operand) (← rewriteWhens W whens) (← rewriteOpt W els)
  | .cast e target => do return .cast (← rewrite W e) target
  | .func name args => do return .func name (← rewriteList W args)
  | .aggregate func .star distinct sep => do
    return .aggregate func .star distinct (← rewriteOpt W sep)
  | .aggregate func (.expr e) distinct sep => do
    return .aggregate func (.expr (← rewrite W e)) distinct (← rewriteOpt W sep)
  | e => .ok e

def rewriteList (W : Rewriter) : List Expr → Res (List Expr)
  | [] => .ok []
  | e :: es => do return (← rewrite W e) :: (← rewriteList W es)

def rewriteOpt (W : Rewriter) : Option Expr → Res (Option Expr)
  | none => .ok none
  | some e => do return some (← rewrite W e)

def rewriteWhens (W : Rewriter) : List (Expr × Expr) → Res (List (Expr × Expr))
  | [] => .ok []
  | (c, r) :: whens => do return (← rewrite W c, ← rewrite W r) :: (← rewriteWhens W whens)

end

def mapItems (f : Expr → Res Expr) (items : List SelItem) : Res (List SelItem) :=
  items.mapM fun i => match i with
    | .expr e alias_ => do return .expr (← f e) alias_
    | .star q => .ok (.star q)

/-! ## Uncorrelated subqueries -/

/-- The single value of a one-column row (`pop().unwrap()`). -/
def popCell (row : Row) : Res Value :=
  match row.getLast? with
  | some v => .ok v
  | none => .error .panic

def scalarResult (rs : ResultSet) : Res Expr :=
  if rs.columns.length ≠ 1 then
    .error (EngineError.sql "a scalar subquery must return exactly one column")
  else match rs.rows with
    | [] => .ok (.lit .null)
    | [row] => do return .lit (← popCell row)
    | _ => .error (EngineError.sql "more than one row returned by a scalar subquery")

def existsResult (rs : ResultSet) (negated : Bool) : Expr := .lit (boolValue (!rs.rows.isEmpty ^^ negated))

def inResult (rs : ResultSet) : Res (List Expr) :=
  if rs.columns.length ≠ 1 then
    .error (EngineError.sql "a subquery used with IN must return exactly one column")
  else rs.rows.mapM fun row => do return .lit (← popCell row)

def subResolver (rq : RunQuery) : Rewriter where
  ref _ _ e := .ok e
  scalar q := do scalarResult (← rq q)
  exists_ q negated := do return existsResult (← rq q) negated
  inSub _ lhs q negated := do
    let list ← inResult (← rq q)
    return .inList (← lhs) list negated

/-- Replaces subquery nodes by the literals they evaluate to. -/
def resolveSub (rq : RunQuery) (e : Expr) : Res Expr := rewrite (subResolver rq) e

def resolveOpt (rq : RunQuery) (e : Option Expr) : Res (Option Expr) := rewriteOpt (subResolver rq) e

/-! ## Correlated subqueries -/

/-- The columns a subquery's own FROM exposes; outer CTEs are not in scope. -/
def fromNamespace (E : Env) (sc : Scan) (rq : RunQuery) : Option FromClause → Res (List RelCol)
  | none => .ok []
  | some f => do return (← buildFrom E sc rq ∅ f).cols

def namespaceHas (cols : List RelCol) (table : Option String) (name : String) : Bool :=
  cols.any (relColMatches table name)

mutual

/-- The column references outside nested subqueries. -/
def shallowRefs : Expr → List (Option String × String)
  | .column n => [(none, n)]
  | .qualified t n => [(some t, n)]
  | .binary _ l r => shallowRefs l ++ shallowRefs r
  | .unary _ e => shallowRefs e
  | .isNull e _ => shallowRefs e
  | .cast e _ => shallowRefs e
  | .like e pattern escape _ _ => shallowRefs e ++ shallowRefs pattern ++ shallowRefsOpt escape
  | .inList e list _ => shallowRefs e ++ shallowRefsList list
  | .between e lo hi _ => shallowRefs e ++ shallowRefs lo ++ shallowRefs hi
  | .case operand whens els => shallowRefsOpt operand ++ shallowRefsWhens whens ++ shallowRefsOpt els
  | .func _ args => shallowRefsList args
  | .aggregate _ .star _ sep => shallowRefsOpt sep
  | .aggregate _ (.expr e) _ sep => shallowRefs e ++ shallowRefsOpt sep
  | _ => []

def shallowRefsList : List Expr → List (Option String × String)
  | [] => []
  | e :: es => shallowRefs e ++ shallowRefsList es

def shallowRefsOpt : Option Expr → List (Option String × String)
  | none => []
  | some e => shallowRefs e

def shallowRefsWhens : List (Expr × Expr) → List (Option String × String)
  | [] => []
  | (c, r) :: whens => shallowRefs c ++ shallowRefs r ++ shallowRefsWhens whens

end

def selectShallowRefs (sel : SelectStmt) : List (Option String × String) :=
  shallowRefsOpt sel.filter ++
    (sel.items.flatMap fun i => match i with
      | .expr e _ => shallowRefs e
      | .star _ => []) ++
    sel.groupBy.flatMap shallowRefs ++ shallowRefsOpt sel.having ++
    sel.orderBy.flatMap fun k => shallowRefs k.expr

/-- A reference it cannot resolve itself and the outer namespace can. -/
def subqueryCorrelated (E : Env) (sc : Scan) (rq : RunQuery) (outer : List RelCol) (sub : SelectStmt) :
    Res Bool := do
  let inner ← fromNamespace E sc rq sub.from_
  return (selectShallowRefs sub).any fun r =>
    !namespaceHas inner r.1 r.2 && namespaceHas outer r.1 r.2

/-- Whether WHERE or the projection holds a correlated subquery. -/
def selectHasCorrelated (E : Env) (sc : Scan) (rq : RunQuery) (outer : List RelCol) (sel : SelectStmt) :
    Res Bool :=
  let corr := anySubquery (subqueryCorrelated E sc rq outer)
  sel.items.foldl (fun acc i => orM acc (match i with
    | .expr e _ => corr e
    | .star _ => .ok false)) (match sel.filter with
    | some f => corr f
    | none => .ok false)

/-- Outer-only references become the row's values; nested subqueries stay. -/
def binder (inner outer : List RelCol) (row : Row) : Rewriter where
  ref table name e :=
    if namespaceHas inner table name then .ok e
    else match resolveCol outer table name with
      | .ok idx => do return .lit (← indexRow row idx)
      | .error _ => .ok e
  scalar q := .ok (.scalarSubquery q)
  exists_ q negated := .ok (.exists q negated)
  inSub e _ q negated := .ok (.inSubquery e q negated)

def bindExpr (inner outer : List RelCol) (row : Row) (e : Expr) : Res Expr :=
  rewrite (binder inner outer row) e

def bindSelect (inner outer : List RelCol) (row : Row) (sub : SelectStmt) : Res SelectStmt := do
  let b := binder inner outer row
  return { sub with
    filter := ← rewriteOpt b sub.filter
    items := ← mapItems (rewrite b) sub.items
    groupBy := ← rewriteList b sub.groupBy
    having := ← rewriteOpt b sub.having
    orderBy := ← sub.orderBy.mapM fun k => do return { k with expr := ← rewrite b k.expr } }

/-- `fold_corr`'s `bind`: the subquery with its outer references bound. -/
def bindSub (E : Env) (sc : Scan) (rq : RunQuery) (outer : List RelCol) (row : Row) (sub : SelectStmt) :
    Res SelectStmt := do
  bindSelect (← fromNamespace E sc rq sub.from_) outer row sub

def corrFolder (E : Env) (sc : Scan) (rq : RunQuery) (outer : List RelCol) (row : Row) : Rewriter where
  ref _ _ e := .ok e
  scalar q := do scalarResult (← rq (← bindSub E sc rq outer row q))
  exists_ q negated := do return existsResult (← rq (← bindSub E sc rq outer row q)) negated
  inSub _ lhs q negated := do
    let l ← lhs
    let list ← inResult (← rq (← bindSub E sc rq outer row q))
    return .inList (← resolveSub rq l) list negated

/-- Folds every subquery to a literal for one outer row. -/
def foldCorr (E : Env) (sc : Scan) (rq : RunQuery) (outer : List RelCol) (row : Row) (e : Expr) :
    Res Expr :=
  rewrite (corrFolder E sc rq outer row) e

def foldCorrOpt (E : Env) (sc : Scan) (rq : RunQuery) (outer : List RelCol) (row : Row)
    (e : Option Expr) : Res (Option Expr) :=
  rewriteOpt (corrFolder E sc rq outer row) e

/-! ## One select core -/

def relType (cols : List RelCol) (table : Option String) (name : String) : ColumnType :=
  match resolveCol cols table name with
  | .ok i => (cols.getD i ⟨none, "", .text⟩).ty
  | .error _ => .text

def exprTypeRel (cols : List RelCol) : Expr → ColumnType
  | .column n => relType cols none n
  | .qualified t n => relType cols (some t) n
  | .cast e .passthrough => exprTypeRel cols e
  | .cast _ target => castColumnType target
  | .aggregate func .star _ _ => match func with
    | .avg => .real
    | .jsonAgg | .groupConcat => .text
    | _ => .integer
  | .aggregate func (.expr e) _ _ => match func with
    | .count => .integer
    | .avg => .real
    | .jsonAgg | .groupConcat => .text
    | .sum | .min | .max => exprTypeRel cols e
  | e => exprType none e

def starIncludes (qualifier : Option String) (c : RelCol) : Bool :=
  match qualifier with
  | none => true
  | some q => match c.table with
    | some t => eqIgnoreAsciiCase t q
    | none => false

/-- The cells of a row a `*` stands for. -/
def starCells (cols : List RelCol) (row : Row) (qualifier : Option String) : Res Row :=
  (cols.zipIdx.filter fun p => starIncludes qualifier p.1).mapM fun p => indexRow row p.2

def starColumns (cols : List RelCol) (qualifier : Option String) : List (String × ColumnType) :=
  (cols.filter (starIncludes qualifier)).map fun c => (c.name, c.ty)

def projectItemRel (E : Env) (cols : List RelCol) (row : Row) (params : List Value) : SelItem → Res Row
  | .star q => starCells cols row q
  | .expr e _ => do return [← eval E e (EvalCtx.rel row cols params)]

/-- An output row with the rows it was made from. -/
abbrev Entry := Row × List Row

def groupedEntries (E : Env) (items : List SelItem) (groupBy : List Expr) (having : Option Expr)
    (cols : List RelCol) (kept : List Row) (params : List Value) : Res (List Entry) := do
  let groups ← groupRows E groupBy (fun r => EvalCtx.rel r cols params) kept
  let projected ← groups.mapM fun g => do
    return (← projectGroup E having items (starCells cols) (groupCtx none (some cols) params g)).map
      fun out => (out, g)
  return projected.filterMap id

/-- The clauses a core evaluates; subqueries folded unless they are correlated. -/
structure CorePlan where
  filter : Option Expr
  items : List SelItem
  groupBy : List Expr
  having : Option Expr

def resolveClauses (rq : RunQuery) (sel : SelectStmt) (correlated : Bool) : Res CorePlan := do
  if correlated then return ⟨sel.filter, sel.items, sel.groupBy, sel.having⟩
  let filter ← resolveOpt rq sel.filter
  let items ← mapItems (resolveSub rq) sel.items
  let groupBy ← rewriteList (subResolver rq) sel.groupBy
  let having ← resolveOpt rq sel.having
  return ⟨filter, items, groupBy, having⟩

def keepRow (E : Env) (sc : Scan) (rq : RunQuery) (cols : List RelCol) (correlated : Bool)
    (filter : Option Expr) (row : Row) : Res Bool := do
  let f ← if correlated then foldCorrOpt E sc rq cols row filter else .ok filter
  predicate E f (EvalCtx.rel row cols sc.params)

def collectKept (E : Env) (sc : Scan) (rq : RunQuery) (cols : List RelCol) (correlated : Bool)
    (filter : Option Expr) (rows : List Row) : Res (List Row) := do
  let kept ← rows.mapM fun row => do
    return if ← keepRow E sc rq cols correlated filter row then some row else none
  return kept.filterMap id

def buildEntry (E : Env) (sc : Scan) (rq : RunQuery) (cols : List RelCol) (correlated : Bool)
    (items : List SelItem) (row : Row) : Res Entry := do
  let out ← items.mapM fun i => do
    let i ← if correlated then (match i with
      | .expr e alias_ => do return SelItem.expr (← foldCorr E sc rq cols row e) alias_
      | .star q => .ok (.star q)) else .ok i
    projectItemRel E cols row sc.params i
  return (out.flatten, [row])

def rowKey (P : Prims) (r : Row) : String := r.foldl (fun k v => k ++ valueKey P v ++ "\x01") ""

def dedupRows (P : Prims) (rows : List Row) : List Row := dedupBy (rowKey P) rows

def aggQuery (sel : SelectStmt) : Bool :=
  !sel.groupBy.isEmpty || sel.having.isSome || sel.items.any SelItem.hasAggregate

def evalCore (E : Env) (sc : Scan) (rq : RunQuery) (ctes : Ctes) (applyTail : Bool) (sel : SelectStmt) :
    Res ResultSet := do
  let rel ← buildFromOpt E sc rq ctes sel.from_
  let aggregated := aggQuery sel
  let correlated ← if aggregated then .ok false else selectHasCorrelated E sc rq rel.cols sel
  let plan ← resolveClauses rq sel correlated
  let kept ← collectKept E sc rq rel.cols correlated plan.filter rel.rows
  let cols := outputColumns (starColumns rel.cols) (exprTypeRel rel.cols) plan.items []
  let entries ← if aggregated then
      groupedEntries E plan.items plan.groupBy plan.having rel.cols kept sc.params
    else kept.mapM (buildEntry E sc rq rel.cols correlated plan.items)
  let keys := if applyTail then resolvedOrderKeys plan.items sel.orderBy else []
  let ordered ← if keys.isEmpty then .ok entries
    else StableSort.sortBy (orderKeyCmp (fun e (p : Entry) =>
      eval E e (groupCtx none (some rel.cols) sc.params p.2)) keys) entries
  let rows := ordered.map (·.1)
  let rows := if sel.distinct then dedupRows E.prims rows else rows
  if applyTail then
    let off ← evalCount E sel.offset sc.params
    let lim ← evalCount E sel.limit sc.params
    return ⟨cols.map (·.1), cols.map (·.2), applyOffsetLimit rows lim off⟩
  return ⟨cols.map (·.1), cols.map (·.2), rows⟩

/-! ## Set operations -/

/-- Keeps the left rows that consume a right occurrence of their key (`keep`),
or those that find none left. -/
def matchCounts (P : Prims) (keep : Bool) : List Row → List String → List Row
  | [], _ => []
  | row :: rows, keys =>
    if keys.contains (rowKey P row) then
      let rest := matchCounts P keep rows (keys.erase (rowKey P row))
      if keep then row :: rest else rest
    else
      let rest := matchCounts P keep rows keys
      if keep then rest else row :: rest

def combineSetOp (P : Prims) (lhs rhs : ResultSet) (op : SetOp) (all : Bool) : Res ResultSet :=
  if lhs.columns.length ≠ rhs.columns.length then
    .error (EngineError.sql "each set-operation query must return the same number of columns")
  else
    let rkeys := rhs.rows.map (rowKey P)
    let rows := match op, all with
      | .union, true => lhs.rows ++ rhs.rows
      | .union, false => dedupRows P (lhs.rows ++ rhs.rows)
      | .intersect, true => matchCounts P true lhs.rows rkeys
      | .intersect, false => dedupRows P (lhs.rows.filter fun r => rkeys.contains (rowKey P r))
      | .except, true => matchCounts P false lhs.rows rkeys
      | .except, false => dedupRows P (lhs.rows.filter fun r => !rkeys.contains (rowKey P r))
    .ok ⟨lhs.columns, lhs.types, rows⟩

/-- The output column an ORDER BY key of a set operation names. -/
def outputKey (columns : List String) (k : OrderKey) : Res Nat :=
  match k.expr with
  | .int n =>
    if 1 ≤ n.toInt ∧ n.toInt ≤ columns.length then .ok (n.toInt.toNat - 1)
    else .error (EngineError.sql "ORDER BY position out of range")
  | .column name | .qualified _ name =>
    match columns.findIdx? fun c => eqIgnoreAsciiCase c name with
    | some i => .ok i
    | none => .error (EngineError.sql ("ORDER BY column not in result: " ++ name))
  | _ => .error (EngineError.sql "ORDER BY in a set operation must name an output column")

def outputCmp : List (Nat × Bool × Bool) → Row → Row → Res Ordering
  | [], _, _ => .ok .eq
  | (i, asc, nf) :: keys, a, b => do
    match orderCmp (← indexRow a i) (← indexRow b i) asc nf with
    | .eq => outputCmp keys a b
    | ord => return ord

def applyOutputOrderLimit (E : Env) (rs : ResultSet) (sel : SelectStmt) (params : List Value) :
    Res ResultSet := do
  let keys ← sel.orderBy.mapM fun k => do return (← outputKey rs.columns k, k.asc, k.nullsFirst)
  let rows ← if sel.orderBy.isEmpty then .ok rs.rows else StableSort.sortBy (outputCmp keys) rs.rows
  let off ← evalCount E sel.offset params
  let lim ← evalCount E sel.limit params
  return { rs with rows := applyOffsetLimit rows lim off }

/-! ## Queries -/

/-- `run_query` above a nested run `rq`. -/
def queryStep (E : Env) (sc : Scan) (rq : RunQuery) (sel : SelectStmt) : Res ResultSet := do
  let ctes ← sel.with_.foldlM (fun (ctes : Ctes) cte => do
    let rs ← rq cte.query
    return ctes.insert (toAsciiLowercase cte.name) (relationFromResult cte.name rs)) ∅
  if sel.setOps.isEmpty then evalCore E sc rq ctes true sel
  else
    let acc ← evalCore E sc rq ctes false sel
    let acc ← sel.setOps.foldlM (fun acc part => do
      let rhs ← evalCore E sc rq ctes true part.query
      combineSetOp E.prims acc rhs part.op part.all) acc
    applyOutputOrderLimit E acc sel sc.params

def runQuery (E : Env) (sc : Scan) : Nat → RunQuery
  | 0, _ => .error .fuel
  | fuel + 1, sel => queryStep E sc (runQuery E sc fuel) sel

/-- The right-hand row source of `UPDATE … FROM` and `DELETE … USING`. -/
def materialize (E : Env) (sc : Scan) (f : FromClause) : Res Relation :=
  buildFrom E sc (runQuery E sc E.fuel) ∅ f

def runSelectTuned (E : Env) (store : Store) (sel : SelectStmt) (snapshot : Nat) (writer : Option Nat)
    (params : List Value) (efSearch : Option Nat) : Res ResultSet :=
  let relational := runQuery E (store.scan E snapshot writer params) E.fuel sel
  match sel.from_ with
  | some (.table name _) =>
    if !needsRelational sel && (store.table name).isSome then
      singleTableSelect E store sel name snapshot writer params efSearch
    else relational
  | none => if !needsRelational sel then constantSelect E sel params else relational
  | _ => relational

def runSelect (E : Env) (store : Store) (sel : SelectStmt) (snapshot : Nat) (writer : Option Nat)
    (params : List Value) : Res ResultSet :=
  runSelectTuned E store sel snapshot writer params none

end Twill
