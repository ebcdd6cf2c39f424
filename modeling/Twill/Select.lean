/-
`SELECT` over one base table or no table (`exec.rs`: `single_table_select`,
`knn_select`, `grouped_select`, `constant_select` and their helpers).
-/
import Twill.Rls
import Twill.Store
import Twill.Lib.Sort

namespace Twill

structure ResultSet where
  columns : List String
  types : List ColumnType
  rows : List Row
  deriving DecidableEq, Repr

def ResultSet.none : ResultSet := ⟨[], [], []⟩

/-- `row_visible`: a writer sees its own pending changes, a reader does not. -/
def rowVisible (v : RowVersion) (snapshot : Nat) (writer : Option Nat) : Bool :=
  match writer with
  | some me => v.visibleToWriter snapshot me
  | none => v.visibleToReader snapshot

/-! ## What an expression contains -/

def orM (a b : Res Bool) : Res Bool := do
  if ← a then return true
  b

mutual

/-- Whether some subquery of the expression satisfies `p`, in source order and
without descending into the subqueries themselves. -/
def anySubquery (p : SelectStmt → Res Bool) : Expr → Res Bool
  | .scalarSubquery q => p q
  | .exists q _ => p q
  | .inSubquery e q _ => orM (anySubquery p e) (p q)
  | .cast e _ => anySubquery p e
  | .unary _ e => anySubquery p e
  | .isNull e _ => anySubquery p e
  | .binary _ l r => orM (anySubquery p l) (anySubquery p r)
  | .like e pattern escape _ _ =>
    orM (anySubquery p e) (orM (anySubquery p pattern) (anySubqueryOpt p escape))
  | .inList e list _ => orM (anySubquery p e) (anySubqueryList p list)
  | .between e lo hi _ => orM (anySubquery p e) (orM (anySubquery p lo) (anySubquery p hi))
  | .case operand whens els =>
    orM (anySubqueryOpt p operand) (orM (anySubqueryWhens p whens) (anySubqueryOpt p els))
  | .func _ args => anySubqueryList p args
  | .aggregate _ .star _ sep => anySubqueryOpt p sep
  | .aggregate _ (.expr e) _ sep => orM (anySubquery p e) (anySubqueryOpt p sep)
  | _ => .ok false

def anySubqueryList (p : SelectStmt → Res Bool) : List Expr → Res Bool
  | [] => .ok false
  | e :: es => orM (anySubquery p e) (anySubqueryList p es)

def anySubqueryOpt (p : SelectStmt → Res Bool) : Option Expr → Res Bool
  | none => .ok false
  | some e => anySubquery p e

def anySubqueryWhens (p : SelectStmt → Res Bool) : List (Expr × Expr) → Res Bool
  | [] => .ok false
  | (c, r) :: whens => orM (anySubquery p c) (orM (anySubquery p r) (anySubqueryWhens p whens))

end

def exprHasSubquery (e : Expr) : Bool := (anySubquery (fun _ => .ok true) e).toOption.getD false

mutual

/-- Whether an aggregate call occurs in the expression. -/
def exprHasAggregate : Expr → Bool
  | .aggregate _ _ _ _ => true
  | .cast e _ => exprHasAggregate e
  | .unary _ e => exprHasAggregate e
  | .isNull e _ => exprHasAggregate e
  | .binary _ l r => exprHasAggregate l || exprHasAggregate r
  | .like e pattern _ _ _ => exprHasAggregate e || exprHasAggregate pattern
  | .func _ args => anyAggregate args
  | .inList e list _ => exprHasAggregate e || anyAggregate list
  | .between e lo hi _ => exprHasAggregate e || exprHasAggregate lo || exprHasAggregate hi
  | .case operand whens els => optHasAggregate operand || whensHaveAggregate whens || optHasAggregate els
  | _ => false

def anyAggregate : List Expr → Bool
  | [] => false
  | e :: es => exprHasAggregate e || anyAggregate es

def optHasAggregate : Option Expr → Bool
  | none => false
  | some e => exprHasAggregate e

def whensHaveAggregate : List (Expr × Expr) → Bool
  | [] => false
  | (c, r) :: whens => exprHasAggregate c || exprHasAggregate r || whensHaveAggregate whens

end

def SelItem.hasSubquery : SelItem → Bool
  | .expr e _ => exprHasSubquery e
  | .star _ => false

def SelItem.hasAggregate : SelItem → Bool
  | .expr e _ => exprHasAggregate e
  | .star _ => false

def selectHasSubquery (sel : SelectStmt) : Bool :=
  sel.items.any SelItem.hasSubquery || sel.filter.any exprHasSubquery ||
    sel.groupBy.any exprHasSubquery || sel.having.any exprHasSubquery ||
    sel.orderBy.any fun k => exprHasSubquery k.expr

/-- Whether the query needs the relational executor. -/
def needsRelational (sel : SelectStmt) : Bool :=
  !sel.with_.isEmpty || sel.distinct || !sel.setOps.isEmpty ||
    (match sel.from_ with
    | some (.join ..) => true
    | some (.derived ..) => true
    | _ => false) ||
    selectHasSubquery sel

def isAggregated (sel : SelectStmt) : Bool :=
  !sel.groupBy.isEmpty || sel.having.isSome || sel.items.any SelItem.hasAggregate

/-! ## LIMIT, OFFSET and ORDER BY -/

def evalCount (E : Env) (opt : Option Expr) (params : List Value) : Res (Option Int64) :=
  match opt with
  | none => .ok none
  | some e => do
    match ← eval E e (EvalCtx.root params) with
    | .null => return none
    | .int n => return some n
    | .real b => return some (asI64 (Float.ofBits b))
    | .text s => match parseI64 (trimText s) with
      | some n => return some n
      | none => throw (EngineError.sql "LIMIT/OFFSET must be an integer")
    | other => throw (EngineError.sql ("LIMIT/OFFSET must be an integer, found " ++ other.typeName))

/-- Drops the first `offset` rows, then keeps at most `limit`; both clamp at 0. -/
def applyOffsetLimit {α : Type} (rows : List α) (limit offset : Option Int64) : List α :=
  let rows := match offset with
    | some off => rows.drop off.toInt.toNat
    | none => rows
  match limit with
  | some n => rows.take n.toInt.toNat
  | none => rows

/-- The direction applies to non-null values; NULL placement is independent. -/
def orderCmp (a b : Value) (asc nullsFirst : Bool) : Ordering :=
  match a.isNull, b.isNull with
  | true, true => .eq
  | true, false => if nullsFirst then .lt else .gt
  | false, true => if nullsFirst then .gt else .lt
  | false, false =>
    let ord := (a.sqlCmp b).getD .eq
    if asc then ord else ord.swap

/-- Compares by the key list, each key evaluated on both sides by `value`. -/
def orderKeyCmp {α : Type} (value : Expr → α → Res Value) : List OrderKey → α → α → Res Ordering
  | [], _, _ => .ok .eq
  | k :: ks, a, b => do
    let va ← value k.expr a
    let vb ← value k.expr b
    match orderCmp va vb k.asc k.nullsFirst with
    | .eq => orderKeyCmp value ks a b
    | ord => return ord

/-- An ORDER BY key naming an output alias stands for that item's expression. -/
def resolveAlias (items : List SelItem) (e : Expr) : Expr :=
  match e with
  | .column name =>
    (items.findSome? fun i => match i with
      | .expr e (some a) => if eqIgnoreAsciiCase a name then some e else none
      | _ => none).getD (.column name)
  | e => e

def resolvedOrderKeys (items : List SelItem) (orderBy : List OrderKey) : List OrderKey :=
  orderBy.map fun k => { k with expr := resolveAlias items k.expr }

def orderMatched (E : Env) (sel : SelectStmt) (schema : TableSchema) (matched : List Row)
    (params : List Value) : Res (List Row) :=
  if sel.orderBy.isEmpty then .ok matched
  else StableSort.sortBy (orderKeyCmp (fun e r => eval E e (EvalCtx.ofRow r schema params))
    (resolvedOrderKeys sel.items sel.orderBy)) matched

/-! ## Column names and types -/

def aggName : AggFunc → String
  | .count => "count"
  | .sum => "sum"
  | .min => "min"
  | .max => "max"
  | .avg => "avg"
  | .jsonAgg => "json_agg"
  | .groupConcat => "group_concat"

def columnName (idx : Nat) : Expr → String
  | .column c => c
  | .qualified _ c => c
  | .aggregate f _ _ _ => aggName f
  | .func name _ => toAsciiLowercase name
  | .cast e _ => columnName idx e
  | _ => "col" ++ toString (idx + 1)

def itemName (e : Expr) (alias_ : Option String) (idx : Nat) : String := alias_.getD (columnName idx e)

def litType : Value → ColumnType
  | .int _ => .integer
  | .real _ => .real
  | .blob _ => .blob
  | .vector v => .vector (UInt32.ofNat v.length)
  | _ => .text

def castColumnType : CastTarget → ColumnType
  | .int | .bool => .integer
  | .real => .real
  | .text | .passthrough => .text

def funcType (name : String) : ColumnType :=
  let n := toAsciiLowercase name
  if n ∈ ["length", "char_length", "character_length", "abs", "instr", "strpos", "sign", "extract",
      "unixepoch"] then .integer
  else if n ∈ ["sqrt", "exp", "ln", "log", "log10", "power", "pow", "pi", "random", "ceil", "ceiling",
      "floor", "trunc", "round"] then .real
  else .text

def schemaType (schema : Option TableSchema) (name : String) : ColumnType :=
  match schema with
  | none => .text
  | some s => match s.columnIndex name with
    | some i => (s.column i).ty
    | none => .text

/-- Best-effort static type of a projected expression. -/
def exprType (schema : Option TableSchema) : Expr → ColumnType
  | .int _ => .integer
  | .real _ => .real
  | .str _ => .text
  | .vector v => .vector (UInt32.ofNat v.length)
  | .lit v => litType v
  | .binary op _ _ => if op.vecMetric.isSome then .real else .text
  | .column name => schemaType schema name
  | .qualified _ name => schemaType schema name
  | .cast e .passthrough => exprType schema e
  | .cast _ target => castColumnType target
  | .aggregate func .star _ _ =>
    if schema.isNone then .text else match func with
      | .count | .sum => .integer
      | .avg => .real
      | _ => .text
  | .aggregate func (.expr e) _ _ =>
    if schema.isNone then .text else match func with
      | .count => .integer
      | .avg => .real
      | .jsonAgg | .groupConcat => .text
      | .sum => if exprType schema e = .real then .real else .integer
      | .min | .max => exprType schema e
  | .func name _ => funcType name
  | _ => .text

/-- Output names and types of a select list: `star` gives the columns a `*`
stands for, `ty` types an expression. -/
def outputColumns (star : Option String → List (String × ColumnType)) (ty : Expr → ColumnType) :
    List SelItem → List (String × ColumnType) → List (String × ColumnType)
  | [], acc => acc
  | .star q :: items, acc => outputColumns star ty items (acc ++ star q)
  | .expr e alias_ :: items, acc =>
    outputColumns star ty items (acc ++ [(itemName e alias_ acc.length, ty e)])

def schemaColumns (schema : TableSchema) : List (String × ColumnType) :=
  schema.columns.map fun c => (c.name, c.ty)

/-! ## Projection -/

/-- The values one select item contributes for a row. -/
def projectItem (E : Env) (schema : TableSchema) (vals : Row) (params : List Value) : SelItem → Res Row
  | .star _ => schema.columns.mapM fun c => match schema.columnIndex c.name with
    | some i => indexRow vals i
    | none => .error .panic
  | .expr e _ => do return [← eval E e (EvalCtx.ofRow vals schema params)]

def project (E : Env) (items : List SelItem) (schema : TableSchema) (matched : List Row)
    (params : List Value) : Res ResultSet := do
  let cols := outputColumns (fun _ => schemaColumns schema) (exprType (some schema)) items []
  let rows ← matched.mapM fun vals => do
    return (← items.mapM (projectItem E schema vals params)).flatten
  return ⟨cols.map (·.1), cols.map (·.2), rows⟩

/-! ## Grouping -/

/-- Partitions by key, groups in first-seen order. -/
def groupInto {α : Type} : List (String × α) → List (String × List α) → List (String × List α)
  | [], groups => groups
  | (k, a) :: rest, groups =>
    if groups.any fun g => g.1 == k then
      groupInto rest (groups.map fun g => if g.1 == k then (g.1, g.2 ++ [a]) else g)
    else groupInto rest (groups ++ [(k, [a])])

/-- The key of a GROUP BY tuple. -/
def groupKey (E : Env) (groupBy : List Expr) (ctx : EvalCtx) : Res String :=
  groupBy.foldlM (fun k e => do return k ++ valueKey E.prims (← eval E e ctx) ++ "\x01") ""

/-- The groups of the rows; with no GROUP BY an empty input is one empty group. -/
def groupRows (E : Env) (groupBy : List Expr) (ctx : Row → EvalCtx) (rows : List Row) :
    Res (List (List Row)) := do
  let keyed ← rows.mapM fun r => do return (← groupKey E groupBy (ctx r), r)
  let groups := (groupInto keyed []).map (·.2)
  return if groupBy.isEmpty && groups.isEmpty then [[]] else groups

/-- One projected group, or nothing when HAVING rejects it. -/
def projectGroup (E : Env) (having : Option Expr) (items : List SelItem)
    (star : Row → Option String → Res Row) (ctx : EvalCtx) : Res (Option Row) := do
  if ← predicate E having ctx then
    let out ← items.mapM fun i => match i with
      | .star q => match ctx.row with
        | some r => star r q
        | none => throw (EngineError.sql "SELECT * over an empty group")
      | .expr e _ => do return [← eval E e ctx]
    return some out.flatten
  return none

/-- The context of a group: its first row stands for it. -/
def groupCtx (schema : Option TableSchema) (cols : Option (List RelCol)) (params : List Value)
    (rows : List Row) : EvalCtx :=
  ⟨rows.head?, schema, params, some rows, none, cols⟩

def groupedSelect (E : Env) (sel : SelectStmt) (schema : TableSchema) (matched : List Row)
    (params : List Value) : Res ResultSet := do
  let groups ← groupRows E sel.groupBy (fun r => EvalCtx.ofRow r schema params) matched
  let cols := outputColumns (fun _ => schemaColumns schema) (exprType (some schema)) sel.items []
  let ctx := groupCtx (some schema) none params
  let projected ← groups.mapM fun g => do
    return (← projectGroup E sel.having sel.items (fun r _ => .ok r) (ctx g)).map fun out => (out, g)
  let entries := projected.filterMap id
  let ordered ← if sel.orderBy.isEmpty then .ok entries
    else StableSort.sortBy (orderKeyCmp (fun e (p : Row × List Row) => eval E e (ctx p.2))
      (resolvedOrderKeys sel.items sel.orderBy)) entries
  let off ← evalCount E sel.offset params
  let lim ← evalCount E sel.limit params
  return ⟨cols.map (·.1), cols.map (·.2), applyOffsetLimit (ordered.map (·.1)) lim off⟩

/-! ## The index path -/

def knnOverfetch : Nat := 4

structure KnnPlan where
  column : String
  metric : Metric
  query : Expr
  limit : Nat

/-- The shape `ORDER BY <col> <dist-op> <query> ASC LIMIT k`, no aggregates. -/
def knnPlan (sel : SelectStmt) (limit : Option Int64) : Option KnnPlan :=
  match limit, sel.orderBy with
  | some n, [k] =>
    if n < 0 || !k.asc || sel.offset.isSome || isAggregated sel then none
    else match k.expr with
      | .binary op (.column col) r => op.vecMetric.map fun m => ⟨col, m, r, n.toInt.toNat⟩
      | _ => none
  | _, _ => none

/-- The candidates the index returns, kept while visible and passing WHERE,
until `limit` rows are found. -/
def knnMatches (E : Env) (sel : SelectStmt) (t : Table) (snapshot : Nat) (writer : Option Nat)
    (params : List Value) (limit : Nat) : List Nat → List Row → Res (List Row)
  | [], matched => .ok matched
  | vid :: vids, matched =>
    match t.version vid with
    | none => knnMatches E sel t snapshot writer params limit vids matched
    | some v =>
      if !rowVisible v snapshot writer then knnMatches E sel t snapshot writer params limit vids matched
      else do
        if ← predicate E sel.filter (EvalCtx.ofRow v.values t.schema params) then
          let matched := matched ++ [v.values]
          if limit ≤ matched.length then return matched
          knnMatches E sel t snapshot writer params limit vids matched
        else knnMatches E sel t snapshot writer params limit vids matched

def knnFetch (index : VectorIndex) (limit : Nat) (efSearch : Option Nat) : Nat :=
  let live := max index.liveLen 1
  let base := max (limit * knnOverfetch) (efSearch.getD index.definition.params.efSearch)
  min ((base * index.len + live - 1) / live) index.len

/-- Answers a nearest-neighbour query from its index; `none` when the shape or
the index does not fit and the scan must do it. -/
def knnSelect (E : Env) (store : Store) (sel : SelectStmt) (tableName : String) (snapshot : Nat)
    (writer : Option Nat) (params : List Value) (efSearch : Option Nat) : Res (Option ResultSet) := do
  let limit ← evalCount E sel.limit params
  match knnPlan sel limit with
  | none => return none
  | some plan =>
    if plan.limit = 0 then return none
    match store.indexFor tableName plan.column with
    | none => return none
    | some index =>
      if index.definition.params.metric ≠ plan.metric || index.len = 0 then return none
      if snapshot < index.rebuildFloor then return none
      match toVecOperand E.prims (← eval E plan.query (EvalCtx.root params)) with
      | none => return none
      | some query => match store.table tableName with
        | none => return none
        | some t =>
          let found := index.search query (knnFetch index plan.limit efSearch) efSearch
          let matched ← knnMatches E sel t snapshot writer params plan.limit (found.map (·.1)) []
          return some (← project E sel.items t.schema matched params)

/-! ## The scan path -/

/-- The rows of a table visible at the snapshot that pass the read filter and
WHERE, in storage order. The two are interleaved row by row, so an error of
either surfaces at the first row that has one. -/
def scanMatched (E : Env) (rls : RlsDecision) (filter : Option Expr) (schema : TableSchema)
    (snapshot : Nat) (writer : Option Nat) (params : List Value) :
    List RowVersion → Res (List Row)
  | [] => .ok []
  | v :: rows =>
    if !rowVisible v snapshot writer then scanMatched E rls filter schema snapshot writer params rows
    else do
      let ctx := EvalCtx.ofRow v.values schema params
      if !(← rls.passes E ctx) then scanMatched E rls filter schema snapshot writer params rows
      else if ← predicate E filter ctx then
        return v.values :: (← scanMatched E rls filter schema snapshot writer params rows)
      else scanMatched E rls filter schema snapshot writer params rows

def RlsDecision.isUnrestricted : RlsDecision → Bool
  | .unrestricted => true
  | _ => false

def singleTableSelect (E : Env) (store : Store) (sel : SelectStmt) (tableName : String) (snapshot : Nat)
    (writer : Option Nat) (params : List Value) (efSearch : Option Nat) : Res ResultSet :=
  match store.table tableName with
  | none => .error (EngineError.sql ("no such table: " ++ tableName))
  | some t => do
    let rls ← rlsRead E t.schema .select
    let viaIndex ← if rls.isUnrestricted then
      knnSelect E store sel tableName snapshot writer params efSearch else .ok none
    match viaIndex with
    | some rs => return rs
    | none =>
      let matched ← scanMatched E rls sel.filter t.schema snapshot writer params t.rows
      if isAggregated sel then groupedSelect E sel t.schema matched params
      else
        let ordered ← orderMatched E sel t.schema matched params
        let limit ← evalCount E sel.limit params
        let offset ← evalCount E sel.offset params
        project E sel.items t.schema (applyOffsetLimit ordered limit offset) params

/-! ## No table -/

def constantSelect (E : Env) (sel : SelectStmt) (params : List Value) : Res ResultSet := do
  sel.items.forM fun i => match i with
    | .star _ => throw (EngineError.sql "SELECT * requires a FROM clause")
    | .expr e _ => if exprHasAggregate e then throw (EngineError.sql "aggregate requires a FROM clause")
      else return ()
  let cols := outputColumns (fun _ => []) (exprType none) sel.items []
  let row ← sel.items.mapM fun i => match i with
    | .star _ => .ok []
    | .expr e _ => do return [← eval E e (EvalCtx.root params)]
  return ⟨cols.map (·.1), cols.map (·.2), [row.flatten]⟩

end Twill
