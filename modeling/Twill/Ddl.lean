/-
DDL (`conn.rs`: `do_ddl` and the `do_*` handlers it dispatches to).

Every handler validates against the store, logs one operation followed by a
`Commit` marker, and then applies the operation to the store. `planDdl` is the
validation (the operation to log, or `none` when the statement is a no-op) and
`applyDdl` the live application.
-/
import Twill.Wal

namespace Twill

structure ForeignKeySpec where
  name : Option String
  columns : List String
  foreignTable : String
  foreignColumns : List String

inductive AlterAction where
  | addColumn (spec : Column)
  | dropColumn (name : String) (ifExists : Bool)
  | renameColumn (source target : String)
  | renameTable (target : String)
  | setRls (enabled : Bool)

structure CreateTableStmt where
  name : String
  columns : List Column
  foreignKeys : List ForeignKeySpec
  /-- Table-level `PRIMARY KEY (cols)`. -/
  primaryKey : List String
  uniques : List (List String)
  checks : List String
  ifNotExists : Bool

structure CreateViewStmt where
  name : String
  query : SelectStmt
  /-- The statement text, parsed again on recovery. -/
  sql : String
  orReplace : Bool
  ifNotExists : Bool

inductive DdlStmt where
  | createTable (st : CreateTableStmt)
  | dropTable (name : String) (ifExists : Bool)
  | createIndex (d : IndexDef) (ifNotExists : Bool)
  | dropIndex (name : String) (ifExists : Bool)
  | alterTable (table : String) (action : AlterAction)
  | createView (st : CreateViewStmt)
  | dropView (name : String) (ifExists : Bool)
  | createPolicy (table : String) (policy : Policy)
  | dropPolicy (name table : String) (ifExists : Bool)

/-! ## Relations a query names -/

mutual

def collectSelectRefs : SelectStmt → List String
  | ⟨with_, _, items, from_, filter, groupBy, having, setOps, orderBy, _, _⟩ =>
    collectCteRefs with_ ++ collectFromOptRefs from_ ++ collectItemRefs items ++ collectOptRefs filter ++
      collectListRefs groupBy ++ collectOptRefs having ++ collectKeyRefs orderBy ++ collectSetRefs setOps

def collectCteRefs : List CteDef → List String
  | [] => []
  | ⟨_, q⟩ :: rest => collectSelectRefs q ++ collectCteRefs rest

def collectSetRefs : List SetOpPart → List String
  | [] => []
  | ⟨_, _, q⟩ :: rest => collectSelectRefs q ++ collectSetRefs rest

def collectItemRefs : List SelItem → List String
  | [] => []
  | .expr e _ :: rest => collectExprRefs e ++ collectItemRefs rest
  | .star _ :: rest => collectItemRefs rest

def collectKeyRefs : List OrderKey → List String
  | [] => []
  | ⟨e, _, _⟩ :: rest => collectExprRefs e ++ collectKeyRefs rest

def collectFromOptRefs : Option FromClause → List String
  | none => []
  | some f => collectFromRefs f

def collectFromRefs : FromClause → List String
  | .table name _ => [name]
  | .derived query _ => collectSelectRefs query
  | .join left right _ on_ _ => collectFromRefs left ++ collectFromRefs right ++ collectOptRefs on_

def collectOptRefs : Option Expr → List String
  | none => []
  | some e => collectExprRefs e

def collectListRefs : List Expr → List String
  | [] => []
  | e :: es => collectExprRefs e ++ collectListRefs es

def collectWhenRefs : List (Expr × Expr) → List String
  | [] => []
  | (c, r) :: whens => collectExprRefs c ++ collectExprRefs r ++ collectWhenRefs whens

def collectExprRefs : Expr → List String
  | .scalarSubquery q => collectSelectRefs q
  | .exists q _ => collectSelectRefs q
  | .inSubquery e q _ => collectExprRefs e ++ collectSelectRefs q
  | .binary _ l r => collectExprRefs l ++ collectExprRefs r
  | .unary _ e => collectExprRefs e
  | .isNull e _ => collectExprRefs e
  | .cast e _ => collectExprRefs e
  | .like e pattern escape _ _ => collectExprRefs e ++ collectExprRefs pattern ++ collectOptRefs escape
  | .inList e list _ => collectExprRefs e ++ collectListRefs list
  | .between e lo hi _ => collectExprRefs e ++ collectExprRefs lo ++ collectExprRefs hi
  | .case operand whens els => collectOptRefs operand ++ collectWhenRefs whens ++ collectOptRefs els
  | .func _ args => collectListRefs args
  | .aggregate _ .star _ sep => collectOptRefs sep
  | .aggregate _ (.expr e) _ sep => collectExprRefs e ++ collectOptRefs sep
  | _ => []

end

/-- The relations a query names, its own CTEs excepted. -/
def referencedRelations (sel : SelectStmt) : List String :=
  let names := sel.with_.map fun c => toAsciiLowercase c.name
  (collectSelectRefs sel).filter fun n => !names.contains (toAsciiLowercase n)

/-- The worklist of `view_would_cycle`, top of the stack first. A name is
expanded once, so the references of the query and of every view bound the
number of rounds. -/
def cycleSearch (store : Store) (newName : String) : Nat → List String → List String → Bool
  | 0, _, _ => false
  | _ + 1, [], _ => false
  | fuel + 1, n :: stack, seen =>
    if eqIgnoreAsciiCase n newName then true
    else if seen.contains (toAsciiLowercase n) then cycleSearch store newName fuel stack seen
    else
      let more := (store.view n).elim [] fun q => (referencedRelations q).reverse
      cycleSearch store newName fuel (more ++ stack) (toAsciiLowercase n :: seen)

def viewWouldCycle (store : Store) (newName : String) (query : SelectStmt) : Bool :=
  let refs := referencedRelations query
  let bound := (store.views.values.map fun q => (referencedRelations q).length).sum
  cycleSearch store newName (refs.length + bound + 1) refs.reverse []

/-! ## CREATE TABLE -/

/-- Folds a table-level PRIMARY KEY into the columns. -/
def foldPrimaryKey : List String → List Column → Res (List Column)
  | [], cols => .ok cols
  | pk :: pks, cols => match cols.findIdx? fun c => eqIgnoreAsciiCase c.name pk with
    | none => .error (EngineError.sql ("PRIMARY KEY references unknown column " ++ pk))
    | some i => foldPrimaryKey pks (cols.modify i fun c => { c with primaryKey := true, notNull := true })

def pkNamesOf (cols : List Column) : List String := (cols.filter (·.primaryKey)).map (·.name)

/-- The primary key of a referenced table, if it has one. -/
def referencedPk (store : Store) (table : String) (cols : List Column) (foreign : String) :
    Option (List String) :=
  let pk := if eqIgnoreAsciiCase foreign table then some (pkNamesOf cols)
    else (store.table foreign).map fun t => pkNamesOf t.schema.columns
  pk.filter fun pk => !pk.isEmpty

def resolveForeignKey (store : Store) (table : String) (cols : List Column) (fk : ForeignKeySpec) :
    Res ForeignKey := do
  let foreignColumns ← if fk.foreignColumns.isEmpty then
      match referencedPk store table cols fk.foreignTable with
      | some pk => .ok pk
      | none => .error (EngineError.sql ("foreign key on " ++ table ++ " references " ++
          fk.foreignTable ++ " which has no known primary key"))
    else .ok fk.foreignColumns
  if foreignColumns.length ≠ fk.columns.length then
    throw (EngineError.sql ("foreign key on " ++ table ++ ": " ++ toString fk.columns.length ++
      " local column(s) reference " ++ toString foreignColumns.length ++ " column(s)"))
  return ⟨fk.name.getD (table ++ "_" ++ joinWith "_" fk.columns ++ "_fkey"), fk.columns, fk.foreignTable,
    foreignColumns⟩

def planCreateTable (store : Store) (st : CreateTableStmt) : Res (Option WalOp) := do
  if store.hasTable st.name then
    if st.ifNotExists then return none
    throw (EngineError.sql ("table " ++ st.name ++ " already exists"))
  let cols ← foldPrimaryKey st.primaryKey st.columns
  let fks ← st.foreignKeys.mapM (resolveForeignKey store st.name cols)
  return some (.createTable ⟨st.name, cols, fks, st.checks, st.uniques, false, []⟩)

/-! ## The other statements -/

def planDrop (there : Bool) (ifExists : Bool) (missing : String) (op : WalOp) : Res (Option WalOp) :=
  if there then .ok (some op) else if ifExists then .ok none else .error (EngineError.sql missing)

def planCreateIndex (store : Store) (d : IndexDef) (ifNotExists : Bool) : Res (Option WalOp) := do
  if store.hasIndex d.name then
    if ifNotExists then return none
    throw (EngineError.sql ("index " ++ d.name ++ " already exists"))
  match store.table d.table with
  | none => throw (EngineError.sql ("no such table: " ++ d.table))
  | some t => match t.schema.columnIndex d.column with
    | none => throw (EngineError.sql ("no such column: " ++ d.table ++ "." ++ d.column))
    | some col =>
      if !(t.schema.column col).ty.isVector then
        throw (EngineError.sql ("HNSW index requires a vector column; " ++ d.table ++ "." ++ d.column ++
          " is not a vector"))
      return some (.createIndex d)

def planAlter (store : Store) (table : String) (action : AlterAction) : Res (Option WalOp) :=
  match store.table table with
  | none => .error (EngineError.sql ("no such table: " ++ table))
  | some t => match action with
    | .addColumn spec =>
      if (t.schema.columnIndex spec.name).isSome then
        .error (EngineError.sql ("column " ++ spec.name ++ " already exists in " ++ table))
      else .ok (some (.alterAddColumn table { spec with primaryKey := false }))
    | .dropColumn name ifExists => planDrop (t.schema.columnIndex name).isSome ifExists
        ("no such column: " ++ table ++ "." ++ name) (.alterDropColumn table name)
    | .renameColumn source target => .ok (some (.alterRenameColumn table source target))
    | .renameTable target => .ok (some (.alterRenameTable table target))
    | .setRls enabled => .ok (some (.setRls table enabled))

def planCreateView (store : Store) (st : CreateViewStmt) : Res (Option WalOp) := do
  if store.hasTable st.name then
    throw (EngineError.sql ("cannot create view " ++ st.name ++ ": a table with that name already exists"))
  if store.hasView st.name && !st.orReplace then
    if st.ifNotExists then return none
    throw (EngineError.sql ("view " ++ st.name ++ " already exists"))
  if viewWouldCycle store st.name st.query then
    throw (EngineError.sql ("cannot create view " ++ st.name ++
      ": the definition is recursive (unsupported)"))
  return some (.createView st.name st.sql)

def hasPolicy (t : Table) (name : String) : Bool :=
  t.schema.policies.any fun p => eqIgnoreAsciiCase p.name name

def planCreatePolicy (E : Env) (store : Store) (table : String) (policy : Policy) : Res (Option WalOp) := do
  match store.table table with
  | none => throw (EngineError.sql ("no such table: " ++ table))
  | some t =>
    if hasPolicy t policy.name then
      throw (EngineError.sql ("policy " ++ policy.name ++ " already exists on " ++ table))
    let _ ← policy.using_.toList.mapM E.frontend.parseExpr
    let _ ← policy.check.toList.mapM E.frontend.parseExpr
    return some (.createPolicy table policy)

/-- The operation a DDL statement logs; `none` when there is nothing to do. -/
def planDdl (E : Env) (store : Store) : DdlStmt → Res (Option WalOp)
  | .createTable st => planCreateTable store st
  | .dropTable name ifExists =>
    planDrop (store.hasTable name) ifExists ("no such table: " ++ name) (.dropTable name)
  | .createIndex d ifNotExists => planCreateIndex store d ifNotExists
  | .dropIndex name ifExists =>
    planDrop (store.hasIndex name) ifExists ("no such index: " ++ name) (.dropIndex name)
  | .alterTable table action => planAlter store table action
  | .createView st => planCreateView store st
  | .dropView name ifExists =>
    planDrop (store.hasView name) ifExists ("no such view: " ++ name) (.dropView name)
  | .createPolicy table policy => planCreatePolicy E store table policy
  | .dropPolicy name table ifExists =>
    planDrop ((store.table table).any fun t => hasPolicy t name) ifExists
      ("no such policy: " ++ name ++ " on " ++ table) (.dropPolicy table name)

/-- The live application of a logged operation: an index is populated at once,
and a view keeps the query its statement parsed to. -/
def applyDdl (E : Env) (st : DdlStmt) (store : Store) (op : WalOp) : Store :=
  match st, op with
  | .createIndex d _, _ => store.createIndex d
  | .createView v, _ => store.insertView v.name v.query
  | _, .createTable schema => store.insertTable schema
  | _, .dropTable name => store.dropTable name
  | _, .dropIndex name => store.dropIndex name
  | _, .dropView name => store.dropView name
  | _, .createPolicy table policy => store.addPolicy table policy
  | _, .dropPolicy table name => store.dropPolicy table name
  | _, op => applyAlter E store op

end Twill
