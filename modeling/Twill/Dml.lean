/-
INSERT, UPDATE and DELETE (`exec.rs`, the writes section).

A write statement threads `Write`, the store and the WAL operations emitted so
far. A statement that stops keeps the `Write` it had reached: the source
mutates the shared store in place, so what it did before an error stays.
-/
import Twill.Wal
import Twill.Relational

namespace Twill

open Mvcc (PENDING)

structure WriteCtx where
  snapshot : Nat
  owner : Nat
  params : List Value

structure Mutation where
  wal : List WalOp
  changes : Nat
  result : Option ResultSet

/-- The shared store a statement mutates, with the operations it has emitted. -/
structure Write where
  store : Store
  wal : List WalOp

/-- How a write statement ends: its answer, and the state it leaves. -/
abbrev Outcome (α : Type) := Res α × Write

/-! ## Row checks -/

def checkNotNull (schema : TableSchema) (vals : Row) (table : String) : Res Unit :=
  schema.columns.zipIdx.forM fun p =>
    if p.1.notNull && (vals.cell p.2).isNull then
      .error (EngineError.constraint ("NOT NULL constraint failed: " ++ table ++ "." ++ p.1.name))
    else .ok ()

/-- One `vector(n)` cell: NULL, or a vector of the declared dimension. -/
def checkVectorDim (table : String) (c : Column) (v : Value) : Res Unit :=
  match c.ty, v with
  | .vector _, .null => .ok ()
  | .vector dim, .vector x =>
    if x.length = dim.toNat then .ok ()
    else .error (EngineError.constraint ("vector dimension mismatch on " ++ table ++ "." ++ c.name ++
      ": expected " ++ toString dim ++ ", got " ++ toString x.length))
  | .vector dim, other =>
    .error (EngineError.constraint ("column " ++ table ++ "." ++ c.name ++ " is vector(" ++ toString dim ++
      ") but value is " ++ other.typeName))
  | _, _ => .ok ()

def checkVectorDims (schema : TableSchema) (vals : Row) (table : String) : Res Unit :=
  schema.columns.zipIdx.forM fun p => checkVectorDim table p.1 (vals.cell p.2)

/-- A CHECK predicate fails only when it is false. -/
def checkRowConstraints (E : Env) (checks : List Expr) (schema : TableSchema) (vals : Row) : Res Unit :=
  checks.forM fun c => do
    if (← eval E c (EvalCtx.ofRow vals schema [])).asBool = some false then
      throw (EngineError.constraint ("CHECK constraint failed: " ++ schema.name))

def checkExprs (E : Env) (schema : TableSchema) : Res (List Expr) := schema.checks.mapM E.frontend.parseExpr

/-- First-committer-wins, and first-toucher-wins among in-flight writers. -/
def checkNoConflict (v : RowVersion) (snapshot me : Nat) : Res Unit :=
  let committedConflict := v.deleteLsn ≠ 0 ∧ v.deleteLsn ≠ PENDING ∧ snapshot < v.deleteLsn
  let pendingConflict := v.deleteLsn = PENDING ∧ v.owner ≠ me
  if committedConflict ∨ pendingConflict then
    .error (EngineError.conflict "write conflict: row modified by a concurrent transaction")
  else .ok ()

def noSuchTable (table : String) : Stop := EngineError.sql ("no such table: " ++ table)

def columnIndexOr (schema : TableSchema) (c : String) : Res Nat :=
  match schema.columnIndex c with
  | some i => .ok i
  | none => .error (EngineError.sql ("no such column: " ++ c))

def pkNames (schema : TableSchema) (pkCols : List Nat) : String :=
  joinWith "," (pkCols.map fun i => (schema.column i).name)

/-! ## Uniqueness -/

/-- The key of a row over a column set; none when a column is NULL. -/
def uniqueKey (P : Prims) (set : List Nat) (vals : Row) : Option String :=
  if set.any fun i => (vals.cell i).isNull then none else some (compositeKey P vals set)

/-- Adds each row's key to the keys seen, failing on a repeat. -/
def insertKeys (clash : Stop) : List (Option String) → List String → Res Unit
  | [], _ => .ok ()
  | none :: rows, seen => insertKeys clash rows seen
  | some k :: rows, seen => if seen.contains k then .error clash else insertKeys clash rows (k :: seen)

/-- Every `UNIQUE` set other than the primary key, against the rows this writer
sees at the committed LSN and against each other. -/
def checkSecondaryUniques (E : Env) (store : Store) (table : String) (schema : TableSchema)
    (newRows : List Row) (exclude : List Nat) (owner : Nat) : Res Unit :=
  (schema.uniqueSets.filter fun set => set ≠ schema.primaryKeyIndices).forM fun set =>
    let rows := (store.table table).elim [] (·.rows)
    let seen := (rows.filter fun v =>
      !exclude.contains v.vid && v.visibleToWriter store.committedLsn owner).filterMap fun v =>
        uniqueKey E.prims set v.values
    insertKeys (EngineError.constraint ("UNIQUE constraint failed: " ++ table ++ "." ++
      joinWith "," (set.map fun i => (schema.column i).name))) (newRows.map (uniqueKey E.prims set)) seen

/-- Another in-flight writer's live pending insert. -/
def pendingByOther (v : RowVersion) (me : Nat) : Bool :=
  v.createLsn == PENDING && v.owner != me && v.deleteLsn == 0

/-- The keys another in-flight writer is inserting. -/
def pendingKeys (P : Prims) (rows : List RowVersion) (committed : Nat) (pk : List Nat) (me : Nat) :
    List String :=
  (rows.filter fun v => !v.visibleToWriter committed me && pendingByOther v me).map fun v =>
    compositeKey P v.values pk

/-- Keys live in the latest committed state (and our own pending inserts), each
with the version an upsert would rewrite; a later row of the same key wins. -/
def liveVids (P : Prims) (rows : List RowVersion) (committed : Nat) (pk : List Nat) (me : Nat) :
    AList fun _ : String => Nat :=
  (rows.filter fun v => v.visibleToWriter committed me).foldl (fun m v =>
    m.insert (compositeKey P v.values pk) v.vid) ∅

/-! ## Mutation -/

/-- Stamps a version superseded by this writer and emits its delete. -/
def Write.supersede (w : Write) (table : String) (vid owner : Nat) : Write :=
  ⟨w.store.modifyTable table fun t => { t with rows := t.rows.pend owner (.delete vid) },
   w.wal ++ [.delete table vid]⟩

/-- The id `append_version` allocates. -/
def nextVidOf (s : Store) (table : String) : Nat := (s.table table).elim 0 (·.nextVid)

/-- Appends a pending version and emits its insert. -/
def Write.append (w : Write) (table : String) (vals : Row) (owner : Nat) : Write :=
  let vid := nextVidOf w.store table
  ⟨w.store.modifyTable table fun t =>
      { t with rows := t.rows.pend owner (.insert t.nextVid vals), nextVid := t.nextVid + 1 },
   w.wal ++ [.insert table vid vals]⟩

def Write.setAutoinc (w : Write) (table : String) (n : Int64) : Write :=
  { w with store := w.store.modifyTable table fun t => { t with nextAutoinc := n } }

/-- Index maintenance for the versions a statement added. -/
def Write.indexRows (w : Write) (table : String) (rows : List (Nat × Row)) : Write :=
  { w with store := rows.foldl (fun s r => s.indexRowInserted table r.1 r.2) w.store }

/-! ## RETURNING -/

def rlsFilterReturning (E : Env) (schema : TableSchema) (rows : List Row) : Res (List Row) := do
  let read ← rlsRead E schema .select
  if read.isUnrestricted then return rows
  let kept ← rows.mapM fun r => do
    return if ← read.passes E (EvalCtx.ofRow r schema []) then some r else none
  return kept.filterMap id

/-- The RETURNING rows of the affected ones: filtered by the SELECT policy, then
projected. -/
def returningRows (E : Env) (schema : TableSchema) (returning : Option (List SelItem))
    (affected : List Row) (params : List Value) : Res (Option ResultSet) :=
  match returning with
  | none => .ok none
  | some items => do
    let visible ← rlsFilterReturning E schema affected
    return some (← project E items schema visible params)

/-- Ends a statement that has applied its rows: RETURNING may still fail. -/
def finishWrite (E : Env) (schema : TableSchema) (returning : Option (List SelItem))
    (affected : List Row) (changes : Nat) (params : List Value) (w : Write) : Outcome Mutation :=
  match returningRows E schema returning affected params with
  | .error e => (.error e, w)
  | .ok result => (.ok ⟨w.wal, changes, result⟩, w)

/-! ## INSERT -/

def insertTargets (schema : TableSchema) (columns : Option (List String)) : Res (List Nat) :=
  match columns with
  | some cols => cols.mapM (columnIndexOr schema)
  | none => .ok (List.range schema.columns.length)

/-- Per-row column slots; `none` asks for the column's default. -/
abbrev Slot := List (Option Value)

def fillSlot (ncols : Nat) (cells : List (Nat × Option Value)) : Slot :=
  cells.foldl (fun slot c => slot.set c.1 c.2) (List.replicate ncols none)

def valuesSlot (E : Env) (schema : TableSchema) (columns : Option (List String)) (targets : List Nat)
    (params : List Value) (exprs : List Expr) : Res Slot :=
  if exprs.isEmpty && columns.isNone then .ok (fillSlot schema.columns.length [])
  else if exprs.length ≠ targets.length then
    .error (EngineError.sql ("INSERT has " ++ toString targets.length ++ " target column(s) but " ++
      toString exprs.length ++ " value(s)"))
  else do
    let cells ← exprs.mapM fun e => match e with
      | .default => .ok none
      | e => do return some (← eval E e (EvalCtx.root params))
    return fillSlot schema.columns.length (targets.zip cells)

def selectSlot (schema : TableSchema) (targets : List Nat) (r : Row) : Res Slot :=
  if r.length ≠ targets.length then
    .error (EngineError.sql ("INSERT … SELECT produced " ++ toString r.length ++ " column(s) for " ++
      toString targets.length ++ " target(s)"))
  else .ok (fillSlot schema.columns.length (targets.zip (r.map some)))

def buildInsertSlots (E : Env) (store : Store) (schema : TableSchema) (columns : Option (List String))
    (source : InsertSource) (wc : WriteCtx) : Res (List Slot) := do
  let targets ← insertTargets schema columns
  match source with
  | .values rows => rows.mapM (valuesSlot E schema columns targets wc.params)
  | .select sel =>
    let rs ← runSelect E store sel wc.snapshot (some wc.owner) wc.params
    rs.rows.mapM (selectSlot schema targets)

/-- One cell: the provided value coerced, or the column's default. The counter
moves past a provided autoincrement value; it faults on overflow. -/
def finalizeCell (E : Env) (c : Column) (slot : Option Value) (autoinc : Int64) : Res (Value × Int64) :=
  match slot with
  | some v => do
    let v := c.ty.coerce E.prims v
    match c.autoincrement, v with
    | true, .int n =>
      if n = Int64.maxValue then throw .panic else return (v, max autoinc (n + 1))
    | _, _ => return (v, autoinc)
  | none =>
    if c.autoincrement then
      if autoinc = Int64.maxValue then .error .panic else .ok (.int autoinc, autoinc + 1)
    else match c.defaultSql with
      | some d => do return (c.ty.coerce E.prims (← evalConstSql E d), autoinc)
      | none => .ok (.null, autoinc)

def finalizeCells (E : Env) : List (Column × Option Value) → Int64 → Res (Row × Int64)
  | [], autoinc => .ok ([], autoinc)
  | (c, slot) :: cells, autoinc => do
    let (v, autoinc) ← finalizeCell E c slot autoinc
    let (vals, autoinc) ← finalizeCells E cells autoinc
    return (v :: vals, autoinc)

/-- The checks a fully-formed row passes on INSERT and UPDATE. -/
def checkRow (E : Env) (checks : List Expr) (schema : TableSchema) (table : String) (vals : Row) :
    Res Unit := do
  checkNotNull schema vals table
  checkVectorDims schema vals table
  checkRowConstraints E checks schema vals

def finalizeRows (E : Env) (checks : List Expr) (schema : TableSchema) (table : String) :
    List Slot → Int64 → Res (List Row × Int64)
  | [], autoinc => .ok ([], autoinc)
  | slot :: slots, autoinc => do
    let (vals, autoinc) ← finalizeCells E (schema.columns.zip slot) autoinc
    checkRow E checks schema table vals
    let (rows, autoinc) ← finalizeRows E checks schema table slots autoinc
    return (vals :: rows, autoinc)

/-- The staged rows, and the counter the table is left with. -/
def finalizeInsertRows (E : Env) (store : Store) (schema : TableSchema) (table : String)
    (slots : List Slot) : Res (List Row × Int64) := do
  let checks ← checkExprs E schema
  finalizeRows E checks schema table slots ((store.table table).elim 1 (·.nextAutoinc))

/-- The new image a `DO UPDATE` computes; `none` when its WHERE rejects the row. -/
def upsertImage (E : Env) (schema : TableSchema) (table : String) (params : List Value)
    (existing excluded : Row) (sets : List (String × Expr)) (filter : Option Expr) : Res (Option Row) := do
  let ctx : EvalCtx := ⟨some existing, some schema, params, none, some excluded, none⟩
  if !(← predicate E filter ctx) then return none
  let nv ← sets.foldlM (fun nv (s : String × Expr) => do
    let idx ← columnIndexOr schema s.1
    return nv.set idx ((schema.column idx).ty.coerce E.prims (← eval E s.2 ctx))) existing
  checkNotNull schema nv table
  checkVectorDims schema nv table
  return some nv

def upsertUpdate (E : Env) (schema : TableSchema) (table : String) (wc : WriteCtx) (oldVid : Nat)
    (excluded : Row) (sets : List (String × Expr)) (filter : Option Expr) (w : Write) :
    Outcome (Option Row) :=
  match w.store.table table >>= fun t => t.version oldVid with
  | none => (.error (EngineError.sql "ON CONFLICT DO UPDATE cannot affect one row twice"), w)
  | some r => match upsertImage E schema table wc.params r.values excluded sets filter with
    | .error e => (.error e, w)
    | .ok none => (.ok none, w)
    | .ok (some nv) => (.ok (some nv), (w.supersede table oldVid wc.owner).append table nv wc.owner)

def pkClash (schema : TableSchema) (table : String) : Stop :=
  EngineError.constraint ("UNIQUE constraint failed: " ++ table ++ "." ++
    pkNames schema schema.primaryKeyIndices)

/-- One staged row, given the version its key clashes with. `none` when the row
was skipped. -/
def applyInsertRow (E : Env) (schema : TableSchema) (table : String) (wc : WriteCtx)
    (onConflict : OnConflict) (vals : Row) (clash : Option Nat) (w : Write) : Outcome (Option Row) :=
  match clash with
  | none => (.ok (some vals), w.append table vals wc.owner)
  | some oldVid => match onConflict with
    | .error => (.error (pkClash schema table), w)
    | .nothing => (.ok none, w)
    | .replace => (.ok (some vals), (w.supersede table oldVid wc.owner).append table vals wc.owner)
    | .update sets filter => upsertUpdate E schema table wc oldVid vals sets filter w

/-- What the row loop of an insert has produced so far. -/
structure Applied where
  affected : List Row
  newRows : List (Nat × Row)

def Applied.add (a : Applied) (vid : Nat) (vals : Row) : Applied :=
  ⟨a.affected ++ [vals], a.newRows ++ [(vid, vals)]⟩

def lastVid (s : Store) (table : String) : Nat :=
  (s.table table).elim 0 fun t => t.rows.getLast?.elim 0 (·.vid)

def pkPending (schema : TableSchema) (table what : String) : Stop :=
  EngineError.conflict ("write conflict: " ++ table ++ "." ++ pkNames schema schema.primaryKeyIndices ++
    " is being " ++ what ++ " by a concurrent transaction")

/-- The staged rows of a table with a primary key, in order. The key of the
staged row, not of the image written for it, enters the live map. -/
def applyRows (E : Env) (schema : TableSchema) (table : String) (wc : WriteCtx) (onConflict : OnConflict)
    (pending : List String) :
    List Row → (AList fun _ : String => Nat) → Applied → Write → Outcome Applied
  | [], _, acc, w => (.ok acc, w)
  | vals :: staged, live, acc, w =>
    let key := compositeKey E.prims vals schema.primaryKeyIndices
    if pending.contains key then (.error (pkPending schema table "inserted"), w)
    else match applyInsertRow E schema table wc onConflict vals (live.lookup key) w with
      | (.error e, w) => (.error e, w)
      | (.ok none, w) => applyRows E schema table wc onConflict pending staged live acc w
      | (.ok (some produced), w) =>
        let vid := lastVid w.store table
        applyRows E schema table wc onConflict pending staged (live.insert key vid)
          (acc.add vid produced) w

/-- Without a primary key no conflict is possible. -/
def appendRows (table : String) (owner : Nat) : List Row → Applied → Write → Applied × Write
  | [], acc, w => (acc, w)
  | vals :: staged, acc, w =>
    appendRows table owner staged (acc.add (nextVidOf w.store table) vals) (w.append table vals owner)

def applyInsert (E : Env) (schema : TableSchema) (table : String) (staged : List Row)
    (onConflict : OnConflict) (returning : Option (List SelItem)) (wc : WriteCtx) (w : Write) :
    Outcome Mutation :=
  let maintain := w.store.tableHasIndex table
  let pk := schema.primaryKeyIndices
  let rows := (w.store.table table).elim [] (·.rows)
  let applied : Outcome Applied :=
    if pk.isEmpty then
      let (acc, w) := appendRows table wc.owner staged ⟨[], []⟩ w
      (.ok acc, w)
    else applyRows E schema table wc onConflict
      (pendingKeys E.prims rows w.store.committedLsn pk wc.owner) staged
      (liveVids E.prims rows w.store.committedLsn pk wc.owner) ⟨[], []⟩ w
  match applied with
  | (.error e, w) => (.error e, w)
  | (.ok acc, w) =>
    let w := if maintain then w.indexRows table acc.newRows else w
    finishWrite E schema returning acc.affected acc.affected.length wc.params w

structure InsertStmt where
  table : String
  columns : Option (List String)
  source : InsertSource
  onConflict : OnConflict
  returning : Option (List SelItem)

/-- The validation pass of an INSERT: the staged rows, before anything moves,
and the autoincrement counter they leave. -/
def stageInsert (E : Env) (store : Store) (schema : TableSchema) (st : InsertStmt) (wc : WriteCtx) :
    Res (List Row × Int64) := do
  let slots ← buildInsertSlots E store schema st.columns st.source wc
  finalizeInsertRows E store schema st.table slots

/-- The checks on staged rows that run before the first mutation. -/
def checkStaged (E : Env) (store : Store) (schema : TableSchema) (st : InsertStmt) (staged : List Row)
    (wc : WriteCtx) : Res Unit := do
  let withCheck ← rlsWrite E schema .insert
  staged.forM fun row => enforceRlsWrite E withCheck schema st.table row
  match st.onConflict with
  | .error => checkSecondaryUniques E store st.table schema staged [] wc.owner
  | _ => return ()

def runInsert (E : Env) (st : InsertStmt) (wc : WriteCtx) (store : Store) : Outcome Mutation :=
  let w : Write := ⟨store, []⟩
  match store.table st.table with
  | none => (.error (noSuchTable st.table), w)
  | some t => match stageInsert E store t.schema st wc with
    | .error e => (.error e, w)
    | .ok (staged, autoinc) =>
      let w := w.setAutoinc st.table autoinc
      match checkStaged E w.store t.schema st staged wc with
      | .error e => (.error e, w)
      | .ok () => applyInsert E t.schema st.table staged st.onConflict st.returning wc w

/-! ## DELETE -/

structure DeleteStmt where
  table : String
  using_ : Option FromClause
  filter : Option Expr
  returning : Option (List SelItem)

/-- The target columns under the table's name: the left side of a join-driven
UPDATE or DELETE. -/
def targetRelCols (schema : TableSchema) (table : String) : List RelCol := schemaRelCols schema table

/-- The contexts a target row is tried under: itself, or itself with each row
of the joined sources. -/
def targetCtxs (schema : TableSchema) (table : String) (joined : Option Relation) (params : List Value)
    (vals : Row) : List EvalCtx :=
  match joined with
  | none => [EvalCtx.ofRow vals schema params]
  | some rel => rel.rows.map fun frow =>
    EvalCtx.rel (vals ++ frow) (targetRelCols schema table ++ rel.cols) params

/-- The first context the filter accepts. -/
def firstMatch (E : Env) (filter : Option Expr) : List EvalCtx → Res (Option EvalCtx)
  | [] => .ok none
  | ctx :: ctxs => do
    if ← predicate E filter ctx then return some ctx
    firstMatch E filter ctxs

/-- The target rows a statement acts on, in storage order: visible to the
writer, passing the USING decision and the filter, and free of conflicts. Each
is handed to `act` with the context that matched. -/
def collectTargets {α : Type} (E : Env) (schema : TableSchema) (table : String) (using_ : RlsDecision)
    (filter : Option Expr) (joined : Option Relation) (wc : WriteCtx)
    (act : RowVersion → EvalCtx → Res α) : List RowVersion → Res (List α)
  | [] => .ok []
  | v :: rows =>
    if !v.visibleToWriter wc.snapshot wc.owner then
      collectTargets E schema table using_ filter joined wc act rows
    else do
      if !(← using_.passes E (EvalCtx.ofRow v.values schema wc.params)) then
        collectTargets E schema table using_ filter joined wc act rows
      else match ← firstMatch E filter (targetCtxs schema table joined wc.params v.values) with
        | none => collectTargets E schema table using_ filter joined wc act rows
        | some ctx =>
          checkNoConflict v wc.snapshot wc.owner
          let a ← act v ctx
          return a :: (← collectTargets E schema table using_ filter joined wc act rows)

def materializeOpt (E : Env) (store : Store) (wc : WriteCtx) (f : Option FromClause) :
    Res (Option Relation) :=
  match f with
  | none => .ok none
  | some f => do return some (← materialize E (store.scan E wc.snapshot (some wc.owner) wc.params) f)

/-- The victims with their images. -/
def collectDeleteVictims (E : Env) (store : Store) (t : Table) (st : DeleteStmt) (wc : WriteCtx) :
    Res (List (Nat × Row)) := do
  let joined ← materializeOpt E store wc st.using_
  let using_ ← rlsRead E t.schema .delete
  collectTargets E t.schema st.table using_ st.filter joined wc (fun v _ => .ok (v.vid, v.values)) t.rows

def runDelete (E : Env) (st : DeleteStmt) (wc : WriteCtx) (store : Store) : Outcome Mutation :=
  let w : Write := ⟨store, []⟩
  match store.table st.table with
  | none => (.error (noSuchTable st.table), w)
  | some t => match collectDeleteVictims E store t st wc with
    | .error e => (.error e, w)
    | .ok victims =>
      let w := victims.foldl (fun w v => w.supersede st.table v.1 wc.owner) w
      finishWrite E t.schema st.returning (victims.map (·.2)) victims.length wc.params w

/-! ## UPDATE -/

structure UpdateStmt where
  table : String
  sets : List (String × Expr)
  from_ : Option FromClause
  filter : Option Expr
  returning : Option (List SelItem)

/-- The new image of a target row, checked. -/
def updateImage (E : Env) (schema : TableSchema) (table : String) (targets : List (Nat × Expr))
    (checks : List Expr) (withCheck : RlsDecision) (v : RowVersion) (ctx : EvalCtx) : Res (Nat × Row) := do
  let nv ← targets.foldlM (fun (nv : Row) (s : Nat × Expr) => do
    return nv.set s.1 ((schema.column s.1).ty.coerce E.prims (← eval E s.2 ctx))) v.values
  checkRow E checks schema table nv
  enforceRlsWrite E withCheck schema table nv
  return (v.vid, nv)

def computeUpdates (E : Env) (store : Store) (t : Table) (st : UpdateStmt) (wc : WriteCtx) :
    Res (List (Nat × Row)) := do
  let targets ← st.sets.mapM fun s => do return (← columnIndexOr t.schema s.1, s.2)
  let checks ← checkExprs E t.schema
  let joined ← materializeOpt E store wc st.from_
  let using_ ← rlsRead E t.schema .update
  let withCheck ← rlsWrite E t.schema .update
  collectTargets E t.schema st.table using_ st.filter joined wc
    (updateImage E t.schema st.table targets checks withCheck) t.rows

/-- The primary keys of the new images, against the keys live or pending in
other rows and against each other. -/
def checkPkUpdates (P : Prims) (schema : TableSchema) (table : String) (pk : List Nat)
    (pending : List String) : List Row → List String → Res Unit
  | [], _ => .ok ()
  | nv :: rows, committed =>
    let key := compositeKey P nv pk
    if pending.contains key then .error (pkPending schema table "written")
    else if committed.contains key then .error (pkClash schema table)
    else checkPkUpdates P schema table pk pending rows (key :: committed)

def checkUpdateUniques (E : Env) (store : Store) (t : Table) (table : String)
    (updates : List (Nat × Row)) (owner : Nat) : Res Unit := do
  let vids := updates.map (·.1)
  let pk := t.schema.primaryKeyIndices
  if !pk.isEmpty then
    let others := t.rows.filter fun v => !vids.contains v.vid
    let committed := (others.filter fun v => v.visibleToWriter store.committedLsn owner).map fun v =>
      compositeKey E.prims v.values pk
    checkPkUpdates E.prims t.schema table pk (pendingKeys E.prims others store.committedLsn pk owner)
      (updates.map (·.2)) committed
  checkSecondaryUniques E store table t.schema (updates.map (·.2)) vids owner

/-- Supersedes each old version and appends the new one. -/
def applyUpdateRows (table : String) (owner : Nat) : List (Nat × Row) → Applied → Write → Applied × Write
  | [], acc, w => (acc, w)
  | (oldVid, nv) :: updates, acc, w =>
    let w := w.supersede table oldVid owner
    applyUpdateRows table owner updates (acc.add (nextVidOf w.store table) nv) (w.append table nv owner)

def runUpdate (E : Env) (st : UpdateStmt) (wc : WriteCtx) (store : Store) : Outcome Mutation :=
  let w : Write := ⟨store, []⟩
  match store.table st.table with
  | none => (.error (noSuchTable st.table), w)
  | some t =>
    let updates := do
      let updates ← computeUpdates E store t st wc
      checkUpdateUniques E store t st.table updates wc.owner
      return updates
    match updates with
    | .error e => (.error e, w)
    | .ok updates =>
      let maintain := store.tableHasIndex st.table
      let (acc, w) := applyUpdateRows st.table wc.owner updates ⟨[], []⟩ w
      let w := if maintain then w.indexRows st.table acc.newRows else w
      finishWrite E t.schema st.returning acc.affected updates.length wc.params w

/-! ## One write statement -/

inductive DmlStmt where
  | insert (st : InsertStmt)
  | update (st : UpdateStmt)
  | delete (st : DeleteStmt)

def DmlStmt.table : DmlStmt → String
  | .insert st => st.table
  | .update st => st.table
  | .delete st => st.table

def runDml (E : Env) (st : DmlStmt) (wc : WriteCtx) (store : Store) : Outcome Mutation :=
  match st with
  | .insert st => runInsert E st wc store
  | .update st => runUpdate E st wc store
  | .delete st => runDelete E st wc store

end Twill
