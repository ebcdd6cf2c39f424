/-
The MVCC table store (`store.rs`): tables keyed by lowercased name, vector
indexes, views, and the reader high-water mark.

The row operations (pending, publishing, rolling back) are those of
`Twill.Lib.Mvcc` at payload `Row`; what this module adds is the catalog, the
bulk operations over every table, and index maintenance. Version ids, owners
and LSNs are naturals; LSNs stay below `PENDING`.
-/
import Twill.Sql
import Twill.Vector
import Twill.Lib.Mvcc

namespace Twill

open Mvcc (PENDING)

abbrev RowVersion := Mvcc.Version Row

structure Table where
  schema : TableSchema
  rows : Mvcc.Rows Row
  nextVid : Nat
  /-- The next autoincrement value. -/
  nextAutoinc : Int64
  deriving DecidableEq, Repr

namespace Table

def new (schema : TableSchema) : Table := ⟨schema, [], 1, 1⟩

def version (t : Table) (vid : Nat) : Option RowVersion := t.rows.find vid

end Table

structure Store where
  tables : AList fun _ : String => Table
  indexes : AList fun _ : String => VectorIndex
  views : AList fun _ : String => SelectStmt
  committedLsn : Nat

namespace Store

def empty : Store := ⟨∅, ∅, ∅, 0⟩

def key (name : String) : String := toAsciiLowercase name

def table (s : Store) (name : String) : Option Table := s.tables.lookup (key name)

def hasTable (s : Store) (name : String) : Bool := (s.table name).isSome

/-- Runs an in-place update on a table, if there (`table_mut`). -/
def modifyTable (s : Store) (name : String) (f : Table → Table) : Store :=
  { s with tables := s.tables.mapVals fun k t => if k = key name then f t else t }

def insertTable (s : Store) (schema : TableSchema) : Store :=
  { s with tables := s.tables.insert (key schema.name) (Table.new schema) }

def dropTable (s : Store) (name : String) : Store :=
  { s with
    tables := s.tables.erase (key name)
    indexes := s.indexes.filterVals fun _ ix => !eqIgnoreAsciiCase ix.definition.table name }

/-! ## Views -/

def view (s : Store) (name : String) : Option SelectStmt := s.views.lookup (key name)

def hasView (s : Store) (name : String) : Bool := (s.view name).isSome

def insertView (s : Store) (name : String) (query : SelectStmt) : Store :=
  { s with views := s.views.insert (key name) query }

def dropView (s : Store) (name : String) : Store := { s with views := s.views.erase (key name) }

/-! ## Vector indexes -/

def hasIndex (s : Store) (name : String) : Bool := (s.indexes.lookup (key name)).isSome

def tableHasIndex (s : Store) (table : String) : Bool :=
  s.indexes.values.any fun ix => eqIgnoreAsciiCase ix.definition.table table

def registerIndex (s : Store) (d : IndexDef) : Store :=
  { s with indexes := s.indexes.insert (key d.name) (VectorIndex.new d) }

def dropIndex (s : Store) (name : String) : Store := { s with indexes := s.indexes.erase (key name) }

def indexFor (s : Store) (table column : String) : Option VectorIndex :=
  s.indexes.values.find? fun ix =>
    eqIgnoreAsciiCase ix.definition.table table && eqIgnoreAsciiCase ix.definition.column column

/-- The vector a row carries in column `col`. -/
def vectorAt (values : Row) (col : Nat) : Option (List UInt32) := values[col]? >>= Value.asVector

/-- Fills an index from every row version of its table that has a vector;
versions with a committed delete enter head-deleted. -/
def populateIndex (s : Store) (name : String) : Store :=
  match s.indexes.lookup (key name) with
  | none => s
  | some ix => match s.tables.lookup (key ix.definition.table) with
    | none => s
    | some t => match t.schema.columnIndex ix.definition.column with
      | none => s
      | some col =>
        let ix := t.rows.foldl (fun ix r => match vectorAt r.values col with
          | some v =>
            let ix := ix.insert r.vid v
            if r.isDeadAtHead then ix.markDead r.vid else ix
          | none => ix) ix
        { s with indexes := s.indexes.insert (key name) ix }

/-- Rebuilds an index from the rows not deleted at the head, raising its
compaction floor. -/
def compactIndex (s : Store) (name : String) (floorLsn : Nat) : Store :=
  match s.indexes.lookup (key name) with
  | none => s
  | some ix => match s.tables.lookup (key ix.definition.table) with
    | none => s
    | some t => match t.schema.columnIndex ix.definition.column with
      | none => s
      | some col =>
        let fresh := t.rows.foldl (fun fresh r =>
          if r.isDeadAtHead then fresh
          else match vectorAt r.values col with
            | some v => fresh.insert r.vid v
            | none => fresh) (VectorIndex.new ix.definition)
        let fresh := { fresh with rebuildFloor := max floorLsn ix.rebuildFloor }
        { s with indexes := s.indexes.insert (key name) fresh }

def createIndex (s : Store) (d : IndexDef) : Store := (s.registerIndex d).populateIndex d.name

/-- Keys of the indexes declared on a table. -/
def indexKeysOf (s : Store) (table : String) : List String :=
  (s.indexes.entries.filter fun e => eqIgnoreAsciiCase e.2.definition.table table).map (·.1)

/-- Reflects committed deletes of one table into its indexes. -/
def applyIndexDeletes (s : Store) (table : String) (vids : List Nat) (commitLsn : Nat) : Store :=
  (s.indexKeysOf table).foldl (fun s name =>
    let s := { s with indexes := s.indexes.mapVals fun k ix =>
      if k = name then vids.foldl VectorIndex.markDead ix else ix }
    match s.indexes.lookup name with
    | some ix => if ix.needsMaintenance then s.compactIndex name commitLsn else s
    | none => s) s

/-- Maintains every index on `table` after a version was inserted. -/
def indexRowInserted (s : Store) (table : String) (vid : Nat) (values : Row) : Store :=
  match s.table table with
  | none => s
  | some t =>
    { s with indexes := s.indexes.mapVals fun _ ix =>
      if eqIgnoreAsciiCase ix.definition.table table then
        match t.schema.columnIndex ix.definition.column >>= vectorAt values with
        | some v => ix.insert vid v
        | none => ix
      else ix }

/-! ## Row-level security catalog -/

def setRls (s : Store) (table : String) (enabled : Bool) : Store :=
  s.modifyTable table fun t => { t with schema := { t.schema with rlsEnabled := enabled } }

/-- Adds a policy, replacing one of the same name. -/
def addPolicy (s : Store) (table : String) (policy : Policy) : Store :=
  s.modifyTable table fun t => { t with schema := { t.schema with
    policies := (t.schema.policies.filter fun p => !eqIgnoreAsciiCase p.name policy.name) ++ [policy] } }

def dropPolicy (s : Store) (table name : String) : Store :=
  s.modifyTable table fun t => { t with schema := { t.schema with
    policies := t.schema.policies.filter fun p => !eqIgnoreAsciiCase p.name name } }

/-! ## Recovery -/

def replayInsert (s : Store) (table : String) (vid : Nat) (values : Row) (commitLsn : Nat) : Store :=
  s.modifyTable table fun t =>
    { t with rows := t.rows.commit commitLsn (.insert vid values), nextVid := max t.nextVid (vid + 1) }

def replayDelete (s : Store) (table : String) (vid : Nat) (commitLsn : Nat) : Store :=
  s.modifyTable table fun t => { t with rows := t.rows.commit commitLsn (.delete vid) }

/-- Rebuilds a table's autoincrement counter from its rows. -/
def rebuildAutoincTable (t : Table) : Table :=
  match t.schema.columns.findIdx? (·.autoincrement) with
  | none => t
  | some col =>
    let top := t.rows.foldl (fun (m : Int64) r => match r.values.cell col with
      | .int i => max m i
      | _ => m) 0
    { t with nextAutoinc := top + 1 }

def rebuildAutoinc (s : Store) : Store :=
  { s with tables := s.tables.mapVals fun _ t => rebuildAutoincTable t }

/-! ## Schema evolution -/

def addColumn (s : Store) (table : String) (column : Column) (fill : Value) : Store :=
  s.modifyTable table fun t =>
    { t with
      schema := { t.schema with columns := t.schema.columns ++ [column] }
      rows := t.rows.map fun r => { r with values := r.values ++ [fill] } }

def dropColumn (s : Store) (table name : String) : Store :=
  s.modifyTable table fun t =>
    match t.schema.columnIndex name with
    | none => t
    | some idx =>
      { t with
        schema := { t.schema with columns := t.schema.columns.eraseIdx idx }
        rows := t.rows.map fun r => { r with values := r.values.eraseIdx idx } }

def renameColumn (s : Store) (table source target : String) : Store :=
  s.modifyTable table fun t =>
    match t.schema.columnIndex source with
    | none => t
    | some idx =>
      { t with schema := { t.schema with
          columns := t.schema.columns.modify idx fun c => { c with name := target } } }

/-- Re-keys a table; a table already under the new name is replaced, and
indexes keep naming the old one. -/
def renameTable (s : Store) (source target : String) : Store :=
  match s.table source with
  | none => s
  | some t =>
    let t := { t with schema := { t.schema with name := target } }
    { s with tables := (s.tables.erase (key source)).insert (key target) t }

/-! ## Commit and rollback -/

/-- Publishes one writer's pending versions at `commitLsn`, then reflects the
deletes it published into the indexes. -/
def finalizeOwner (s : Store) (owner commitLsn : Nat) : Store :=
  let deletedByTable := (s.tables.entries.map fun e => (e.1, e.2.rows.deletedVids owner)).filter
    fun d => !d.2.isEmpty
  let s := { s with tables := s.tables.mapVals fun _ t =>
    { t with rows := t.rows.finalize owner commitLsn } }
  deletedByTable.foldl (fun s d => s.applyIndexDeletes d.1 d.2 commitLsn) s

/-- One writer's pending state for a SAVEPOINT: the ids it has pending-inserted
and pending-deleted, over all tables together. -/
def pendingSnapshot (s : Store) (owner : Nat) : List Nat × List Nat :=
  (s.tables.values.flatMap fun t => t.rows.insertedVids owner,
   s.tables.values.flatMap fun t => t.rows.deletedVids owner)

def removeFromIndexes (s : Store) (vids : List Nat) : Store :=
  { s with indexes := s.indexes.mapVals fun _ ix => vids.foldl VectorIndex.remove ix }

/-- `ROLLBACK TO`: back to a saved pending set. -/
def rollbackToSavepoint (s : Store) (owner : Nat) (inserted deleted : List Nat) : Store :=
  let discarded := s.tables.values.flatMap fun t =>
    (t.rows.insertedVids owner).filter fun vid => !inserted.contains vid
  removeFromIndexes
    { s with tables := s.tables.mapVals fun _ t =>
      { t with rows := t.rows.rollbackTo owner inserted deleted } } discarded

/-- Discards one writer's pending versions. -/
def rollbackOwner (s : Store) (owner : Nat) : Store :=
  let discarded := s.tables.values.flatMap fun t => t.rows.insertedVids owner
  removeFromIndexes
    { s with tables := s.tables.mapVals fun _ t => { t with rows := t.rows.rollback owner } } discarded

end Store

end Twill
