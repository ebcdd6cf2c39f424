/-
WAL operations (`wal.rs`) and recovery (`db.rs`: `replay`, `apply_replay`,
`apply_alter`). The log is a list of operations with their LSNs; the byte
encoding of an operation is not modelled here.
-/
import Twill.Store
import Twill.Eval

namespace Twill

inductive WalOp where
  | createTable (schema : TableSchema)
  | dropTable (name : String)
  | insert (table : String) (vid : Nat) (values : Row)
  | delete (table : String) (vid : Nat)
  | createIndex (d : IndexDef)
  | dropIndex (name : String)
  | alterAddColumn (table : String) (column : Column)
  | alterDropColumn (table : String) (column : String)
  | alterRenameColumn (table source target : String)
  | alterRenameTable (table target : String)
  | createView (name sql : String)
  | dropView (name : String)
  | createPolicy (table : String) (policy : Policy)
  | dropPolicy (table name : String)
  | setRls (table : String) (enabled : Bool)
  | commit
  deriving DecidableEq, Repr

/-- What a new column's existing rows get: its DEFAULT as a constant, or NULL. -/
def columnFill (E : Env) (c : Column) : Value :=
  match c.defaultSql with
  | none => .null
  | some s => match evalConstSql E s with
    | .ok v => v
    | .error _ => .null

/-- The schema-evolution operations, shared by live DDL and recovery. -/
def applyAlter (E : Env) (s : Store) : WalOp → Store
  | .alterAddColumn table column => s.addColumn table column (columnFill E column)
  | .alterDropColumn table column => s.dropColumn table column
  | .alterRenameColumn table source target => s.renameColumn table source target
  | .alterRenameTable table target => s.renameTable table target
  | .setRls table enabled => s.setRls table enabled
  | _ => s

/-- Applies one recovered operation at its transaction's commit LSN. -/
def applyReplay (E : Env) (commitLsn : Nat) (s : Store) : WalOp → Store
  | .createTable schema => s.insertTable schema
  | .dropTable name => s.dropTable name
  | .insert table vid values => s.replayInsert table vid values commitLsn
  | .delete table vid => s.replayDelete table vid commitLsn
  | .createIndex d => s.registerIndex d
  | .dropIndex name => s.dropIndex name
  | .createView name sql => match E.frontend.parseView sql with
    | some query => s.insertView name query
    | none => s
  | .dropView name => s.dropView name
  | .createPolicy table policy => s.addPolicy table policy
  | .dropPolicy table name => s.dropPolicy table name
  | .commit => s
  | op => applyAlter E s op

/-- A durable record: its LSN and its operation. -/
abbrev WalEntry := Nat × WalOp

/-- Groups operations up to a `Commit` marker and applies the group at the
marker's LSN. -/
def replayEntry (E : Env) (st : Store × List WalOp) (entry : WalEntry) : Store × List WalOp :=
  match entry.2 with
  | .commit =>
    let s := st.2.foldl (applyReplay E entry.1) st.1
    ({ s with committedLsn := max s.committedLsn entry.1 }, [])
  | op => (st.1, st.2 ++ [op])

/-- A trailing group without its marker is discarded. -/
def replay (E : Env) (s : Store) (entries : List WalEntry) : Store :=
  (entries.foldl (replayEntry E) (s, [])).1.rebuildAutoinc

end Twill
