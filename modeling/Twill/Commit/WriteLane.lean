/-
The write lane (`db.rs`: `WriteLane`) and the connections that take it (`conn.rs`;
`group_commit.rs`: the head of `commit`).

`Twill.Conn` merges taking and giving back the lane with the statements around
it. Here the lane is the bare boolean of the source, which no one owns, and a step
is one critical section of one connection: everything that happens between two
touches of the lane has its own place. What the engine and the storage answer is
in the action. The acquisition counters are left out.

The trace at the end of the state records who acquired and released the lane; no
step reads it. A DDL statement gets a number for it.
-/
import Twill.Wal
import Twill.Lib.Transition

namespace Twill.WriteLane

structure Savepoint where
  name : String
  walLen : Nat

/-- A transaction, without its snapshot and what it pends in the store. -/
structure Txn where
  writer : Bool
  walOps : List WalOp
  owner : Nat
  savepoints : List Savepoint

/-- Where a connection is. A transaction that left the connection (`take`) is here. -/
inductive Pc where
  /-- Between statements. -/
  | idle
  /-- In `ensure_writer`. -/
  | ensuring (implicit : Bool)
  /-- The statement of `exec_dml` runs. -/
  | running (implicit : Bool)
  /-- At the head of `finish_commit`. -/
  | finishing (txn : Txn)
  /-- Enqueued in `commit` of the coordinator; the lane is released next. -/
  | enqueued (txn : Txn)
  /-- The lane is handed off; the commit resolves. -/
  | committing (owner : Nat)
  /-- Its pending versions are discarded next, then the lane released. -/
  | undoing (txn : Txn) (dropping : Bool)
  | releasing (txn : Txn) (dropping : Bool)
  /-- In `exec_ddl`, before the lane. -/
  | ddl (n : Nat)
  | quiescing (n : Nat)
  | defining (n : Nat)
  | defined (n : Nat)
  | dropped

structure Conn where
  txn : Option Txn
  pc : Pc

/-- What takes the lane: a transaction, or a DDL statement. -/
inductive Holder where
  | txn (owner : Nat)
  | ddl (n : Nat)
  deriving DecidableEq, Repr

inductive Event where
  | acquired (who : Holder)
  | released (who : Holder)
  deriving DecidableEq, Repr

structure Sys where
  locked : Bool
  conns : Nat → Conn
  nextOwner : Nat
  nextDdl : Nat
  trace : List Event

namespace Sys

def init : Sys := ⟨false, fun _ => ⟨none, .idle⟩, 1, 0, []⟩

def setConn (σ : Sys) (c : Nat) (k : Conn) : Sys := { σ with conns := Function.update σ.conns c k }

/-- `WriteLane::acquire`, once the lane is free. -/
def acquire (σ : Sys) (who : Holder) : Option Sys :=
  if σ.locked then none else some { σ with locked := true, trace := σ.trace ++ [.acquired who] }

/-- `WriteLane::release`, whoever holds the lane and whether or not anyone does. -/
def release (σ : Sys) (who : Holder) : Sys := { σ with locked := false, trace := σ.trace ++ [.released who] }

/-- A transaction with a fresh owner. -/
def openTxn (σ : Sys) (c : Nat) (pc : Pc) : Sys :=
  { σ.setConn c ⟨some ⟨false, [], σ.nextOwner, []⟩, pc⟩ with nextOwner := σ.nextOwner + 1 }

/-- `rollback`, the undo of a failed autocommit statement and `drop`, from where
the transaction is taken. -/
def undo (σ : Sys) (c : Nat) (t : Txn) (dropping : Bool) : Sys :=
  if t.writer then σ.setConn c ⟨none, .undoing t dropping⟩
  else σ.setConn c ⟨none, if dropping then .dropped else .idle⟩

end Sys

/-- The innermost savepoint of a name. -/
def Txn.savepointAt (t : Txn) (name : String) : Option Nat :=
  (t.savepoints.reverse.findIdx? fun s => eqIgnoreAsciiCase s.name name).map fun i => t.savepoints.length - 1 - i

inductive Act where
  | begin (c : Nat)
  /-- INSERT, UPDATE or DELETE starts. -/
  | dml (c : Nat)
  /-- The connection goes past `lane.acquire()`, or past the test before it. -/
  | acquire (c : Nat)
  /-- The statement answers: its records, or an error. -/
  | ran (c : Nat) (answer : Option (List WalOp))
  | commit (c : Nat)
  | finish (c : Nat)
  | rollback (c : Nat)
  /-- `rollback_owner` ran. -/
  | undone (c : Nat)
  | release (c : Nat)
  /-- The coordinator answers, with an LSN or an error. -/
  | resolved (c : Nat) (ok : Bool)
  | savepoint (c : Nat) (name : String)
  | releaseSavepoint (c : Nat) (name : String)
  | rollbackTo (c : Nat) (name : String)
  | ddl (c : Nat)
  | quiesced (c : Nat)
  /-- `do_ddl` answers. -/
  | defined (c : Nat) (ok : Bool)
  | drop (c : Nat)
  /-- A transaction of another database draws an owner id. -/
  | otherOwner

/-- One step; `none` when the action is not enabled. A statement the engine refuses
for the transaction it is in, or is not in, leaves everything as it is. -/
def step (σ : Sys) : Act → Option Sys
  | .begin c => match σ.conns c with
    | ⟨none, .idle⟩ => some (σ.openTxn c .idle)
    | ⟨some _, .idle⟩ => some σ
    | _ => none
  | .dml c => match σ.conns c with
    | ⟨none, .idle⟩ => some (σ.openTxn c (.ensuring true))
    | ⟨some t, .idle⟩ => some (σ.setConn c ⟨some t, .ensuring false⟩)
    | _ => none
  | .acquire c => match σ.conns c with
    | ⟨some t, .ensuring implicit⟩ =>
      if t.writer then some (σ.setConn c ⟨some t, .running implicit⟩)
      else (σ.acquire (.txn t.owner)).map fun τ => τ.setConn c ⟨some { t with writer := true }, .running implicit⟩
    | ⟨none, .ddl n⟩ => (σ.acquire (.ddl n)).map fun τ => τ.setConn c ⟨none, .quiescing n⟩
    | _ => none
  | .ran c answer => match σ.conns c, answer with
    | ⟨some t, .running true⟩, some wal => some (σ.setConn c ⟨none, .finishing { t with walOps := t.walOps ++ wal }⟩)
    | ⟨some t, .running false⟩, some wal => some (σ.setConn c ⟨some { t with walOps := t.walOps ++ wal }, .idle⟩)
    | ⟨some t, .running true⟩, none => some (σ.undo c t false)
    | ⟨some t, .running false⟩, none => some (σ.setConn c ⟨some t, .idle⟩)
    | _, _ => none
  | .commit c => match σ.conns c with
    | ⟨some t, .idle⟩ => some (σ.setConn c ⟨none, .finishing t⟩)
    | ⟨none, .idle⟩ => some σ
    | _ => none
  | .finish c => match σ.conns c with
    | ⟨none, .finishing t⟩ =>
      if t.writer then
        if t.walOps.isEmpty then some (σ.setConn c ⟨none, .releasing t false⟩)
        else some (σ.setConn c ⟨none, .enqueued t⟩)
      else some (σ.setConn c ⟨none, .idle⟩)
    | _ => none
  | .rollback c => match σ.conns c with
    | ⟨some t, .idle⟩ => some (σ.undo c t false)
    | ⟨none, .idle⟩ => some σ
    | _ => none
  | .undone c => match σ.conns c with
    | ⟨none, .undoing t dropping⟩ => some (σ.setConn c ⟨none, .releasing t dropping⟩)
    | _ => none
  | .release c => match σ.conns c with
    | ⟨none, .releasing t dropping⟩ =>
      some ((σ.release (.txn t.owner)).setConn c ⟨none, if dropping then .dropped else .idle⟩)
    | ⟨none, .enqueued t⟩ => some ((σ.release (.txn t.owner)).setConn c ⟨none, .committing t.owner⟩)
    | ⟨none, .defined n⟩ => some ((σ.release (.ddl n)).setConn c ⟨none, .idle⟩)
    | _ => none
  | .resolved c _ => match σ.conns c with
    | ⟨none, .committing _⟩ => some (σ.setConn c ⟨none, .idle⟩)
    | _ => none
  | .savepoint c name => match σ.conns c with
    | ⟨some t, .idle⟩ =>
      some (σ.setConn c ⟨some { t with savepoints := t.savepoints ++ [⟨name, t.walOps.length⟩] }, .idle⟩)
    | ⟨none, .idle⟩ => some σ
    | _ => none
  | .releaseSavepoint c name => match σ.conns c with
    | ⟨some t, .idle⟩ => match t.savepointAt name with
      | some i => some (σ.setConn c ⟨some { t with savepoints := t.savepoints.take i }, .idle⟩)
      | none => some σ
    | ⟨none, .idle⟩ => some σ
    | _ => none
  | .rollbackTo c name => match σ.conns c with
    | ⟨some t, .idle⟩ => match t.savepointAt name with
      | some i => some (σ.setConn c ⟨some { t with
          walOps := t.walOps.take ((t.savepoints[i]?).elim 0 Savepoint.walLen)
          savepoints := t.savepoints.take (i + 1) }, .idle⟩)
      | none => some σ
    | ⟨none, .idle⟩ => some σ
    | _ => none
  | .ddl c => match σ.conns c with
    | ⟨none, .idle⟩ => some { σ.setConn c ⟨none, .ddl σ.nextDdl⟩ with nextDdl := σ.nextDdl + 1 }
    | ⟨some _, .idle⟩ => some σ
    | _ => none
  | .quiesced c => match σ.conns c with
    | ⟨none, .quiescing n⟩ => some (σ.setConn c ⟨none, .defining n⟩)
    | _ => none
  | .defined c _ => match σ.conns c with
    | ⟨none, .defining n⟩ => some (σ.setConn c ⟨none, .defined n⟩)
    | _ => none
  | .drop c => match σ.conns c with
    | ⟨some t, .idle⟩ => some (σ.undo c t true)
    | ⟨none, .idle⟩ => some (σ.setConn c ⟨none, .dropped⟩)
    | _ => none
  | .otherOwner => some { σ with nextOwner := σ.nextOwner + 1 }

end Twill.WriteLane
