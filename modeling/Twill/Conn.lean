/-
The shared database as a transition system (`conn.rs`: the transaction state
machine; `db.rs`: the write lane; `group_commit.rs`: the commit coordinator).

A step is one critical section of one thread: a connection's statement under
the store lock, an enqueue, or one stage of the leader's flush (draining a
batch, its durable append, publishing or discarding it). Taking the write lane
is merged with the statement that needs it, and releasing it with the step
before: only a holder's own steps depend on the lane.
-/
import Twill.Dml
import Twill.Ddl

namespace Twill

open Mvcc (PENDING)

structure Savepoint where
  name : String
  inserted : List Nat
  deleted : List Nat
  walLen : Nat

structure Txn where
  snapshot : Nat
  /-- This connection holds the write lane. -/
  writer : Bool
  walOps : List WalOp
  owner : Nat
  savepoints : List Savepoint

/-- Where a connection is: between statements (or inside an explicit
transaction), inside an autocommit statement before or after it ran, or parked
on the coordinator until its commit resolves. -/
inductive Phase where
  | idle
  | starting
  | committing
  | undoing
  | waiting (owner : Nat)
  deriving DecidableEq, Repr

structure Connection where
  txn : Option Txn
  phase : Phase

/-- A transaction waiting to be made durable. -/
structure Member where
  owner : Nat
  ops : List WalOp

/-- The records of a member: its operations, then its `Commit` marker. -/
def Member.records (m : Member) : List WalOp := m.ops ++ [.commit]

/-- The leader's current batch. -/
inductive Flush where
  | none
  | drained (batch : List Member)
  | appended (batch : List Member) (first : Nat)
  | failed (batch : List Member)

def Flush.members : Flush → List Member
  | .none => []
  | .drained ms => ms
  | .appended ms _ => ms
  | .failed ms => ms

structure Sys where
  store : Store
  log : List WalEntry
  /-- The lowest LSN the storage may still assign. -/
  nextLsn : Nat
  lane : Option Nat
  queue : List Member
  flush : Flush
  nextOwner : Nat
  conns : Nat → Connection

def Sys.init : Sys :=
  ⟨Store.empty, [], 1, none, [], .none, 1, fun _ => ⟨none, .idle⟩⟩

namespace Sys

def setConn (σ : Sys) (c : Nat) (conn : Connection) : Sys :=
  { σ with conns := Function.update σ.conns c conn }

/-! ## Transactions -/

/-- `BEGIN`, or the transaction an autocommit statement opens. -/
def openTxn (σ : Sys) (c : Nat) (phase : Phase) : Sys :=
  { σ.setConn c ⟨some ⟨σ.store.committedLsn, false, [], σ.nextOwner, []⟩, phase⟩ with
    nextOwner := σ.nextOwner + 1 }

/-- Whether a transaction holds the lane or may take it now. -/
def laneFor (σ : Sys) (t : Txn) : Bool := t.writer || σ.lane.isNone

/-- The statement of `exec_dml`, lane taken. A failed statement keeps whatever
it did to the store; its operations reach the transaction only on success. -/
def execDml (σ : Sys) (c : Nat) (t : Txn) (implicit : Bool) (E : Env) (st : DmlStmt)
    (params : List Value) : Option Sys :=
  let (res, w) := runDml E st ⟨t.snapshot, t.owner, params⟩ σ.store
  let σ := { σ with store := w.store, lane := some c }
  match res with
  | .ok m => some (σ.setConn c ⟨some { t with writer := true, walOps := t.walOps ++ m.wal },
      if implicit then .committing else .idle⟩)
  | .error (.err _) => some (σ.setConn c ⟨some { t with writer := true },
      if implicit then .undoing else .idle⟩)
  | .error _ => none

/-- `finish_commit`: with buffered operations the transaction is enqueued and
its connection parks; without, only the lane is released. -/
def finishCommit (σ : Sys) (c : Nat) (t : Txn) : Sys :=
  if !t.writer then σ.setConn c ⟨none, .idle⟩
  else if t.walOps.isEmpty then { σ.setConn c ⟨none, .idle⟩ with lane := none }
  else { σ.setConn c ⟨none, .waiting t.owner⟩ with lane := none, queue := σ.queue ++ [⟨t.owner, t.walOps⟩] }

/-- `rollback`, the undo of a failed autocommit statement, and dropping a
connection inside a transaction. -/
def rollbackTxn (σ : Sys) (c : Nat) (t : Txn) : Sys :=
  if t.writer then { σ.setConn c ⟨none, .idle⟩ with store := σ.store.rollbackOwner t.owner, lane := none }
  else σ.setConn c ⟨none, .idle⟩

/-! ## Savepoints -/

/-- The innermost savepoint of a name. -/
def savepointAt (t : Txn) (name : String) : Option Nat :=
  (t.savepoints.reverse.findIdx? fun s => eqIgnoreAsciiCase s.name name).map fun i =>
    t.savepoints.length - 1 - i

def savepoint (σ : Sys) (c : Nat) (t : Txn) (name : String) : Sys :=
  let (inserted, deleted) := σ.store.pendingSnapshot t.owner
  σ.setConn c ⟨some { t with
    savepoints := t.savepoints ++ [⟨name, inserted, deleted, t.walOps.length⟩] }, .idle⟩

def releaseSavepoint (σ : Sys) (c : Nat) (t : Txn) (name : String) : Option Sys :=
  (savepointAt t name).map fun i =>
    σ.setConn c ⟨some { t with savepoints := t.savepoints.take i }, .idle⟩

def rollbackTo (σ : Sys) (c : Nat) (t : Txn) (name : String) : Option Sys :=
  match savepointAt t name with
  | none => none
  | some i => match t.savepoints[i]? with
    | none => none
    | some sp =>
      let store := if t.writer then σ.store.rollbackToSavepoint t.owner sp.inserted sp.deleted else σ.store
      some ({ σ with store := store }.setConn c ⟨some { t with
        walOps := t.walOps.take sp.walLen
        savepoints := t.savepoints.take (i + 1) }, .idle⟩)

/-! ## Group commit -/

def maxBatchRecords : Nat := 1024

/-- `drain_batch` after its first member: a prefix within the record cap. -/
def takeBatch : Nat → List Member → List Member × List Member
  | _, [] => ([], [])
  | nrec, m :: ms =>
    if nrec + m.records.length > maxBatchRecords then ([], m :: ms)
    else
      let (batch, rest) := takeBatch (nrec + m.records.length) ms
      (m :: batch, rest)

/-- A batch has at least one member, whatever its size. -/
def drainBatch : List Member → List Member × List Member
  | [] => ([], [])
  | m :: ms =>
    let (batch, rest) := takeBatch m.records.length ms
    (m :: batch, rest)

/-- Gives consecutive LSNs to records. -/
def numberFrom (first : Nat) (ops : List WalOp) : List WalEntry :=
  ops.zipIdx.map fun p => (first + p.2, p.1)

/-- Publishes each member at the LSN of its `Commit` marker. -/
def publishMembers : Store → Nat → List Member → Store
  | s, _, [] => s
  | s, first, m :: ms =>
    publishMembers (s.finalizeOwner m.owner (first + m.records.length - 1)) (first + m.records.length) ms

def batchRecords (ms : List Member) : List WalOp := ms.flatMap Member.records

/-- The LSN of the last record of a batch. -/
def lastLsn (first : Nat) (ms : List Member) : Nat := first + (batchRecords ms).length - 1

def publish (σ : Sys) (ms : List Member) (first : Nat) : Sys :=
  let s := publishMembers σ.store first ms
  { σ with
    store := { s with committedLsn := max s.committedLsn (lastLsn first ms) }
    flush := .none }

def discard (σ : Sys) (ms : List Member) : Sys :=
  { σ with store := ms.foldl (fun s m => s.rollbackOwner m.owner) σ.store, flush := .none }

/-- An append of `ops` at `first`: LSNs are assigned upward and stay below
`PENDING`. -/
def appendLog (σ : Sys) (first : Nat) (ops : List WalOp) : Option Sys :=
  if σ.nextLsn ≤ first ∧ first + ops.length ≤ PENDING then
    some { σ with log := σ.log ++ numberFrom first ops, nextLsn := first + ops.length }
  else none

/-! ## DDL -/

def inFlight (σ : Sys) : List Member := σ.flush.members ++ σ.queue

def quiesced (σ : Sys) : Bool :=
  match σ.flush with
  | .none => σ.queue.isEmpty
  | _ => false

/-- DDL runs with the lane, on a quiesced coordinator. `outcome` is the first
LSN of its direct append, or `none` when the append fails. -/
def execDdl (σ : Sys) (E : Env) (st : DdlStmt) (outcome : Option Nat) : Option Sys :=
  match planDdl E σ.store st with
  | .error (.err _) => some σ
  | .error _ => none
  | .ok none => some σ
  | .ok (some op) => match outcome with
    | none => some σ
    | some first => (σ.appendLog first [op, .commit]).map fun τ =>
      let s := applyDdl E st σ.store op
      { τ with store := { s with committedLsn := max s.committedLsn (first + 1) } }

end Sys

/-! ## Steps -/

inductive Act where
  | begin (c : Nat)
  | startImplicit (c : Nat)
  | dml (c : Nat) (E : Env) (st : DmlStmt) (params : List Value)
  | commit (c : Nat)
  | rollback (c : Nat)
  | savepoint (c : Nat) (name : String)
  | release (c : Nat) (name : String)
  | rollbackTo (c : Nat) (name : String)
  /-- A parked connection whose commit has resolved returns. -/
  | resume (c : Nat)
  | drain
  | append (first : Nat)
  | appendFail
  | publish
  | discard
  | ddl (c : Nat) (E : Env) (st : DdlStmt) (outcome : Option Nat)
  /-- A transaction of another database draws an owner id. -/
  | otherOwner

/-- One step; `none` when the action is not enabled. -/
def step (σ : Sys) : Act → Option Sys
  | .begin c => match σ.conns c with
    | ⟨none, .idle⟩ => some (σ.openTxn c .idle)
    | _ => none
  | .startImplicit c => match σ.conns c with
    | ⟨none, .idle⟩ => some (σ.openTxn c .starting)
    | _ => none
  | .dml c E st params => match σ.conns c with
    | ⟨some t, .idle⟩ => if σ.laneFor t then σ.execDml c t false E st params else none
    | ⟨some t, .starting⟩ => if σ.laneFor t then σ.execDml c t true E st params else none
    | _ => none
  | .commit c => match σ.conns c with
    | ⟨some t, .idle⟩ => some (σ.finishCommit c t)
    | ⟨some t, .committing⟩ => some (σ.finishCommit c t)
    | _ => none
  | .rollback c => match σ.conns c with
    | ⟨some t, .idle⟩ => some (σ.rollbackTxn c t)
    | ⟨some t, .undoing⟩ => some (σ.rollbackTxn c t)
    | _ => none
  | .savepoint c name => match σ.conns c with
    | ⟨some t, .idle⟩ => some (σ.savepoint c t name)
    | _ => none
  | .release c name => match σ.conns c with
    | ⟨some t, .idle⟩ => σ.releaseSavepoint c t name
    | _ => none
  | .rollbackTo c name => match σ.conns c with
    | ⟨some t, .idle⟩ => σ.rollbackTo c t name
    | _ => none
  | .resume c => match σ.conns c with
    | ⟨none, .waiting owner⟩ =>
      if σ.inFlight.any fun m => m.owner == owner then none else some (σ.setConn c ⟨none, .idle⟩)
    | _ => none
  | .drain => match σ.flush, σ.queue with
    | .none, m :: ms =>
      let (batch, rest) := Sys.drainBatch (m :: ms)
      some { σ with queue := rest, flush := .drained batch }
    | _, _ => none
  | .append first => match σ.flush with
    | .drained ms => (σ.appendLog first (Sys.batchRecords ms)).map fun τ =>
      { τ with flush := .appended ms first }
    | _ => none
  | .appendFail => match σ.flush with
    | .drained ms => some { σ with flush := .failed ms }
    | _ => none
  | .publish => match σ.flush with
    | .appended ms first => some (σ.publish ms first)
    | _ => none
  | .discard => match σ.flush with
    | .failed ms => some (σ.discard ms)
    | _ => none
  | .ddl c E st outcome => match σ.conns c with
    | ⟨none, .idle⟩ =>
      if σ.lane.isNone && σ.quiesced then σ.execDdl E st outcome else none
    | _ => none
  | .otherOwner => some { σ with nextOwner := σ.nextOwner + 1 }

/-- A run from `σ`: every action enabled in turn. -/
inductive Run : Sys → List Act → Sys → Prop where
  | nil (σ : Sys) : Run σ [] σ
  | snoc {σ τ υ : Sys} {acts : List Act} {a : Act} : Run σ acts τ → step τ a = some υ →
      Run σ (acts ++ [a]) υ

end Twill
