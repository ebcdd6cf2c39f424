/-
The commit coordinator (`group_commit.rs`), thread by thread.

`Twill.Conn` takes the coordinator a stage at a time; here every thread has its
place in `commit`, `lead`, `flush_batch` or `quiesce`, and a step is one critical
section (or the durable append) of one thread. A thread parked on the condition
variable goes on when it is notified or for no reason at all, as condition
variables may. A lookup or an unwrap that would panic leaves its thread without a
step. The two metric counters and the write lane are left out: the lane only
keeps other threads from committing, and here any thread may commit at any time.

The history at the end of the state is what was asked and answered so far; no
step reads it.
-/
import Twill.Conn
import Twill.Storage.Types
import Twill.Lib.Transition

namespace Twill.Storage

/-- The `Display` texts of storage errors. -/
def StorageError.display : StorageError → String
  | .notFound message => s!"not found: {message}"
  | .fenced held current => s!"fenced: current epoch {current} > held {held}"
  | .contended => "contended: fence acquire lost the CAS race"
  | .transient message => s!"transient: {message}"
  | .durabilityUnconfirmed message => s!"durability unconfirmed: {message}"
  | .corruption message => s!"corruption: {message}"
  | .invalid message => s!"invalid: {message}"

end Twill.Storage

namespace Twill.GroupCommit

open Storage (StorageError)

/-- A storage error during commit, as the engine's conflict or storage error. -/
def commitError (e : StorageError) : EngineError :=
  let status := match e with
    | .fenced .. => .errConflict
    | .contended => .errConflict
    | _ => .errStorage
  ⟨status, e.display⟩

abbrev CommitResult := Except EngineError Nat

/-- One transaction waiting to be made durable, as the coordinator holds it. -/
structure Entry where
  owner : Nat
  records : List WalOp
  result : Option CommitResult
  done : Bool

structure Inner where
  /-- Member ids awaiting flush, in submission order. -/
  queue : List Nat
  members : Nat → Option Entry
  leaderActive : Bool
  nextId : Nat

/-- A member of a batch being flushed: its id, its owner and how many records it has. -/
structure Slice where
  id : Nat
  owner : Nat
  len : Nat

/-- Where a thread is. `id` is the member it commits. -/
inductive Pc where
  | outside
  /-- Enqueued; the write lane is released next. -/
  | releasing (id : Nat) (leader : Bool)
  | draining (id : Nat)
  | drained (id : Nat) (batch : List Nat)
  | gathered (id : Nat) (all : List WalOp) (members : List Slice)
  | appended (id : Nat) (members : List Slice) (last : Nat)
  | failed (id : Nat) (members : List Slice) (e : StorageError)
  | resolving (id : Nat) (results : List (Nat × CommitResult))
  /-- A batch is resolved, or there was none; the queue is looked at next. -/
  | flushed (id : Nat)
  /-- About to look, or to look again, for the result. -/
  | awaiting (id : Nat)
  | parked (id : Nat)
  | quiescing
  | quiesceParked

/-- A record of the durable log: its LSN, whose it is, and what it says. -/
structure Line where
  lsn : Nat
  id : Nat
  op : WalOp

/-- A durable append of a batch and its answer. -/
structure Append where
  ids : List Nat
  answer : Except StorageError Nat

structure History where
  /-- The members in submission order; their ids count from `1`. -/
  submitted : List Member
  batches : List (List Nat)
  appends : List Append
  log : List Line
  /-- The results set, in order. -/
  resolved : List (Nat × CommitResult)
  /-- The results `commit` returned. -/
  returned : List (Nat × CommitResult)

/-- The records submitted under an id. -/
def History.records (h : History) (id : Nat) : List WalOp :=
  ((h.submitted[id - 1]?).map Member.records).getD []

structure Sys where
  inner : Inner
  store : Store
  /-- The lowest LSN the storage may still assign. -/
  nextLsn : Nat
  pc : Nat → Pc
  hist : History

namespace Sys

def init (store : Store) : Sys :=
  ⟨⟨[], fun _ => none, false, 1⟩, store, 1, fun _ => .outside, ⟨[], [], [], [], [], []⟩⟩

def goto (s : Sys) (t : Nat) (pc : Pc) : Sys := { s with pc := Function.update s.pc t pc }

/-- A parked thread goes back to the head of its loop. -/
def unpark : Pc → Pc
  | .parked id => .awaiting id
  | .quiesceParked => .quiescing
  | pc => pc

def notifyAll (s : Sys) : Sys := { s with pc := fun t => unpark (s.pc t) }

/-- The first critical section of `commit`. -/
def enqueue (s : Sys) (t : Nat) (m : Member) : Sys :=
  let id := s.inner.nextId
  let leader := !s.inner.leaderActive
  { s with
    inner := ⟨s.inner.queue ++ [id],
      Function.update s.inner.members id (some ⟨m.owner, m.records, none, false⟩), true, id + 1⟩
    pc := Function.update s.pc t (.releasing id leader)
    hist := { s.hist with submitted := s.hist.submitted ++ [m] } }

/-- The loop of `drain_batch`: a prefix of the queue, at least one member, and
within the record cap beyond that. -/
def drainLoop (members : Nat → Option Entry) : (empty : Bool) → (nrec : Nat) → List Nat →
    Option (List Nat × List Nat)
  | _, _, [] => some ([], [])
  | empty, nrec, id :: queue => match members id with
    | none => none
    | some m =>
      if !empty && nrec + m.records.length > Twill.Sys.maxBatchRecords then some ([], id :: queue)
      else (drainLoop members false (nrec + m.records.length) queue).map fun p => (id :: p.1, p.2)

def drainBatch (s : Sys) (t id : Nat) : Option Sys :=
  (drainLoop s.inner.members true 0 s.inner.queue).map fun p =>
    { s.goto t (.drained id p.1) with
      inner := { s.inner with queue := p.2 }
      hist := { s.hist with batches := s.hist.batches ++ [p.1] } }

/-- The records of a batch, concatenated, and its members. -/
def gather (members : Nat → Option Entry) : List Nat → Option (List WalOp × List Slice)
  | [] => some ([], [])
  | id :: batch => match members id with
    | none => none
    | some m => (gather members batch).map fun p => (m.records ++ p.1, ⟨id, m.owner, m.records.length⟩ :: p.2)

/-- `lead` skips an empty batch; for another, `flush_batch` gathers its records. -/
def gatherBatch (s : Sys) (t id : Nat) (batch : List Nat) : Option Sys :=
  if batch.isEmpty then some (s.goto t (.flushed id))
  else (gather s.inner.members batch).map fun p => s.goto t (.gathered id p.1 p.2)

/-- Numbers a member's records. -/
def number (first id : Nat) (records : List WalOp) : List Line :=
  (records.zipIdx first).map fun p => ⟨p.2, id, p.1⟩

/-- Numbers a batch's records, member after member. -/
def numberBatch (records : Nat → List WalOp) : (first : Nat) → List Nat → List Line
  | _, [] => []
  | first, id :: batch => number first id (records id) ++ numberBatch records (first + (records id).length) batch

/-- The durable append. The storage gives its records consecutive LSNs, above all
it gave before, and answers the last. -/
def append (s : Sys) (t id : Nat) (all : List WalOp) (members : List Slice) (answer : Except StorageError Nat) :
    Option Sys :=
  let ids := members.map Slice.id
  let appends := s.hist.appends ++ [⟨ids, answer⟩]
  match answer with
  | .ok last =>
    if s.nextLsn + all.length ≤ last + 1 then
      let lines := numberBatch s.hist.records (last + 1 - all.length) ids
      some { s.goto t (.appended id members last) with
        nextLsn := last + 1
        hist := { s.hist with appends := appends, log := s.hist.log ++ lines } }
    else none
  | .error e => some { s.goto t (.failed id members e) with hist := { s.hist with appends := appends } }

structure PublishLoop where
  store : Store
  acc : Nat
  maxLsn : Nat
  results : List (Nat × Nat)

/-- Publishes one member at the LSN of the last record of its slice. -/
def publishMember (first : Nat) (l : PublishLoop) (m : Slice) : PublishLoop :=
  let acc := l.acc + m.len
  let commitLsn := first + acc - 1
  ⟨l.store.finalizeOwner m.owner commitLsn, acc, commitLsn, l.results ++ [(m.id, commitLsn)]⟩

def publishLoop (first : Nat) (store : Store) (members : List Slice) : PublishLoop :=
  members.foldl (publishMember first) ⟨store, 0, 0, []⟩

def publish (s : Sys) (t id : Nat) (members : List Slice) (last : Nat) : Sys :=
  let total := (members.map Slice.len).sum
  let first := last - total + 1
  let l := publishLoop first s.store members
  { s.goto t (.resolving id (l.results.map fun r => (r.1, .ok r.2))) with
    store := if l.maxLsn > l.store.committedLsn then { l.store with committedLsn := l.maxLsn } else l.store }

def discard (s : Sys) (t id : Nat) (members : List Slice) (e : StorageError) : Sys :=
  { s.goto t (.resolving id (members.map fun m => (m.id, .error (commitError e)))) with
    store := members.foldl (fun store m => store.rollbackOwner m.owner) s.store }

def setResult (members : Nat → Option Entry) (r : Nat × CommitResult) : Nat → Option Entry :=
  match members r.1 with
  | some m => Function.update members r.1 (some { m with result := some r.2, done := true })
  | none => members

def resolve (s : Sys) (t id : Nat) (results : List (Nat × CommitResult)) : Sys :=
  { (s.goto t (.flushed id)).notifyAll with
    inner := { s.inner with members := results.foldl setResult s.inner.members }
    hist := { s.hist with resolved := s.hist.resolved ++ results } }

/-- The end of a turn of `lead`: the leader hands back once the queue is empty. -/
def handBack (s : Sys) (t id : Nat) : Sys :=
  if s.inner.queue.isEmpty then
    { (s.goto t (.awaiting id)).notifyAll with inner := { s.inner with leaderActive := false } }
  else s.goto t (.draining id)

/-- A committer takes its result and returns, or parks. -/
def reclaim (s : Sys) (t id : Nat) : Option Sys :=
  if ((s.inner.members id).map Entry.done).getD false then
    match (s.inner.members id).bind Entry.result with
    | none => none
    | some r => some { s.goto t .outside with
        inner := { s.inner with members := Function.update s.inner.members id none }
        hist := { s.hist with returned := s.hist.returned ++ [(id, r)] } }
  else some (s.goto t (.parked id))

/-- `quiesce` returns, or parks. -/
def lookQuiesced (s : Sys) (t : Nat) : Sys :=
  if s.inner.leaderActive || !s.inner.queue.isEmpty then s.goto t .quiesceParked else s.goto t .outside

end Sys

/-! ## Steps -/

inductive Act where
  | commit (t : Nat) (m : Member)
  | quiesce (t : Nat)
  /-- The thread's next critical section. -/
  | run (t : Nat)
  | append (t : Nat) (answer : Except StorageError Nat)
  /-- A spurious wakeup. -/
  | wake (t : Nat)

def Act.thread : Act → Nat
  | .commit t _ => t
  | .quiesce t => t
  | .run t => t
  | .append t _ => t
  | .wake t => t

/-- The next critical section of a thread. -/
def Sys.run (s : Sys) (t : Nat) : Option Sys :=
  match s.pc t with
  | .releasing id leader => some (s.goto t (if leader then .draining id else .awaiting id))
  | .draining id => s.drainBatch t id
  | .drained id batch => s.gatherBatch t id batch
  | .appended id members last => some (s.publish t id members last)
  | .failed id members e => some (s.discard t id members e)
  | .resolving id results => some (s.resolve t id results)
  | .flushed id => some (s.handBack t id)
  | .awaiting id => s.reclaim t id
  | .quiescing => some (s.lookQuiesced t)
  | .outside => none
  | .gathered .. => none
  | .parked _ => none
  | .quiesceParked => none

/-- One step; `none` when the action is not enabled. -/
def step (s : Sys) : Act → Option Sys
  | .commit t m => match s.pc t with
    | .outside => some (s.enqueue t m)
    | _ => none
  | .quiesce t => match s.pc t with
    | .outside => some (s.goto t .quiescing)
    | _ => none
  | .run t => s.run t
  | .append t answer => match s.pc t with
    | .gathered id all members => s.append t id all members answer
    | _ => none
  | .wake t => match s.pc t with
    | .parked id => some (s.goto t (.awaiting id))
    | .quiesceParked => some (s.goto t .quiescing)
    | _ => none

end Twill.GroupCommit
