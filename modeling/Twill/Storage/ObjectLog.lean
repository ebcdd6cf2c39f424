/-
Several handles of the object-storage backend on one bucket
(`storage/src/object/mod.rs`): opening, the lease, and the append loop, an
object-store operation at a time.

A call in flight has its place between two object-store operations; any call of
any handle may take the next step. Puts are atomic and conditional: one may
report success, a failed precondition, or a transient error, before or after it
took effect. `append_segment` checks the fence before it takes its handle's lock
and holds the lock from there on, over the operations of its retry loop. A
conditional put of the lease succeeds only on the content that was read: etags
of different contents differ; those of equal contents may.

Of a handle's state only the two log counters take part here; the page side and
the reads of `recover` that set it are left out, and the flush an append ends
with, if one is due, is a step that may fail. The epoch and the call a segment
was written under, `refreshed`, and the last two lists are history: no step
reads them.
-/
import Twill.Storage.ObjectStorage
import Twill.Lib.Transition

namespace Twill.Storage.ObjectLog

open Object (LogItem Segment Bucket LogReplay replaySegment)

/-- The lease object's content. -/
structure Lease where
  epoch : Nat
  owner : Nat
  expires : Nat
  deriving DecidableEq, Repr

/-- The object `log/<seq>`, and under which epoch and by which call it was written. -/
structure Slot where
  seq : Nat
  items : Segment
  epoch : Nat
  call : Nat
  deriving DecidableEq, Repr

structure Handle where
  nextSeq : Nat
  nextLsn : Nat
  /-- The call inside the critical section of `append_segment`. -/
  lock : Option Nat
  /-- `next_seq` was refreshed from the bucket since the handle was opened. -/
  refreshed : Bool
  deriving DecidableEq, Repr

/-- What a call of `append_segment` was asked. -/
structure Request where
  handle : Nat
  epoch : Nat
  items : Segment
  deriving DecidableEq, Repr

/-- Where a call is: what it does next. -/
inductive Call where
  | unborn
  /-- `replay_log`: lists the log. -/
  | listing (handle : Nat)
  /-- `replay_log`: gets the listed segments in turn. -/
  | reading (handle : Nat) (keys : List Nat) (r : LogReplay)
  | acquireReading (owner attempt : Nat)
  | acquirePutting (owner attempt : Nat) (seen : Option Lease)
  | renewReading (token : FenceToken) (attempt : Nat)
  | renewPutting (token : FenceToken) (attempt : Nat) (seen : Option Lease)
  | releaseReading (token : FenceToken)
  | releasePutting (token : FenceToken) (seen : Lease)
  /-- Reads the lease for the fence check. -/
  | checking (q : Request)
  /-- Waits for its handle's lock. -/
  | checked (q : Request)
  | putting (q : Request) (attempt : Nat)
  /-- Its slot was taken: refreshes `next_seq` by listing the log. -/
  | scanning (q : Request) (attempt : Nat)
  /-- Reads the lease again. -/
  | rechecking (q : Request) (attempt : Nat)
  /-- The segment is durable and numbered up to `last`; flushes if that is due. -/
  | settling (q : Request) (seq last : Nat)
  | finished

/-- An acked append: its call and slot, the LSN answered, how many items it had, and
whether its handle had been refreshed. -/
structure Ack where
  call : Nat
  seq : Nat
  lsn : Nat
  len : Nat
  refreshed : Bool
  deriving DecidableEq, Repr

structure Sys where
  log : List Slot
  lease : Option Lease
  handles : Nat → Option Handle
  calls : Nat → Call
  /-- The epochs `acquire_fence` returned. -/
  issued : List Nat
  acked : List Ack

namespace Sys

def init : Sys := ⟨[], none, fun _ => none, fun _ => .unborn, [], []⟩

/-- The bucket as the backend sees it. -/
def bucket (s : Sys) : Bucket := ⟨s.log.map fun x => (x.seq, x.items), ∅, s.lease.map Lease.epoch, none⟩

def setCall (s : Sys) (c : Nat) (call : Call) : Sys := { s with calls := Function.update s.calls c call }

def setHandle (s : Sys) (h : Nat) (g : Handle) : Sys := { s with handles := Function.update s.handles h (some g) }

/-- The call returns, and gives its handle's lock back. -/
def returnUnlocked (s : Sys) (c h : Nat) (g : Handle) : Sys := (s.setHandle h { g with lock := none }).setCall c .finished

/-! ## Opening -/

/-- The segment at a slot. -/
def segmentAt (s : Sys) (seq : Nat) : Option Segment := (s.bucket.log.find? (·.1 == seq)).map (·.2)

/-- Gets the next listed segment; after the last one the handle is there. -/
def readSegment (s : Sys) (c h : Nat) (r : LogReplay) : List Nat → Option Sys
  | [] => match s.handles h with
    | none => some ((s.setHandle h ⟨r.maxSeq + 1, r.nextLsn, none, false⟩).setCall c .finished)
    | some _ => none
  | key :: keys => match s.segmentAt key with
    | none => some (s.setCall c .finished)
    | some items => some (s.setCall c (.reading h keys (replaySegment 0 r (key, items))))

/-! ## The lease -/

/-- How a conditional put is answered; `lost` is a transient error after it took effect. -/
inductive PutAnswer where
  | ok
  | precondition
  | lost
  deriving DecidableEq, Repr

/-- The retry of a lease write: reads again, or gives up. -/
def retry (s : Sys) (c retries attempt : Nat) (again : Nat → Call) : Sys :=
  s.setCall c (if attempt + 1 > retries then .finished else again (attempt + 1))

/-- A conditional write of the lease over what was read. `again` is where a failed
precondition leads. -/
def putLease (s : Sys) (c : Nat) (seen : Option Lease) (new : Lease) (again : Sys) : PutAnswer → Option Sys
  | .ok => if s.lease = seen then some { s.setCall c .finished with lease := some new } else none
  | .lost => if s.lease = seen then some { s.setCall c .finished with lease := some new } else none
  | .precondition => if s.lease = seen ∧ seen = none then none else some again

/-- `acquire_fence` returns the epoch it wrote. -/
def issue (answer : PutAnswer) (epoch : Nat) (s : Sys) : Sys :=
  if answer = .ok then { s with issued := s.issued ++ [epoch] } else s

/-! ## Appending -/

/-- Puts a segment into a slot. -/
def write (s : Sys) (c : Nat) (q : Request) (seq : Nat) : Sys :=
  { s with log := s.log ++ [⟨seq, q.items, q.epoch, c⟩] }

/-- The conditional put of the segment at `log/<next_seq>`. -/
def putSegment (s : Sys) (c : Nat) (q : Request) (attempt : Nat) (g : Handle) : PutAnswer → Option Sys
  | .ok =>
    if s.bucket.taken g.nextSeq then none
    else
      let last := g.nextLsn + q.items.length - 1
      some (((s.write c q g.nextSeq).setHandle q.handle
        { g with nextSeq := g.nextSeq + 1, nextLsn := g.nextLsn + q.items.length }).setCall c
          (.settling q g.nextSeq last))
  | .lost =>
    if s.bucket.taken g.nextSeq then none
    else some ((s.write c q g.nextSeq).returnUnlocked c q.handle g)
  | .precondition => if s.bucket.taken g.nextSeq then some (s.setCall c (.scanning q attempt)) else none

/-- The check after a refresh: the lease, then the retries. -/
def recheck (s : Sys) (c : Nat) (q : Request) (retries attempt : Nat) (g : Handle) : Sys :=
  if q.epoch ≠ s.bucket.durableEpoch then s.returnUnlocked c q.handle g
  else if attempt + 1 > retries then s.returnUnlocked c q.handle g
  else s.setCall c (.putting q (attempt + 1))

/-- The flush that may be due, and the return. -/
def settle (s : Sys) (c : Nat) (q : Request) (seq last : Nat) (g : Handle) (flushed : Bool) : Sys :=
  let s := s.returnUnlocked c q.handle g
  if flushed then { s with acked := s.acked ++ [⟨c, seq, last, q.items.length, g.refreshed⟩] } else s

end Sys

/-! ## Steps -/

inductive Act where
  /-- Calls begin. -/
  | withStore (c handle : Nat)
  | acquireFence (c owner : Nat)
  | renewFence (c : Nat) (token : FenceToken)
  | releaseFence (c : Nat) (token : FenceToken)
  | appendWal (c handle : Nat) (token : FenceToken) (records : List WalRecord)
  | putPage (c handle : Nat) (token : FenceToken) (pageId : Nat) (image : Bytes)
  /-- The call's next list, get, or conditional put. -/
  | list (c : Nat)
  | get (c : Nat)
  | put (c now : Nat) (answer : Sys.PutAnswer)
  /-- The call's next object-store operation fails without an effect. -/
  | fail (c : Nat)
  | lock (c : Nat)
  | settle (c : Nat) (flushed : Bool)

namespace Sys

/-- A new call of `append_segment` on an open handle. -/
def begin (s : Sys) (c : Nat) (q : Request) : Option Sys :=
  match s.calls c, s.handles q.handle with
  | .unborn, some _ => some (s.setCall c (.checking q))
  | _, _ => none

def list (s : Sys) (c : Nat) : Option Sys :=
  match s.calls c with
  | .listing h => some (s.setCall c (.reading h (s.bucket.sortedLog.map (·.1)) ⟨0, 1, 0, 0, [], 0⟩))
  | .scanning q attempt => (s.handles q.handle).map fun g =>
    (s.setHandle q.handle { g with nextSeq := s.bucket.scanNextSeq, refreshed := true }).setCall c
      (.rechecking q attempt)
  | _ => none

def get (retries : Nat) (s : Sys) (c : Nat) : Option Sys :=
  match s.calls c with
  | .reading h keys r => s.readSegment c h r keys
  | .acquireReading owner attempt => some (s.setCall c (.acquirePutting owner attempt s.lease))
  | .renewReading token attempt =>
    some (s.setCall c (if token.epoch ≠ s.bucket.durableEpoch then .finished else .renewPutting token attempt s.lease))
  | .releaseReading token =>
    some (s.setCall c (if token.epoch ≠ s.bucket.durableEpoch then .finished
      else match s.lease with
        | some seen => .releasePutting token seen
        | none => .finished))
  | .checking q => some (s.setCall c (if q.epoch ≠ s.bucket.durableEpoch then .finished else .checked q))
  | .rechecking q attempt => (s.handles q.handle).map (s.recheck c q retries attempt)
  | _ => none

def put (retries : Nat) (s : Sys) (c now : Nat) (answer : PutAnswer) : Option Sys :=
  match s.calls c with
  | .acquirePutting owner attempt seen =>
    let epoch := (seen.map Lease.epoch).getD 0 + 1
    (s.putLease c seen ⟨epoch, owner, now⟩ (s.retry c retries attempt (.acquireReading owner)) answer).map
      (issue answer epoch)
  | .renewPutting token attempt seen =>
    s.putLease c seen ⟨token.epoch, token.owner, now⟩ (s.retry c retries attempt (.renewReading token)) answer
  | .releasePutting token seen =>
    s.putLease c (some seen) ⟨token.epoch, token.owner, 0⟩ (s.setCall c .finished) answer
  | .putting q attempt => (s.handles q.handle).bind fun g => s.putSegment c q attempt g answer
  | _ => none

/-- An error ends the call; inside the critical section the lock is given back. -/
def fail (s : Sys) (c : Nat) : Option Sys :=
  match s.calls c with
  | .unborn => none
  | .finished => none
  | .checked _ => none
  | .settling .. => none
  | .putting q _ => (s.handles q.handle).map (s.returnUnlocked c q.handle)
  | .scanning q _ => (s.handles q.handle).map (s.returnUnlocked c q.handle)
  | .rechecking q _ => (s.handles q.handle).map (s.returnUnlocked c q.handle)
  | _ => some (s.setCall c .finished)

def lock (s : Sys) (c : Nat) : Option Sys :=
  match s.calls c with
  | .checked q => (s.handles q.handle).bind fun g =>
    if g.lock.isSome then none
    else some ((s.setHandle q.handle { g with lock := some c }).setCall c (.putting q 0))
  | _ => none

end Sys

/-- One step; `none` when the action is not enabled. -/
def step (retries : Nat) (s : Sys) : Act → Option Sys
  | .withStore c h => match s.calls c with
    | .unborn => some (s.setCall c (.listing h))
    | _ => none
  | .acquireFence c owner => match s.calls c with
    | .unborn => some (s.setCall c (.acquireReading owner 0))
    | _ => none
  | .renewFence c token => match s.calls c with
    | .unborn => some (s.setCall c (.renewReading token 0))
    | _ => none
  | .releaseFence c token => match s.calls c with
    | .unborn => some (s.setCall c (.releaseReading token))
    | _ => none
  -- An empty batch and an oversized page are refused before anything is done.
  | .appendWal c h token records =>
    if records.isEmpty then none else s.begin c ⟨h, token.epoch, records.map .wal⟩
  | .putPage c h token pageId image =>
    if PAGE_SIZE < image.length then none else s.begin c ⟨h, token.epoch, [.page pageId image]⟩
  | .list c => s.list c
  | .get c => s.get retries c
  | .put c now answer => s.put retries c now answer
  | .fail c => s.fail c
  | .lock c => s.lock c
  | .settle c flushed => match s.calls c with
    | .settling q seq last => (s.handles q.handle).map fun g => s.settle c q seq last g flushed
    | _ => none

end Twill.Storage.ObjectLog
