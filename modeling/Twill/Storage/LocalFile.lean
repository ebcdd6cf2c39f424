/-
The single-file backend (`storage/src/local.rs`): a 64-byte header followed by
CRC-checked frames, one per accepted operation, and the counters a live handle
keeps beside the file.

A handle is its file's bytes and its counters. An operation runs in `LocalM`,
which keeps the state an error leaves behind. Every operation takes the fate of
its own frame's write: `none` when write and sync succeed, `some n` when one of
them fails with the first `n` bytes of the frame in the file. The statistics
counters and the branch's sibling file are left out.
-/
import Twill.Storage.Types
import Twill.Lib.Framing
import Twill.Lib.Assoc

namespace Twill.Storage.LocalFile

open Framing (toLE ofLE)

def MAGIC : Bytes := [0x42, 0x59, 0x44, 0x45, 0x53, 0x49, 0x47, 0x4E]

def FORMAT_VERSION : Nat := 1

def HEADER_SIZE : Nat := 64

/-- The largest file offset the file system takes. -/
def MAX_OFFSET : Nat := 2 ^ 63 - 1

def T_WAL : UInt8 := 1
def T_PAGE : UInt8 := 2
def T_FENCE : UInt8 := 3
def T_RETENTION : UInt8 := 4
def T_BRANCH : UInt8 := 5
def T_BRANCH_DEL : UInt8 := 6

/-- `(version_lsn, image)` entries, ascending. -/
abbrev PageChain := List (Nat × Bytes)

/-- A parsed frame with the LSNs replay assigns to it. -/
inductive Frame where
  | wal (records : List LogEntry) (commitLsn : Nat)
  | page (lsn pageId : Nat) (image : Bytes)
  | fence (epoch : Nat)
  | retention (floor : Nat)
  | branch (id baseLsn parent : Nat)
  | branchDel (id : Nat)
  deriving DecidableEq, Repr

structure Inner where
  /-- Append offset, the end of the last good frame. -/
  fileEnd : Nat
  nextLsn : Nat
  durableLsn : Nat
  commitLsn : Nat
  epoch : Nat
  retentionFloor : Nat
  pages : AList fun _ : Nat => PageChain
  branches : AList fun _ : Nat => BranchRef
  nextBranchId : Nat

namespace Inner

/-- The counters of a new file. -/
def new : Inner := ⟨HEADER_SIZE, 1, 0, 0, 0, 0, ∅, ∅, 1⟩

/-- `pages.entry(id).or_default().push((lsn, image))`. -/
def pushPage (g : Inner) (pageId lsn : Nat) (image : Bytes) : Inner :=
  { g with pages := g.pages.insert pageId ((g.pages.lookup pageId).getD [] ++ [(lsn, image)]) }

end Inner

/-! ## Writing -/

/-- The CRC of a tag byte followed by a payload. -/
def crc32Pair (tag : UInt8) (payload : Bytes) : UInt32 :=
  payload.foldl crc32Step (crc32Step 0xFFFFFFFF tag) ^^^ 0xFFFFFFFF

def header : Bytes :=
  MAGIC ++ toLE 4 FORMAT_VERSION ++ toLE 4 PAGE_SIZE ++ List.replicate (HEADER_SIZE - 16) 0

/-- `len | type | payload | crc`, the length taken as a `u32`. -/
def frameBytes (tag : UInt8) (payload : Bytes) : Bytes :=
  toLE 4 (payload.length + 1) ++ tag :: payload ++ toLE 4 (crc32Pair tag payload).toNat

structure Handle where
  file : Bytes
  inner : Inner

/-- `open` on an empty file: the header is written. -/
def Handle.create : Handle := ⟨header, Inner.new⟩

abbrev LocalM := ExceptT StorageError (StateM Handle)

/-- The fate of one frame's write and sync. -/
abbrev Fate := Option Nat

def modifyInner (f : Inner → Inner) : LocalM Unit := modify fun h => { h with inner := f h.inner }

def inner : LocalM Inner := do return (← get).inner

/-- Appends one frame at `end`. When the write or the sync fails, what reached
the file stays there and `end` does not move. -/
def appendFrame (fate : Fate) (tag : UInt8) (payload : Bytes) : LocalM Unit := do
  let g ← inner
  let buf := frameBytes tag payload
  if MAX_OFFSET < g.fileEnd + buf.length then
    throw (.durabilityUnconfirmed "file too large")
  match fate with
  | some n =>
    modify fun h => { h with file := Framing.writeAt 0 h.file g.fileEnd (buf.take n) }
    throw (.durabilityUnconfirmed "write failed")
  | none =>
    modify fun h => { h with file := Framing.writeAt 0 h.file g.fileEnd buf }
    modifyInner fun g => { g with fileEnd := g.fileEnd + buf.length }

def checkFence (token : FenceToken) : LocalM Unit := do
  let g ← inner
  if token.epoch ≠ g.epoch then
    throw (.fenced token.epoch g.epoch)

/-- `count | (len | bytes)*`. -/
def walPayload (records : List WalRecord) : Bytes :=
  toLE 4 records.length ++ records.flatMap fun r => toLE 4 r.length ++ r

def appendWal (fate : Fate) (token : FenceToken) (records : List WalRecord) : LocalM Nat := do
  if records.isEmpty then
    throw (.invalid "append_wal: empty batch")
  checkFence token
  appendFrame fate T_WAL (walPayload records)
  let first := (← inner).nextLsn
  let last := first + records.length - 1
  modifyInner fun g => { g with nextLsn := last + 1, durableLsn := last, commitLsn := last }
  return last

def putPage (fate : Fate) (token : FenceToken) (pageId : UInt64) (image : Bytes) : LocalM Nat := do
  if PAGE_SIZE < image.length then
    throw (.invalid s!"page image {image.length} exceeds PAGE_SIZE {PAGE_SIZE}")
  checkFence token
  appendFrame fate T_PAGE (toLE 8 pageId.toNat ++ image)
  let lsn := (← inner).nextLsn
  modifyInner fun g =>
    { g with nextLsn := lsn + 1, durableLsn := lsn }.pushPage pageId.toNat lsn (padPage image)
  return lsn

def acquireFence (fate : Fate) (owner : Nat) : LocalM FenceToken := do
  let newEpoch := (← inner).epoch + 1
  appendFrame fate T_FENCE (toLE 8 newEpoch)
  modifyInner fun g => { g with epoch := newEpoch }
  return ⟨newEpoch, owner⟩

def createBranch (fate : Fate) (baseLsn : UInt64) : LocalM Nat := do
  let g ← inner
  if baseLsn.toNat < g.retentionFloor then
    throw (.notFound s!"base lsn {baseLsn} below PITR floor {g.retentionFloor}")
  let id := g.nextBranchId
  appendFrame fate T_BRANCH (toLE 8 id ++ toLE 8 baseLsn.toNat ++ toLE 8 ROOT)
  modifyInner fun g =>
    { g with
      nextBranchId := g.nextBranchId + 1
      branches := g.branches.insert id ⟨id, ROOT, baseLsn.toNat, baseLsn.toNat⟩ }
  return id

def deleteBranch (fate : Fate) (branch : UInt64) : LocalM Unit := do
  let g ← inner
  if (g.branches.lookup branch.toNat).isNone then
    throw (.notFound s!"branch {branch}")
  if g.branches.values.any (·.parent == branch.toNat) then
    throw (.invalid s!"branch {branch} has live children; delete them first")
  appendFrame fate T_BRANCH_DEL (toLE 8 branch.toNat)
  modifyInner fun g => { g with branches := g.branches.erase branch.toNat }

def setRetentionFloor (fate : Fate) (lsn : UInt64) : LocalM Unit := do
  let g ← inner
  if lsn.toNat < g.retentionFloor then
    throw (.invalid s!"retention floor must move forward: {lsn} < {g.retentionFloor}")
  appendFrame fate T_RETENTION (toLE 8 lsn.toNat)
  modifyInner fun g => { g with retentionFloor := lsn.toNat }

/-! ## Reading -/

/-- The records of a WAL payload after its count. Each record read takes the
next LSN, also when a later one is cut short (`true`). -/
def readRecords : Nat → Nat → Bytes → List LogEntry × Nat × Bool
  | 0, next, _ => ([], next, false)
  | count + 1, next, payload =>
    if payload.length < 4 then ([], next, true)
    else
      let rlen := ofLE (payload.take 4)
      let rest := payload.drop 4
      if rest.length < rlen then ([], next, true)
      else
        let (records, next', torn) := readRecords count (next + 1) (rest.drop rlen)
        (⟨next, rest.take rlen⟩ :: records, next', torn)

/-- A frame's payload under its tag, with the next LSN; `none` where reading stops. -/
def readPayload (next : Nat) (tag : UInt8) (payload : Bytes) : Option Frame × Nat :=
  if tag = T_WAL then
    if payload.length < 4 then (none, next)
    else
      let count := ofLE (payload.take 4)
      let (records, next', torn) := readRecords count next (payload.drop 4)
      if torn || records.length != count then (none, next')
      else (some (.wal records ((records.getLast?.map (·.lsn)).getD 0)), next')
  else if tag = T_PAGE then
    if payload.length < 8 then (none, next)
    else (some (.page next (ofLE (payload.take 8)) (payload.drop 8)), next + 1)
  else if tag = T_FENCE then
    if payload.length < 8 then (none, next) else (some (.fence (ofLE (payload.take 8))), next)
  else if tag = T_RETENTION then
    if payload.length < 8 then (none, next) else (some (.retention (ofLE (payload.take 8))), next)
  else if tag = T_BRANCH then
    if payload.length < 24 then (none, next)
    else
      (some (.branch (ofLE (payload.take 8)) (ofLE ((payload.drop 8).take 8))
        (ofLE ((payload.drop 16).take 8))), next)
  else if tag = T_BRANCH_DEL then
    if payload.length < 8 then (none, next) else (some (.branchDel (ofLE (payload.take 8))), next)
  else (none, next)

/-- One turn of the reader's loop, at the bytes from its position on. -/
def readFrame (next : Nat) (bytes : Bytes) : Framing.Read Nat Frame :=
  if bytes.length < 4 then .stop next
  else
    let len := ofLE (bytes.take 4)
    if len = 0 ∨ bytes.length < 4 + len + 4 then .stop next
    else
      let body := (bytes.drop 4).take len
      if (crc32 body).toNat ≠ ofLE ((bytes.drop (4 + len)).take 4) then .stop next
      else match body with
        | [] => .stop next
        | tag :: payload => match readPayload next tag payload with
          | (some f, next') => .item f (4 + len + 4) next'
          | (none, next') => .stop next'

/-- Every good frame, the offset of their end, and the next LSN. -/
def readLog (all : Bytes) : Except StorageError (List Frame × Nat × Nat) :=
  if all.length < HEADER_SIZE then .error (.corruption "file shorter than header")
  else if all.take 8 ≠ MAGIC then .error (.corruption "bad magic")
  else
    let fmt := ofLE ((all.drop 8).take 4)
    if fmt ≠ FORMAT_VERSION then
      .error (.invalid s!"unsupported format version {fmt} (expected {FORMAT_VERSION})")
    else
      let ps := ofLE ((all.drop 12).take 4)
      if ps ≠ PAGE_SIZE then .error (.invalid s!"page size mismatch: file {ps} vs build {PAGE_SIZE}")
      else
        let (frames, size, next) := Framing.readAll readFrame (all.length + 1) 1 (all.drop HEADER_SIZE)
        .ok (frames, HEADER_SIZE + size, next)

/-- What one recovered frame does to the counters. -/
def recoverFrame (g : Inner) : Frame → Inner
  | .wal _ c => { g with durableLsn := max g.durableLsn c, commitLsn := max g.commitLsn c }
  | .page lsn pageId image =>
    { g with durableLsn := max g.durableLsn lsn }.pushPage pageId lsn (padPage image)
  | .fence e => { g with epoch := max g.epoch e }
  | .retention floor => { g with retentionFloor := max g.retentionFloor floor }
  | .branch id baseLsn parent =>
    { g with
      branches := g.branches.insert id ⟨id, parent, baseLsn, baseLsn⟩
      nextBranchId := max g.nextBranchId (id + 1) }
  | .branchDel id => { g with branches := g.branches.erase id }

def recover (file : Bytes) : Except StorageError Inner := do
  let (frames, fileEnd, nextLsn) ← readLog file
  let g := frames.foldl recoverFrame ⟨0, 0, 0, 0, 0, 0, ∅, ∅, 1⟩
  return { g with fileEnd, nextLsn }

/-- The records past `after`, parsed anew from the file. -/
def scanWal (file : Bytes) (after : Nat) : Except StorageError (List LogEntry) := do
  let (frames, _) ← readLog file
  return frames.flatMap fun
    | .wal records _ => records.filter (after < ·.lsn)
    | _ => []

/-! ## Operations -/

inductive Op where
  | appendWal (token : FenceToken) (records : List WalRecord)
  | putPage (token : FenceToken) (pageId : UInt64) (image : Bytes)
  | acquireFence (owner : Nat)
  | createBranch (baseLsn : UInt64)
  | deleteBranch (branch : UInt64)
  | setRetentionFloor (lsn : UInt64)
  deriving DecidableEq, Repr

/-- What an accepted operation returns. -/
inductive Ack where
  | lsn (n : Nat)
  | token (t : FenceToken)
  | branch (id : Nat)
  | unit
  deriving DecidableEq, Repr

def Op.exec (fate : Fate) : Op → LocalM Ack
  | .appendWal token records => return .lsn (← LocalFile.appendWal fate token records)
  | .putPage token pageId image => return .lsn (← LocalFile.putPage fate token pageId image)
  | .acquireFence owner => return .token (← LocalFile.acquireFence fate owner)
  | .createBranch baseLsn => return .branch (← LocalFile.createBranch fate baseLsn)
  | .deleteBranch branch => do LocalFile.deleteBranch fate branch; return .unit
  | .setRetentionFloor lsn => do LocalFile.setRetentionFloor fate lsn; return .unit

/-- An operation's answer and the handle after it. -/
def Handle.exec (h : Handle) (fate : Fate) (op : Op) : Except StorageError Ack × Handle :=
  (op.exec fate).run.run h

end Twill.Storage.LocalFile
