/-
The object-storage backend (`storage/src/object/mod.rs`): a commit log of
segments at numbered slots, and an LSM page store over immutable layers.

The bucket holds decoded objects: what `codec.rs` encodes a segment or a layer
as is not modelled, nor are branches. A `BTreeMap` is the list of its entries,
with no order read off it. The handle's counters, memtable, live layer set and
parsed-layer cache are as in the source; a handle runs alone and no object-store
call fails. Several handles, and calls that fail, are in `Twill.Storage.ObjectLog`.
-/
import Twill.Storage.Types
import Twill.Lib.Assoc

namespace Twill.Storage.Object

inductive LogItem where
  | wal (bytes : Bytes)
  | page (pageId : Nat) (image : Bytes)
  deriving DecidableEq, Repr

abbrev Segment := List LogItem

def LogItem.isWal : LogItem → Bool
  | .wal _ => true
  | .page .. => false

structure PageRecord where
  pageId : Nat
  lsn : Nat
  image : Bytes
  deriving DecidableEq, Repr

/-- The name of a layer object, which carries its LSN span. -/
inductive LayerKey where
  | delta (lo hi : Nat)
  | image (lsn : Nat)
  deriving DecidableEq, Repr

structure Bucket where
  /-- The segments `log/<seq>` with their slots. -/
  log : List (Nat × Segment)
  layers : AList fun _ : LayerKey => List PageRecord
  /-- The epoch in the lease object. -/
  lease : Option Nat
  retention : Option Nat

namespace Bucket

def empty : Bucket := ⟨[], ∅, none, none⟩

/-- The log in slot order: slots are zero-padded in the keys, so the sorted
listing is the numeric one. -/
def sortedLog (b : Bucket) : List (Nat × Segment) := b.log.insertionSort fun x y => x.1 ≤ y.1

def taken (b : Bucket) (seq : Nat) : Bool := b.log.any (·.1 == seq)

/-- The highest log slot, plus one. -/
def scanNextSeq (b : Bucket) : Nat := b.log.foldl (fun m e => max m e.1) 0 + 1

/-- The durable writer epoch, `0` without a lease object. -/
def durableEpoch (b : Bucket) : Nat := b.lease.getD 0

end Bucket

/-! ## Replaying the log -/

/-- `BTreeMap::insert` at the key `(page_id, lsn)`. -/
def memInsert (m : List PageRecord) (r : PageRecord) : List PageRecord :=
  m.filter (fun x => !(x.pageId == r.pageId && x.lsn == r.lsn)) ++ [r]

structure LogReplay where
  maxSeq : Nat
  nextLsn : Nat
  durableLsn : Nat
  commitLsn : Nat
  memtable : List PageRecord
  memtableBytes : Nat

/-- Numbers one item; a page above the flushed mark goes to the memtable. -/
def replayItem (flushedHw : Nat) (r : LogReplay) (item : LogItem) : LogReplay :=
  let lsn := r.nextLsn
  let r := { r with nextLsn := lsn + 1, durableLsn := lsn }
  match item with
  | .wal _ => r
  | .page pageId image =>
    if flushedHw < lsn then
      { r with
        memtable := memInsert r.memtable ⟨pageId, lsn, image⟩
        memtableBytes := r.memtableBytes + image.length }
    else r

def replaySegment (flushedHw : Nat) (r : LogReplay) (e : Nat × Segment) : LogReplay :=
  let r := e.2.foldl (replayItem flushedHw) { r with maxSeq := max r.maxSeq e.1 }
  if e.2.any LogItem.isWal then { r with commitLsn := r.durableLsn } else r

/-- Replays the durable log in slot order. -/
def replayLog (b : Bucket) (flushedHw : Nat) : LogReplay :=
  b.sortedLog.foldl (replaySegment flushedHw) ⟨0, 1, 0, 0, [], 0⟩

/-- The WAL records past `after`, with the LSNs of a replay. -/
def scanWal (b : Bucket) (after : Nat) : List LogEntry :=
  ((b.sortedLog.flatMap (·.2)).zipIdx 1).filterMap fun
    | (.wal bytes, lsn) => if after < lsn then some ⟨lsn, bytes⟩ else none
    | (.page .., _) => none

/-! ## The handle -/

structure Config where
  flushThresholdBytes : Nat
  casMaxRetries : Nat

structure DeltaMeta where
  lo : Nat
  hi : Nat
  deriving DecidableEq, Repr

def DeltaMeta.key (d : DeltaMeta) : LayerKey := .delta d.lo d.hi

structure Inner where
  nextSeq : Nat
  nextLsn : Nat
  durableLsn : Nat
  commitLsn : Nat
  epoch : Nat
  retentionFloor : Nat
  memtable : List PageRecord
  memtableBytes : Nat
  flushedHw : Nat
  deltas : List DeltaMeta
  /-- The image layer's LSN. -/
  image : Option Nat

/-- A handle with the bucket it works on. -/
structure World where
  bucket : Bucket
  inner : Inner
  cache : AList fun _ : LayerKey => List PageRecord

abbrev ObjM := ExceptT StorageError (StateM World)

def modifyInner (f : Inner → Inner) : ObjM Unit := modify fun w => { w with inner := f w.inner }

def modifyBucket (f : Bucket → Bucket) : ObjM Unit := modify fun w => { w with bucket := f w.bucket }

def checkFence (token : FenceToken) : ObjM Unit := do
  let current := (← get).bucket.durableEpoch
  if token.epoch ≠ current then
    throw (.fenced token.epoch current)

/-- One turn of the CAS loop: claims `log/<next_seq>`, or refreshes `next_seq`
from the bucket, checks the lease again and goes on with `again`. -/
def claimOnce (token : FenceToken) (items : Segment) (again : ObjM Unit) : ObjM Unit := do
  let w ← get
  let seq := w.inner.nextSeq
  if w.bucket.taken seq then
    modifyInner fun g => { g with nextSeq := w.bucket.scanNextSeq }
    checkFence token
    again
  else modifyBucket fun b => { b with log := b.log ++ [(seq, items)] }

/-- The CAS loop with its retries. -/
def claimSlot (token : FenceToken) (items : Segment) : Nat → ObjM Unit
  | 0 => claimOnce token items (throw .contended)
  | retries + 1 => claimOnce token items (claimSlot token items retries)

/-- The delta's put is conditional; a taken name would be an error. -/
def flushLocked : ObjM Unit := do
  let w ← get
  let g := w.inner
  if g.memtable.isEmpty then return ()
  let d : DeltaMeta := ⟨g.flushedHw + 1, g.durableLsn⟩
  if (w.bucket.layers.lookup d.key).isSome then throw .contended
  modifyBucket fun b => { b with layers := b.layers.insert d.key g.memtable }
  modifyInner fun g =>
    { g with deltas := g.deltas ++ [d], flushedHw := d.hi, memtable := [], memtableBytes := 0 }

/-- Numbers one item of an acked segment. -/
def applyItem (g : Inner) (item : LogItem) : Inner :=
  let lsn := g.nextLsn
  let g := { g with nextLsn := lsn + 1 }
  match item with
  | .wal _ => g
  | .page pageId image =>
    { g with
      memtable := memInsert g.memtable ⟨pageId, lsn, image⟩
      memtableBytes := g.memtableBytes + image.length }

/-- The counters after a segment has been claimed. -/
def applySegment (g : Inner) (items : Segment) : Inner :=
  let g := items.foldl applyItem g
  let last := g.nextLsn - 1
  let g := { g with nextSeq := g.nextSeq + 1, durableLsn := last }
  if items.any LogItem.isWal then { g with commitLsn := last } else g

def appendSegment (config : Config) (token : FenceToken) (items : Segment) : ObjM Nat := do
  checkFence token
  claimSlot token items config.casMaxRetries
  modifyInner fun g => applySegment g items
  let g := (← get).inner
  if config.flushThresholdBytes ≤ g.memtableBytes then flushLocked
  return g.durableLsn

def appendWal (config : Config) (token : FenceToken) (records : List WalRecord) : ObjM Nat := do
  if records.isEmpty then throw (.invalid "append_wal: empty batch")
  appendSegment config token (records.map .wal)

def putPage (config : Config) (token : FenceToken) (pageId : Nat) (image : Bytes) : ObjM Nat := do
  if PAGE_SIZE < image.length then
    throw (.invalid s!"page image {image.length} exceeds PAGE_SIZE {PAGE_SIZE}")
  appendSegment config token [.page pageId image]

/-- Bumps the lease's epoch; alone on the bucket the CAS is never lost. -/
def acquireFence (owner : Nat) : ObjM FenceToken := do
  let newEpoch := (← get).bucket.durableEpoch + 1
  modifyBucket fun b => { b with lease := some newEpoch }
  modifyInner fun g => { g with epoch := newEpoch }
  return ⟨newEpoch, owner⟩

def setRetentionFloor (lsn : Nat) : ObjM Unit := do
  let g := (← get).inner
  if lsn < g.retentionFloor then
    throw (.invalid s!"retention floor must move forward: {lsn} < {g.retentionFloor}")
  modifyBucket fun b => { b with retention := some lsn }
  modifyInner fun g => { g with retentionFloor := lsn }

/-! ## Layers -/

/-- A parsed layer, from the cache or from the bucket. -/
def loadLayer (key : LayerKey) : ObjM (List PageRecord) := do
  let w ← get
  match w.cache.lookup key with
  | some hit => return hit
  | none => match w.bucket.layers.lookup key with
    | none => throw (.corruption "missing live layer")
    | some records =>
      modify fun w => { w with cache := w.cache.insert key records }
      return records

/-- The greatest version of a page at or below an LSN; of equals the last. -/
def bestIn (records : List PageRecord) (pageId query : Nat) : Option PageRecord :=
  records.foldl
    (fun best r =>
      if r.pageId = pageId ∧ r.lsn ≤ query then
        match best with
        | none => some r
        | some b => if b.lsn ≤ r.lsn then some r else some b
      else best)
    none

/-- A page as read: its version's LSN and its bytes. -/
structure Page where
  lsn : Nat
  bytes : Bytes
  deriving DecidableEq, Repr

def PageRecord.page (r : PageRecord) : Page := ⟨r.lsn, padPage r.image⟩

/-- Searches delta layers in turn, skipping those whose span starts after the query. -/
def searchDeltas (pageId query : Nat) : List DeltaMeta → ObjM (Option PageRecord)
  | [] => return none
  | d :: deltas =>
    if query < d.lo then searchDeltas pageId query deltas
    else do
      let records ← loadLayer d.key
      match bestIn records pageId query with
      | some best => return some best
      | none => searchDeltas pageId query deltas

def searchImage (pageId query : Nat) : Option Nat → ObjM (Option PageRecord)
  | none => return none
  | some imageLsn =>
    if query < imageLsn then return none
    else do
      let records ← loadLayer (.image imageLsn)
      return bestIn records pageId query

/-- Memtable, then deltas newest first, then the image. -/
def getPage (pageId query : Nat) : ObjM Page := do
  let g := (← get).inner
  if query < g.retentionFloor then
    throw (.notFound s!"lsn {query} below PITR floor {g.retentionFloor}")
  match bestIn g.memtable pageId query with
  | some best => return best.page
  | none => match ← searchDeltas pageId query (g.deltas.insertionSort fun x y => y.hi ≤ x.hi) with
    | some best => return best.page
    | none => match ← searchImage pageId query g.image with
      | some best => return best.page
      | none => throw (.notFound s!"page {pageId} has no version at-or-before lsn {query}")

/-- Keeps the greater version of a page while merging. -/
def mergeKeepGreatest (m : AList fun _ : Nat => Nat × Bytes) (r : PageRecord) :
    AList fun _ : Nat => Nat × Bytes :=
  match m.lookup r.pageId with
  | some cur => if cur.1 ≤ r.lsn then m.insert r.pageId (r.lsn, r.image) else m
  | none => m.insert r.pageId (r.lsn, r.image)

def mergeLayer (imageLsn : Nat) (m : AList fun _ : Nat => Nat × Bytes) (records : List PageRecord) :
    AList fun _ : Nat => Nat × Bytes :=
  (records.filter (·.lsn ≤ imageLsn)).foldl mergeKeepGreatest m

/-- Folds layers, one after another, into the merge map. -/
def mergeLayers (imageLsn : Nat) : List LayerKey → (AList fun _ : Nat => Nat × Bytes) →
    ObjM (AList fun _ : Nat => Nat × Bytes)
  | [], m => return m
  | key :: keys, m => do
    let records ← loadLayer key
    mergeLayers imageLsn keys (mergeLayer imageLsn m records)

def mergedRecords (m : AList fun _ : Nat => Nat × Bytes) : List PageRecord :=
  m.entries.map fun e => ⟨e.1, e.2.1, e.2.2⟩

/-- Folds every layer at or below the floor into an image there. -/
def compact : ObjM Unit := do
  flushLocked
  let g := (← get).inner
  let imageLsn := g.retentionFloor
  if imageLsn = 0 then return ()
  let merged ← mergeLayers imageLsn ((g.image.map LayerKey.image).toList ++ g.deltas.map DeltaMeta.key) ∅
  modifyBucket fun b => { b with layers := b.layers.insert (.image imageLsn) (mergedRecords merged) }
  modifyInner fun g =>
    { g with deltas := g.deltas.filter (imageLsn < ·.hi), image := some imageLsn }

def Inner.live (g : Inner) : List LayerKey := g.deltas.map DeltaMeta.key ++ (g.image.map LayerKey.image).toList

/-- Deletes the layer objects that are not live. -/
def gc : ObjM Unit := do
  let live := (← get).inner.live
  let victim := fun key => !live.contains key
  modify fun w =>
    let dead := w.bucket.layers.keys.filter victim
    { w with
      bucket := { w.bucket with layers := w.bucket.layers.filterVals fun key _ => !victim key }
      cache := w.cache.filterVals fun key _ => !dead.contains key }

/-! ## Opening -/

def LayerKey.asDelta : LayerKey → Option DeltaMeta
  | .delta lo hi => some ⟨lo, hi⟩
  | .image _ => none

def LayerKey.asImage : LayerKey → Option Nat
  | .delta .. => none
  | .image lsn => some lsn

/-- The live layers by name: deltas by ascending end, the greatest image, and the
flushed mark they imply. -/
def discoverLayers (b : Bucket) : List DeltaMeta × Option Nat × Nat :=
  let deltas := (b.layers.keys.filterMap LayerKey.asDelta).insertionSort fun x y => x.hi ≤ y.hi
  let image := (b.layers.keys.filterMap LayerKey.asImage).foldl
    (fun best lsn => match best with
      | none => some lsn
      | some i => if i < lsn then some lsn else some i)
    none
  (deltas, image, (deltas.map (·.hi) ++ image.toList).foldl max 0)

def recover (b : Bucket) : Inner :=
  let (deltas, image, flushedHw) := discoverLayers b
  let r := replayLog b flushedHw
  { nextSeq := r.maxSeq + 1
    nextLsn := r.nextLsn
    durableLsn := r.durableLsn
    commitLsn := r.commitLsn
    epoch := b.durableEpoch
    retentionFloor := b.retention.getD 0
    memtable := r.memtable
    memtableBytes := r.memtableBytes
    flushedHw
    deltas
    image }

/-- `with_store`: a new handle on the bucket, its cache empty. -/
def withStore (b : Bucket) : World := ⟨b, recover b, ∅⟩

end Twill.Storage.Object
