/-
Copy-on-write branches (`storage/src/branch.rs`) over the two backends.

`Backend` is what a `dyn Storage` behind a branch can be, with the calls a branch
makes of it; no call fails for reasons outside the code. `BranchStorage` glues
the parent's history up to the fork to a private overlay, whose LSNs it shifts
by the fork LSN. LSNs are naturals; `saturating_sub` is subtraction on them.
-/
import Twill.Storage.LocalRecovery
import Twill.Storage.ObjectRuns

namespace Twill.Storage

open StateExcept (runOn)
open Object (Page)

/-- `LocalFileStorage::get_page`: the last version of a chain at or below `lsn`. -/
def LocalFile.getPage (g : LocalFile.Inner) (pageId lsn : Nat) : Except StorageError Page :=
  if lsn < g.retentionFloor then .error (.notFound s!"lsn {lsn} below PITR floor {g.retentionFloor}")
  else match g.pages.lookup pageId with
    | none => .error (.notFound s!"page {pageId}")
    | some chain => match chain.reverse.find? fun v => v.1 ≤ lsn with
      | some (vlsn, image) => .ok ⟨vlsn, image⟩
      | none => .error (.notFound s!"page {pageId} has no version at-or-before lsn {lsn}")

inductive Backend where
  | file (h : LocalFile.Handle)
  | object (config : Object.Config) (w : Object.World)

namespace Backend

/-- Runs a call on either backend, keeping the state it leaves. -/
def call {α : Type} (b : Backend) (file : LocalFile.LocalM α) (object : Object.Config → Object.ObjM α) :
    Except StorageError α × Backend :=
  match b with
  | .file h =>
    let (res, h) := runOn file h
    (res, .file h)
  | .object config w =>
    let (res, w) := runOn (object config) w
    (res, .object config w)

def acquireFence (b : Backend) (owner : Nat) : Except StorageError FenceToken × Backend :=
  b.call (LocalFile.acquireFence none owner) fun _ => Object.acquireFence owner

def appendWal (b : Backend) (token : FenceToken) (records : List WalRecord) : Except StorageError Nat × Backend :=
  b.call (LocalFile.appendWal none token records) fun config => Object.appendWal config token records

def putPage (b : Backend) (token : FenceToken) (pageId : UInt64) (image : Bytes) :
    Except StorageError Nat × Backend :=
  b.call (LocalFile.putPage none token pageId image) fun config => Object.putPage config token pageId.toNat image

def setRetentionFloor (b : Backend) (lsn : UInt64) : Except StorageError Unit × Backend :=
  b.call (LocalFile.setRetentionFloor none lsn) fun _ => Object.setRetentionFloor lsn.toNat

def getPage (b : Backend) (pageId lsn : Nat) : Except StorageError Page × Backend :=
  match b with
  | .file h => (LocalFile.getPage h.inner pageId lsn, b)
  | .object config w =>
    let (res, w) := runOn (Object.getPage pageId lsn) w
    (res, .object config w)

def scanWal : Backend → Nat → Except StorageError (List LogEntry)
  | .file h, after => LocalFile.scanWal h.file after
  | .object _ w, after => .ok (Object.scanWal w.bucket after)

def durableLsn : Backend → Nat
  | .file h => h.inner.durableLsn
  | .object _ w => w.inner.durableLsn

def pitrFloor : Backend → Nat
  | .file h => h.inner.retentionFloor
  | .object _ w => w.inner.retentionFloor

end Backend

structure BranchStorage where
  parent : Backend
  overlay : Backend
  baseLsn : Nat

namespace BranchStorage

/-- Overlay-local LSN to branch-global LSN. -/
def toGlobal (b : BranchStorage) (lsn : Nat) : Nat := b.baseLsn + lsn

/-- Branch-global LSN to overlay-local LSN, clamped at the fork point. -/
def toLocal (b : BranchStorage) (lsn : Nat) : Nat := lsn - b.baseLsn

def shiftEntry (b : BranchStorage) (e : LogEntry) : LogEntry := { e with lsn := b.toGlobal e.lsn }

def getPage (b : BranchStorage) (pageId lsn : Nat) : Except StorageError Page × BranchStorage :=
  if lsn ≤ b.baseLsn then
    let (res, parent) := b.parent.getPage pageId lsn
    (res, { b with parent })
  else
    let (res, overlay) := b.overlay.getPage pageId (b.toLocal lsn)
    let b := { b with overlay }
    match res with
    | .ok p => (.ok { p with lsn := b.toGlobal p.lsn }, b)
    | .error (.notFound _) =>
      let (res, parent) := b.parent.getPage pageId b.baseLsn
      (res, { b with parent })
    | .error e => (.error e, b)

def acquireFence (b : BranchStorage) (owner : Nat) : Except StorageError FenceToken × BranchStorage :=
  let (res, overlay) := b.overlay.acquireFence owner
  (res, { b with overlay })

def appendWal (b : BranchStorage) (token : FenceToken) (records : List WalRecord) :
    Except StorageError Nat × BranchStorage :=
  let (res, overlay) := b.overlay.appendWal token records
  (res.map b.toGlobal, { b with overlay })

def putPage (b : BranchStorage) (token : FenceToken) (pageId : UInt64) (image : Bytes) :
    Except StorageError Nat × BranchStorage :=
  let (res, overlay) := b.overlay.putPage token pageId image
  (res.map b.toGlobal, { b with overlay })

def scanWal (b : BranchStorage) (after : Nat) : Except StorageError (List LogEntry) :=
  if after < b.baseLsn then do
    let base ← b.parent.scanWal after
    let own ← b.overlay.scanWal 0
    return (base.filter fun e => e.lsn ≤ b.baseLsn) ++ own.map b.shiftEntry
  else do
    let own ← b.overlay.scanWal (b.toLocal after)
    return own.map b.shiftEntry

def setRetentionFloor (b : BranchStorage) (lsn : UInt64) : Except StorageError Unit × BranchStorage :=
  let (res, overlay) := b.overlay.setRetentionFloor (UInt64.ofNat (b.toLocal lsn.toNat))
  (res, { b with overlay })

theorem getPage_base {b : BranchStorage} {pageId query : Nat} (h : query ≤ b.baseLsn) :
    (b.getPage pageId query).1 = (b.parent.getPage pageId query).1 := by
  rw [getPage, if_pos h]

/-- A read above the fork, by the overlay's answer. -/
theorem getPage_own {b : BranchStorage} {pageId query : Nat} (h : ¬ query ≤ b.baseLsn) :
    (b.getPage pageId query).1 = match (b.overlay.getPage pageId (query - b.baseLsn)).1 with
      | .ok p => .ok { p with lsn := b.toGlobal p.lsn }
      | .error (.notFound _) => (b.parent.getPage pageId b.baseLsn).1
      | .error e => .error e := by
  cases hres : b.overlay.getPage pageId (query - b.baseLsn) with
  | mk res overlay =>
    have hlocal : b.overlay.getPage pageId (b.toLocal query) = (res, overlay) := hres
    rw [getPage, if_neg h, hlocal]
    cases res with
    | ok p => rfl
    | error e => cases e <;> rfl

end BranchStorage

end Twill.Storage
