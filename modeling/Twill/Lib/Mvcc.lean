/-
Multi-version rows of one table, over any payload type.

A version carries the stamp of the transaction that created it and of the one
that superseded it; a stamp not yet durable is `PENDING` and the version then
names its writer in `owner`. The operations are those of a single write lane
with group commit: a writer pends inserts and deletes under its owner id, and
later its pending stamps are finalized at a commit stamp, rolled back, or
rolled back to a saved pending set.
-/
import Mathlib

universe u

namespace Mvcc

/-- The stamp of an in-flight writer; above every durable stamp. -/
def PENDING : Nat := 2 ^ 64 - 1

structure Version (α : Type u) where
  vid : Nat
  values : α
  createLsn : Nat
  deleteLsn : Nat
  owner : Nat
  deriving DecidableEq, Repr

variable {α : Type u}

namespace Version

/-- Created at or before `s` and not yet deleted as of `s`. -/
def visibleToReader (r : Version α) (s : Nat) : Bool :=
  r.createLsn ≤ s && (r.deleteLsn == 0 || s < r.deleteLsn)

/-- What the in-flight writer `me` sees at `s`: the committed rows and its own
pending changes. -/
def visibleToWriter (r : Version α) (s me : Nat) : Bool :=
  let created := if r.createLsn = PENDING then r.owner == me else r.createLsn ≤ s
  let deleted := if r.deleteLsn = PENDING then r.owner == me else r.deleteLsn != 0 && r.deleteLsn ≤ s
  created && !deleted

/-- Superseded by a durable delete. -/
def isDeadAtHead (r : Version α) : Bool := r.deleteLsn != 0 && r.deleteLsn != PENDING

def pendDelete (me : Nat) (r : Version α) : Version α := { r with deleteLsn := PENDING, owner := me }

/-- Publishes `me`'s pending stamps of one version at `c`. -/
def finalize (me c : Nat) (r : Version α) : Version α :=
  if r.owner = me then
    { r with
      createLsn := if r.createLsn = PENDING then c else r.createLsn
      deleteLsn := if r.deleteLsn = PENDING then c else r.deleteLsn
      owner := 0 }
  else r

/-- The version is a pending insert of `me`. -/
def ownInsert (me : Nat) (r : Version α) : Bool := r.owner == me && r.createLsn == PENDING

/-- The version carries a pending delete of `me`. -/
def ownDelete (me : Nat) (r : Version α) : Bool := r.owner == me && r.deleteLsn == PENDING

/-- Clears `me`'s pending delete of one version. -/
def undelete (me : Nat) (r : Version α) : Version α :=
  if r.ownDelete me then { r with deleteLsn := 0, owner := 0 } else r

/-- Clears `me`'s pending delete unless `keep` lists the version. The owner
stays while a pending create remains. -/
def undeleteTo (me : Nat) (keep : List Nat) (r : Version α) : Version α :=
  if r.ownDelete me && !keep.contains r.vid then
    { r with deleteLsn := 0, owner := if r.createLsn = PENDING then r.owner else 0 }
  else r

end Version

/-! ## Operations on the rows of one table -/

/-- Applies `f` to the first element satisfying `p`. -/
def modifyFirst (p : α → Bool) (f : α → α) : List α → List α
  | [] => []
  | a :: l => if p a then f a :: l else a :: modifyFirst p f l

abbrev Rows (α : Type u) := List (Version α)

/-- One logged row change. -/
inductive Op (α : Type u) where
  | insert (vid : Nat) (values : α)
  | delete (vid : Nat)

namespace Rows

def find (rows : Rows α) (vid : Nat) : Option (Version α) := rows.find? fun r => r.vid == vid

/-- Makes the change under the in-flight writer `me`. -/
def pend (me : Nat) (rows : Rows α) : Op α → Rows α
  | .insert vid values => rows ++ [⟨vid, values, PENDING, 0, me⟩]
  | .delete vid => modifyFirst (fun r => r.vid == vid) (Version.pendDelete me) rows

def pendAll (me : Nat) (rows : Rows α) (ops : List (Op α)) : Rows α := ops.foldl (pend me) rows

/-- Makes the change durably at `c`, as recovery does. -/
def commit (c : Nat) (rows : Rows α) : Op α → Rows α
  | .insert vid values => rows ++ [⟨vid, values, c, 0, 0⟩]
  | .delete vid => modifyFirst (fun r => r.vid == vid) (fun r => { r with deleteLsn := c }) rows

def commitAll (c : Nat) (rows : Rows α) (ops : List (Op α)) : Rows α := ops.foldl (commit c) rows

def finalize (me c : Nat) (rows : Rows α) : Rows α := rows.map (Version.finalize me c)

def rollback (me : Nat) (rows : Rows α) : Rows α :=
  (rows.filter fun r => !r.ownInsert me).map (Version.undelete me)

def rollbackTo (me : Nat) (inserted deleted : List Nat) (rows : Rows α) : Rows α :=
  (rows.filter fun r => !(r.ownInsert me && !inserted.contains r.vid)).map
    (Version.undeleteTo me deleted)

/-- Publishes writers one after the other, each at its stamp. -/
def finalizeAll (commits : List (Nat × Nat)) (rows : Rows α) : Rows α :=
  commits.foldl (fun rows p => rows.finalize p.1 p.2) rows

def rollbackAll (owners : List Nat) (rows : Rows α) : Rows α := owners.foldl (fun rows o => rows.rollback o) rows

/-- The ids of `me`'s pending inserts. -/
def insertedVids (me : Nat) (rows : Rows α) : List Nat := (rows.filter fun r => r.ownInsert me).map (·.vid)

/-- The ids of the versions `me` has pending-deleted. -/
def deletedVids (me : Nat) (rows : Rows α) : List Nat := (rows.filter fun r => r.ownDelete me).map (·.vid)

/-- The rows a reader at `s` sees. -/
def visible (s : Nat) (rows : Rows α) : List (Nat × α) :=
  (rows.filter fun r => r.visibleToReader s).map fun r => (r.vid, r.values)

end Rows

end Mvcc
