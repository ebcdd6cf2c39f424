/-
Snapshot stability.

A reader's snapshot is the published LSN of the moment it begins. Statements
pend stamps no reader sees, batches publish above the snapshot and rollbacks
clear pending stamps only, so what the snapshot shows is fixed. A writer sees
its snapshot with its own pending changes on top, and nothing of the others.
-/
import Twill.Invariant

namespace Twill

open Mvcc (PENDING)

def Act.isDdl : Act → Bool
  | .ddl .. => true
  | _ => false

/-- A step that is no DDL. -/
def NoDdl (_ : Sys) (a : Act) : Prop := a.isDdl = false

namespace Sys

variable {σ τ : Sys} {s : Nat}

/-- A step without DDL keeps what a reader at or below the published LSN sees. -/
theorem StoreStep.visible {a : Act} {store : Store} (h : Inv σ) (hs : StoreStep σ a store)
    (hddl : a.isDdl = false) (hle : s ≤ σ.store.committedLsn) (k : String) :
    (store.rowsAt k).visible s = (σ.store.rowsAt k).visible s := by
  have hp : s < PENDING := hle.trans_lt h.committed_lt
  cases hs with
  | same => rfl
  | @dml c t E st params ht hlane =>
    rw [runDml_rowsAt]
    split
    · next hk =>
      subst hk
      exact Mvcc.Rows.visible_pendAll hp (h.sound _).nodup (h.dml_allows ht E st params)
    · rfl
  | rollback ht hwriter =>
    rw [Store.rowsAt_rollbackOwner]
    exact Mvcc.Rows.visible_rollback hp
  | rollbackTo ht hwriter =>
    rw [Store.rowsAt_rollbackToSavepoint]
    exact Mvcc.Rows.visible_rollbackTo hp _ _
  | @publish ms first hflush =>
    rw [rowsAt_publish]
    refine Mvcc.Rows.visible_finalizeAll (fun p hp => ?_) hp
    have hfirst := (h.appended ms first hflush).1
    have := (commitLsns_bounds p hp).1
    omega
  | discard hflush =>
    rw [rowsAt_discard]
    exact Mvcc.Rows.visible_rollbackAll hp
  | ddl hplan hfirst => simp [Act.isDdl] at hddl

theorem StoreStep.committedLsn_le {a : Act} {store : Store} (hs : StoreStep σ a store) :
    σ.store.committedLsn ≤ store.committedLsn := by
  cases hs with
  | same => exact le_rfl
  | dml ht hlane => rw [committedLsn_runDml]
  | rollback ht hwriter => rw [(Store.rollbackOwner_eq _).committedLsn]; rfl
  | rollbackTo ht hwriter => rw [(Store.rollbackToSavepoint_eq _ _ _).committedLsn]; rfl
  | publish hflush =>
    rw [committedLsn_publish]
    exact le_max_left _ _
  | discard hflush => rw [committedLsn_discard]
  | ddl hplan hfirst =>
    rw [(Store.reshapes_applyDdl _ _ _).committedLsn]
    exact le_max_left _ _

/-- A run without DDL keeps what a reader at or below its first published LSN
sees. -/
theorem visible_run {P : Sys → Act → Prop} (hP : ∀ υ a, P υ a → a.isDdl = false) (h : Inv σ)
    (hle : s ≤ σ.store.committedLsn) (hrun : RunWhere P σ τ) :
    s ≤ τ.store.committedLsn ∧ ∀ k, (τ.store.rowsAt k).visible s = (σ.store.rowsAt k).visible s := by
  induction hrun with
  | nil => exact ⟨hle, fun _ => rfl⟩
  | @snoc τ υ a hrun hsat hstep ih =>
    obtain ⟨hle, hvis⟩ := ih
    have hs := storeStep_of_stepped (stepped_of_step hstep)
    refine ⟨hle.trans hs.committedLsn_le, fun k => ?_⟩
    rw [hs.visible (h.runWhere hrun) (hP τ a hsat) hle, hvis]

/-- Among rows with distinct ids, a row is visible when its id and image are. -/
theorem mem_visible_iff {rows : Mvcc.Rows Row} (h : Mvcc.Rows.Sound rows) {r : RowVersion} (hr : r ∈ rows) :
    (r.vid, r.values) ∈ rows.visible s ↔ r.visibleToReader s = true := by
  constructor
  · intro hmem
    obtain ⟨r', hr', heq⟩ := List.mem_map.1 hmem
    obtain ⟨hr', hvis⟩ := List.mem_filter.1 hr'
    obtain rfl := h.eq_of_vid hr' hr (congrArg Prod.fst heq)
    exact hvis
  · intro hvis
    exact List.mem_map.2 ⟨r, List.mem_filter.2 ⟨hr, hvis⟩, rfl⟩

end Sys

open Sys

/-- **Snapshot stability.** Whatever the connections and the commit coordinator
do short of DDL, a reader at the published LSN of a reachable system goes on
seeing the same versions of every table; and an open transaction with that
snapshot sees those versions and its own pending inserts, less its own pending
deletes. -/
theorem snapshot_stable (pre : List Act) (σ τ : Sys) (hreach : Run Sys.init pre σ)
    (hrun : RunWhere NoDdl σ τ) :
    let s := σ.store.committedLsn
    (∀ k, (τ.store.rowsAt k).visible s = (σ.store.rowsAt k).visible s) ∧
      ∀ c t, (τ.conns c).txn = some t → t.snapshot = s → ∀ k, ∀ r ∈ τ.store.rowsAt k,
        (r.visibleToWriter s t.owner = true ↔
          ((r.vid, r.values) ∈ (σ.store.rowsAt k).visible s ∨ r.ownInsert t.owner = true) ∧
            r.ownDelete t.owner = false) := by
  intro s
  have hinv : Inv σ := Inv.init.run hreach
  have hinv' : Inv τ := hinv.runWhere hrun
  obtain ⟨hle, hvis⟩ := visible_run (fun _ _ h => h) hinv le_rfl hrun
  refine ⟨hvis, fun c t ht hsnap k r hr => ?_⟩
  rw [Mvcc.Version.visibleToWriter_iff (hinv'.version hr) hle hinv'.committed_lt, ← hvis k,
    mem_visible_iff (hinv'.sound k) hr]

/-! ## A worked case -/

/-- `CREATE TABLE items (id INTEGER PRIMARY KEY, n INTEGER)`, logged at LSN 1. -/
def createItems : Act :=
  .ddl 0 Env.bare (.createTable ⟨"items", [⟨"id", .integer, true, true, false, false, none⟩,
    ⟨"n", .integer, false, false, false, false, none⟩], [], [], [], [], false⟩) (some 1)

/-- `INSERT INTO items VALUES (id, n)` on connection `c`. -/
def insertItem (c : Nat) (id n : Int64) : Act :=
  .dml c Env.bare (.insert ⟨"items", none, .values [[.int id, .int n]], .error, none⟩) []

/-- `DELETE FROM items` on connection `c`. -/
def deleteItems (c : Nat) : Act := .dml c Env.bare (.delete ⟨"items", none, none, none⟩) []

/-- The system whose `items` table holds one published row. -/
def oneItem : Sys :=
  Sys.init.after [createItems, .startImplicit 1, insertItem 1 1 10, .commit 1, .drain, .append 3, .publish]

/-- A published delete does not reach the snapshot taken before it. -/
theorem snapshot_stable_items :
    let τ := oneItem.after [.startImplicit 2, deleteItems 2, .commit 2, .drain, .append 5, .publish]
    RunWhere NoDdl oneItem τ ∧ τ.store.committedLsn = 6 ∧
      (τ.store.rowsAt "items").visible 4 = [(1, [.int 1, .int 10])] := by
  intro τ
  have hrun : RunWhere NoDdl oneItem τ :=
    (RunWhere.nil oneItem).after ⟨rfl, rfl, rfl, rfl, rfl, rfl, trivial⟩
  refine ⟨hrun, rfl, ?_⟩
  exact (snapshot_stable _ oneItem τ (run_after rfl) hrun).1 "items"

end Twill
