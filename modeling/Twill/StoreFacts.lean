/-
What the store operations do to the tables.

Index maintenance touches nothing but the indexes (`SameButIndexes`), so the
bulk operations are table-wise maps: publishing, rolling back and rolling back
to a savepoint are the row operations of `Mvcc` on every table.
-/
import Twill.Store
import Twill.Lib.Assoc
import Twill.Lib.MvccFacts

namespace Twill

open Mvcc (PENDING)

namespace Store

variable {s s' : Store}

/-- The two stores differ at most in their vector indexes. -/
structure SameButIndexes (s s' : Store) : Prop where
  tables : s'.tables = s.tables
  views : s'.views = s.views
  committedLsn : s'.committedLsn = s.committedLsn

theorem SameButIndexes.refl : SameButIndexes s s := ⟨Eq.refl _, Eq.refl _, Eq.refl _⟩

theorem SameButIndexes.trans {s'' : Store} (h : SameButIndexes s s') (h' : SameButIndexes s' s'') :
    SameButIndexes s s'' :=
  ⟨h'.tables.trans h.tables, h'.views.trans h.views, h'.committedLsn.trans h.committedLsn⟩

theorem SameButIndexes.foldl {β : Type} {f : Store → β → Store} (hf : ∀ s b, SameButIndexes s (f s b)) :
    ∀ (l : List β) (s : Store), SameButIndexes s (l.foldl f s)
  | [], _ => .refl
  | b :: l, s => (hf s b).trans (SameButIndexes.foldl hf l (f s b))

/-! ## Index maintenance -/

theorem sameButIndexes_compactIndex (name : String) (floorLsn : Nat) :
    SameButIndexes s (s.compactIndex name floorLsn) := by
  unfold compactIndex
  split
  · exact .refl
  · split
    · exact .refl
    · split
      · exact .refl
      · exact ⟨rfl, rfl, rfl⟩

theorem sameButIndexes_populateIndex (name : String) : SameButIndexes s (s.populateIndex name) := by
  unfold populateIndex
  split
  · exact .refl
  · split
    · exact .refl
    · split
      · exact .refl
      · exact ⟨rfl, rfl, rfl⟩

theorem sameButIndexes_createIndex (d : IndexDef) : SameButIndexes s (s.createIndex d) := by
  have hreg : SameButIndexes s (s.registerIndex d) := ⟨rfl, rfl, rfl⟩
  exact hreg.trans (sameButIndexes_populateIndex d.name)

theorem sameButIndexes_applyIndexDeletes (table : String) (vids : List Nat) (commitLsn : Nat) :
    SameButIndexes s (s.applyIndexDeletes table vids commitLsn) := by
  refine SameButIndexes.foldl (fun s name => ?_) _ s
  dsimp only
  split
  · split
    · refine SameButIndexes.trans ?_ (sameButIndexes_compactIndex name commitLsn)
      exact ⟨rfl, rfl, rfl⟩
    · exact ⟨rfl, rfl, rfl⟩
  · exact ⟨rfl, rfl, rfl⟩

theorem sameButIndexes_indexRowInserted (table : String) (vid : Nat) (values : Row) :
    SameButIndexes s (s.indexRowInserted table vid values) := by
  unfold indexRowInserted
  split
  · exact .refl
  · exact ⟨rfl, rfl, rfl⟩

theorem sameButIndexes_removeFromIndexes (vids : List Nat) : SameButIndexes s (s.removeFromIndexes vids) :=
  ⟨rfl, rfl, rfl⟩

/-! ## Rows of every table -/

/-- Applies a row operation to every table. -/
def mapRows (s : Store) (f : Mvcc.Rows Row → Mvcc.Rows Row) : Store :=
  { s with tables := s.tables.mapVals fun _ t => { t with rows := f t.rows } }

theorem mapRows_mapRows (f g : Mvcc.Rows Row → Mvcc.Rows Row) :
    (s.mapRows f).mapRows g = s.mapRows fun rows => g (f rows) := by
  simp only [mapRows, AList.mapVals_mapVals]

theorem SameButIndexes.mapRows (h : SameButIndexes s s') (f : Mvcc.Rows Row → Mvcc.Rows Row) :
    SameButIndexes (s.mapRows f) (s'.mapRows f) :=
  ⟨by simp only [Store.mapRows, h.tables], h.views, h.committedLsn⟩

theorem lookup_mapRows (f : Mvcc.Rows Row → Mvcc.Rows Row) (k : String) :
    (s.mapRows f).tables.lookup k = (s.tables.lookup k).map fun t => { t with rows := f t.rows } := by
  simp [mapRows]

theorem finalizeOwner_eq (owner commitLsn : Nat) :
    SameButIndexes (s.mapRows (·.finalize owner commitLsn)) (s.finalizeOwner owner commitLsn) :=
  SameButIndexes.foldl (fun _ (d : String × List Nat) => sameButIndexes_applyIndexDeletes d.1 d.2 commitLsn) _ _

theorem rollbackOwner_eq (owner : Nat) :
    SameButIndexes (s.mapRows (·.rollback owner)) (s.rollbackOwner owner) :=
  sameButIndexes_removeFromIndexes _

theorem rollbackToSavepoint_eq (owner : Nat) (inserted deleted : List Nat) :
    SameButIndexes (s.mapRows (·.rollbackTo owner inserted deleted))
      (s.rollbackToSavepoint owner inserted deleted) :=
  sameButIndexes_removeFromIndexes _

/-- The rows of the table under a key; none when there is no table. -/
def rowsAt (s : Store) (k : String) : Mvcc.Rows Row := (s.tables.lookup k).elim [] (·.rows)

theorem rowsAt_of_lookup {k : String} {t : Table} (h : s.tables.lookup k = some t) : s.rowsAt k = t.rows := by
  simp [rowsAt, h]

theorem SameButIndexes.rowsAt (h : SameButIndexes s s') (k : String) : s'.rowsAt k = s.rowsAt k := by
  simp [Store.rowsAt, h.tables]

theorem rowsAt_mapRows {f : Mvcc.Rows Row → Mvcc.Rows Row} (hf : f [] = []) (k : String) :
    (s.mapRows f).rowsAt k = f (s.rowsAt k) := by
  simp only [Store.rowsAt, mapRows, AList.lookup_mapVals]
  cases s.tables.lookup k with
  | none => exact hf.symm
  | some t => rfl

theorem rowsAt_finalizeOwner (owner commitLsn : Nat) (k : String) :
    (s.finalizeOwner owner commitLsn).rowsAt k = (s.rowsAt k).finalize owner commitLsn := by
  rw [(finalizeOwner_eq owner commitLsn).rowsAt, rowsAt_mapRows rfl]

theorem rowsAt_rollbackOwner (owner : Nat) (k : String) :
    (s.rollbackOwner owner).rowsAt k = (s.rowsAt k).rollback owner := by
  rw [(rollbackOwner_eq owner).rowsAt, rowsAt_mapRows rfl]

theorem rowsAt_rollbackToSavepoint (owner : Nat) (inserted deleted : List Nat) (k : String) :
    (s.rollbackToSavepoint owner inserted deleted).rowsAt k =
      (s.rowsAt k).rollbackTo owner inserted deleted := by
  rw [(rollbackToSavepoint_eq owner inserted deleted).rowsAt, rowsAt_mapRows rfl]

/-! ## One table -/

@[simp] theorem lookup_modifyTable (name : String) (f : Table → Table) (k : String) :
    (s.modifyTable name f).tables.lookup k =
      (s.tables.lookup k).map fun t => if k = key name then f t else t := by
  simp [modifyTable]

theorem table_modifyTable_self (name : String) (f : Table → Table) :
    (s.modifyTable name f).table name = (s.table name).map f := by
  simp [table]

theorem modifyTable_modifyTable (name : String) (f g : Table → Table) :
    (s.modifyTable name f).modifyTable name g = s.modifyTable name (g ∘ f) := by
  simp only [modifyTable, AList.mapVals_mapVals]
  congr 1
  apply AList.mapVals_congr
  intro k t _
  split <;> rfl

theorem modifyTable_congr {name : String} {f g : Table → Table} {t : Table} (ht : s.table name = some t)
    (h : f t = g t) : s.modifyTable name f = s.modifyTable name g := by
  simp only [modifyTable]
  congr 1
  apply AList.mapVals_congr
  intro k t' hk
  split
  · next heq =>
    subst heq
    obtain rfl : t = t' := by simpa [table, hk] using ht.symm
    exact h
  · rfl

theorem modifyTable_none {name : String} {f : Table → Table} (ht : s.table name = none) :
    s.modifyTable name f = s := by
  simp only [modifyTable]
  congr 1
  apply AList.mapVals_id
  intro k t hk
  split
  · next heq =>
    subst heq
    simp [table, hk] at ht
  · rfl

theorem modifyTable_id {name : String} {f : Table → Table} {t : Table} (ht : s.table name = some t)
    (h : f t = t) : s.modifyTable name f = s := by
  rw [modifyTable_congr (g := id) ht h, modifyTable]
  congr 1
  apply AList.mapVals_id
  intro k t' _
  split <;> rfl

end Store

end Twill
