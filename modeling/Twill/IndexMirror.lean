/-
The store operations keep the vector indexes following the rows.

`Follows removed` says that the live entries of an index are those of the stored
versions, but for the ids in `removed`. A rollback removes ids from every index
at once, whatever table they come from, and so adds them to this list; every
other operation keeps it.
-/
import Twill.IndexUpkeep

namespace Twill

open Mvcc (PENDING Op)
open Store (vectorAt)

/-- The index has an entry for each stored version of its table with a vector in its
column, those deleted at or below the floor excepted, and the ids in `removed`. -/
structure VectorIndex.Follows (ix : VectorIndex) (s : Store) (top : Nat) (removed : List Nat) : Prop where
  keyed : ix.Keyed
  linked : ix.Linked
  floor : ix.rebuildFloor ≤ top
  entries : ∃ t col, s.table ix.definition.table = some t ∧ t.schema.columnIndex ix.definition.column = some col ∧
    ix.live.Perm ((indexable t.rows col ix.rebuildFloor).filter fun p => !removed.contains p.1)

/-- Every index follows its table. -/
def Store.Indexed (s : Store) (top : Nat) (removed : List Nat) : Prop :=
  ∀ k ix, s.indexes.lookup k = some ix → ix.Follows s top removed

section

variable {s s' : Store} {ix : VectorIndex} {top : Nat} {removed : List Nat}

theorem VectorIndex.Follows.of_table (h : ix.Follows s top removed) {top' : Nat} (hle : top ≤ top')
    (htable : s'.table ix.definition.table = s.table ix.definition.table) : ix.Follows s' top' removed := by
  obtain ⟨t, col, ht, hcol, hlive⟩ := h.entries
  exact ⟨h.keyed, h.linked, h.floor.trans hle, t, col, htable.trans ht, hcol, hlive⟩

theorem Store.Indexed.of_tables (h : s.Indexed top removed) {top' : Nat} (hle : top ≤ top')
    (hindexes : s'.indexes = s.indexes) (htables : s'.tables = s.tables) : s'.Indexed top' removed := by
  intro k ix hix
  rw [hindexes] at hix
  exact (h k ix hix).of_table hle (by simp only [Store.table, htables])

/-- The index as it is, over rows that give the same entries. -/
theorem VectorIndex.Follows.of_rows (h : ix.Follows s top removed) {f : Mvcc.Rows Row → Mvcc.Rows Row}
    (htables : s'.tables = (s.mapRows f).tables)
    (hf : ∀ k t col, s.tables.lookup k = some t →
      indexable (f t.rows) col ix.rebuildFloor = indexable t.rows col ix.rebuildFloor) : ix.Follows s' top removed := by
  obtain ⟨t, col, ht, hcol, hlive⟩ := h.entries
  refine ⟨h.keyed, h.linked, h.floor, { t with rows := f t.rows }, col, ?_, hcol, ?_⟩
  · rw [Store.table, htables, Store.lookup_mapRows]
    rw [Store.table] at ht
    rw [ht]
    rfl
  · rwa [hf _ t col ht]

/-! ## Rollback -/

/-- Rolling a row set back drops some versions and clears stamps of the others. -/
theorem indexable_rolled {rows : Mvcc.Rows Row} {keep : RowVersion → Bool} {f : RowVersion → RowVersion} {col floor : Nat}
    {vids : List Nat} (hf : ∀ r, entryOf col floor (f r) = entryOf col floor r)
    (hdropped : ∀ r ∈ rows, keep r = false → r.vid ∈ vids) :
    (indexable rows col floor).filter (fun p => !vids.contains p.1) =
      (indexable ((rows.filter keep).map f) col floor).filter fun p => !vids.contains p.1 := by
  have hmap : indexable ((rows.filter keep).map f) col floor = indexable (rows.filter keep) col floor := by
    simp only [indexable, List.filterMap_map]
    exact List.filterMap_congr fun r _ => hf r
  rw [hmap]
  clear hmap
  induction rows with
  | nil => rfl
  | cons r rows ih =>
    have ih := ih fun r' hr' => hdropped r' (List.mem_cons_of_mem _ hr')
    have hcons : ∀ rows', indexable (r :: rows') col floor = (entryOf col floor r).toList ++ indexable rows' col floor := by
      intro rows'
      cases he : entryOf col floor r <;> simp [indexable, he]
    cases hkeep : keep r with
    | true => rw [List.filter_cons_of_pos hkeep, hcons, hcons, List.filter_append, List.filter_append, ih]
    | false =>
      have hvid := hdropped r List.mem_cons_self hkeep
      rw [List.filter_cons_of_neg (by simp [hkeep]), hcons, List.filter_append, ih]
      refine List.append_left_eq_self.2 (List.filter_eq_nil_iff.2 fun p hp => ?_)
      have hp : p.1 = r.vid := by
        unfold entryOf at hp
        split at hp
        · simp at hp
        · obtain ⟨v, -, rfl⟩ := Option.map_eq_some_iff.1 (Option.mem_toList.1 hp)
          rfl
      simpa [hp] using hvid

/-- A rollback over every table, with its removals from the indexes. -/
theorem Store.Indexed.rolled (h : s.Indexed top removed) {p : RowVersion → Bool} {f : RowVersion → RowVersion}
    {vids : List Nat} (hf : ∀ col floor r, entryOf col floor (f r) = entryOf col floor r)
    (hvids : ∀ k t, s.tables.lookup k = some t → ∀ r ∈ t.rows, p r = false → r.vid ∈ vids) :
    (Store.removeFromIndexes { s with tables := s.tables.mapVals fun _ t =>
      { t with rows := (t.rows.filter p).map f } } vids).Indexed top (removed ++ vids) := by
  intro k ix' hix'
  have hix' : (s.indexes.lookup k).map (fun ix => vids.foldl VectorIndex.remove ix) = some ix' := by
    have : (s.indexes.mapVals fun _ ix => vids.foldl VectorIndex.remove ix).lookup k = some ix' := hix'
    rwa [AList.lookup_mapVals] at this
  obtain ⟨ix, hix, rfl⟩ := Option.map_eq_some_iff.1 hix'
  have hfollows := h k ix hix
  obtain ⟨t, col, ht, hcol, hlive⟩ := hfollows.entries
  have hspec : ∀ (l : List Nat) (ix : VectorIndex), ix.Keyed → ix.Linked →
      (l.foldl VectorIndex.remove ix).Keyed ∧ (l.foldl VectorIndex.remove ix).Linked ∧
        (l.foldl VectorIndex.remove ix).definition = ix.definition ∧
        (l.foldl VectorIndex.remove ix).rebuildFloor = ix.rebuildFloor := by
    intro l
    induction l with
    | nil => exact fun ix hk hl => ⟨hk, hl, rfl, rfl⟩
    | cons vid l ih =>
      intro ix hk hl
      obtain ⟨hk', hl', hdef, hfloor⟩ := ih (ix.remove vid) (hk.remove vid) (hl.remove vid)
      exact ⟨hk', hl', hdef.trans (VectorIndex.remove_definition ix vid), hfloor.trans (VectorIndex.remove_floor ix vid)⟩
  obtain ⟨hk', hl', hdef, hfloor⟩ := hspec vids ix hfollows.keyed hfollows.linked
  refine ⟨hk', hl', hfloor ▸ hfollows.floor, { t with rows := (t.rows.filter p).map f }, col, ?_, hdef ▸ hcol, ?_⟩
  · rw [hdef]
    show (s.tables.mapVals _).lookup _ = _
    rw [AList.lookup_mapVals]
    rw [Store.table] at ht
    rw [ht]
    rfl
  · rw [hfloor, VectorIndex.live_removeAll hfollows.keyed]
    have hsplit : ∀ l : List (Nat × List UInt32), l.filter (fun p => !(removed ++ vids).contains p.1) =
        (l.filter fun p => !vids.contains p.1).filter fun p => !removed.contains p.1 := by
      intro l
      rw [List.filter_filter]
      refine List.filter_congr fun p _ => ?_
      simp [List.contains_eq_mem, List.mem_append]
    rw [hsplit, ← indexable_rolled (hf col ix.rebuildFloor) (hvids _ t ht)]
    refine (hlive.filter _).trans (List.Perm.of_eq ?_)
    rw [List.filter_filter, List.filter_filter]
    exact List.filter_congr fun p _ => Bool.and_comm _ _

theorem vid_mem_insertedVids {o : Nat} {k : String} {t : Table} {r : RowVersion} (ht : s.tables.lookup k = some t) (hr : r ∈ t.rows)
    (hown : r.ownInsert o = true) : r.vid ∈ s.tables.values.flatMap fun t => t.rows.insertedVids o := by
  refine List.mem_flatMap.2 ⟨t, List.mem_map.2 ⟨⟨k, t⟩, List.of_mem_dlookup ht, rfl⟩, ?_⟩
  exact List.mem_map.2 ⟨r, List.mem_filter.2 ⟨hr, hown⟩, rfl⟩

theorem Store.Indexed.rollbackOwner (h : s.Indexed top removed) (o : Nat) : (s.rollbackOwner o).Indexed top
    (removed ++ s.tables.values.flatMap fun t => t.rows.insertedVids o) := by
  refine h.rolled (p := fun r => !r.ownInsert o) (fun _ _ _ => entryOf_undelete) fun k t ht r hr hkeep => ?_
  exact vid_mem_insertedVids ht hr (by simpa using hkeep)

theorem Store.Indexed.rollbackToSavepoint (h : s.Indexed top removed) (o : Nat) (inserted deleted : List Nat) :
    (s.rollbackToSavepoint o inserted deleted).Indexed top
      (removed ++ s.tables.values.flatMap fun t => (t.rows.insertedVids o).filter fun vid => !inserted.contains vid) := by
  refine h.rolled (p := fun r => !(r.ownInsert o && !inserted.contains r.vid))
    (fun _ _ _ => entryOf_undeleteTo deleted) fun k t ht r hr hkeep => ?_
  have hkeep : r.ownInsert o = true ∧ (!inserted.contains r.vid) = true := by simpa using hkeep
  refine List.mem_flatMap.2 ⟨t, List.mem_map.2 ⟨⟨k, t⟩, List.of_mem_dlookup ht, rfl⟩, List.mem_filter.2 ⟨?_, hkeep.2⟩⟩
  exact List.mem_map.2 ⟨r, List.mem_filter.2 ⟨hr, hkeep.1⟩, rfl⟩

/-- Ids no stored version with an entry has are as good as none. -/
theorem Store.Indexed.clear (h : s.Indexed top removed)
    (hnone : ∀ k ix, s.indexes.lookup k = some ix → ∀ col, ∀ r ∈ s.rowsAt (Store.key ix.definition.table),
      (s.table ix.definition.table).bind (fun t => t.schema.columnIndex ix.definition.column) = some col →
      (vectorAt r.values col).isSome → r.vid ∉ removed) : s.Indexed top [] := by
  intro k ix hix
  have hfollows := h k ix hix
  obtain ⟨t, col, ht, hcol, hlive⟩ := hfollows.entries
  refine ⟨hfollows.keyed, hfollows.linked, hfollows.floor, t, col, ht, hcol, hlive.trans (List.Perm.of_eq ?_)⟩
  refine List.filter_congr fun p hp => ?_
  obtain ⟨r, hr, -, hv, hvid⟩ := mem_indexable.1 hp
  have hrow : r ∈ s.rowsAt (Store.key ix.definition.table) := by
    rw [Store.rowsAt_of_lookup (t := t) ht]
    exact hr
  have hnot := hnone k ix hix col r hrow (by rw [ht]; exact hcol) (by rw [hv]; rfl)
  rw [hvid] at hnot
  simpa using hnot

/-! ## Statements -/

theorem addedBy_opsFrom (next : Nat) (ws : List RowWrite) :
    ((opsFrom next ws).filterMap addedBy).map (·.1) = List.range' next (createdCount ws) := by
  induction ws generalizing next with
  | nil => rfl
  | cons w ws ih =>
    cases w with
    | added vals => simp [opsFrom, addedBy, ih, List.range'_succ]
    | rewrote old vals => simp [opsFrom, addedBy, ih, List.range'_succ, List.filterMap_cons]
    | removed old vals => simp [opsFrom, addedBy, ih, List.filterMap_cons]

/-- An index on the table grows by the entries of the rows, another one is left alone. -/
theorem grown_follow {table : String} {schema : TableSchema} {rows : List (Nat × Row)} (hk : ix.Keyed) (hl : ix.Linked)
    (hnodup : (rows.map (·.1)).Nodup) (hfresh : ∀ r ∈ rows, ∀ v, (r.1, v) ∉ ix.live) :
    VectorIndex.Grown ix (if eqIgnoreAsciiCase ix.definition.table table then
        rows.filterMap fun r => (schema.columnIndex ix.definition.column).bind fun col => rowEntry col r
      else []) (rows.foldl (VectorIndex.follow table schema) ix) := by
  by_cases hon : eqIgnoreAsciiCase ix.definition.table table = true
  · rw [if_pos hon]
    -- every index on the way has the definition of the first
    have hstep : ∀ (ix' : VectorIndex) (r : Nat × Row) (o : Option (List UInt32)), ix'.definition = ix.definition →
        schema.columnIndex ix.definition.column >>= vectorAt r.2 = o →
        ix'.follow table schema r = o.elim ix' (ix'.insert r.1) := by
      intro ix' r o hdef ho
      rw [VectorIndex.follow, hdef, if_pos hon, ho]
      cases o <;> rfl
    have hgrown := VectorIndex.grown_foldl (f := VectorIndex.follow table schema) (k := fun r : Nat × Row => r.1)
      (g := fun r => schema.columnIndex ix.definition.column >>= vectorAt r.2)
      (fun ix' r hdef hg => hstep ix' r none hdef hg) (fun ix' r v hdef hg hk hl hnone => by
        rw [hstep ix' r (some v) hdef hg]
        exact VectorIndex.insert_of_none hk hl hnone v) rfl hk hl hnodup hfresh
    refine ⟨hgrown.keyed, hgrown.linked, hgrown.live.trans ?_, hgrown.definition, hgrown.floor⟩
    congr 1
    refine List.filterMap_congr fun r _ => ?_
    cases schema.columnIndex ix.definition.column <;> rfl
  · rw [if_neg hon]
    have hsame : rows.foldl (VectorIndex.follow table schema) ix = ix := by
      clear hnodup hfresh
      induction rows with
      | nil => rfl
      | cons r rows ih =>
        have hone : ix.follow table schema r = ix := by simp [VectorIndex.follow, hon]
        rw [List.foldl_cons, hone, ih]
    rw [hsame]
    exact ⟨hk, hl, by simp, rfl, rfl⟩

/-- An INSERT that fails in its row loop has stored no row with a vector an index wants. -/
def IndexesInTime (E : Env) (st : DmlStmt) (wc : WriteCtx) (s : Store) : Prop :=
  ∀ t ins, s.table st.table = some t → st = .insert ins → ∀ staged autoinc e,
    stagedRows E s t ins wc = .ok (staged, autoinc) → (insertWrites E t s.committedLsn ins wc staged).2 = .error e →
    ∀ w ∈ (insertWrites E t s.committedLsn ins wc staged).1, ∀ k ix, s.indexes.lookup k = some ix →
      eqIgnoreAsciiCase ix.definition.table st.table = true →
      ((t.schema.columnIndex ix.definition.column).bind fun col => vectorAt w.vals col) = none

end

end Twill
