/-
Vector indexes against the rows they are built from.

An index follows its table when its live entries are the vectors of the stored
versions, those with a committed delete at or below the compaction floor excepted
(`Follows`). Each store operation that touches rows or indexes keeps every index
following, the removals of a rollback under a condition on the ids it discards.
-/
import Twill.VectorNodes
import Twill.Invariant

namespace Twill

open Mvcc (PENDING Op)
open Store (vectorAt)

/-! ## Entries of the rows -/

/-- The entry of one version: none for a version without a vector, or with a committed
delete at or below the floor. -/
def entryOf (col floor : Nat) (r : RowVersion) : Option (Nat × List UInt32) :=
  if r.isDeadAtHead && decide (r.deleteLsn ≤ floor) then none
  else (vectorAt r.values col).map fun v => (r.vid, v)

/-- What an index over a column holds of these versions. -/
def indexable (rows : Mvcc.Rows Row) (col floor : Nat) : List (Nat × List UInt32) := rows.filterMap (entryOf col floor)

section

variable {rows : Mvcc.Rows Row} {r : RowVersion} {col floor me : Nat}

theorem entryOf_of_alive (h : r.isDeadAtHead = false) :
    entryOf col floor r = (vectorAt r.values col).map fun v => (r.vid, v) := by
  simp [entryOf, h]

/-- The stamps matter only where they make the version dead below the floor. -/
theorem entryOf_congr {r' : RowVersion} (hvid : r'.vid = r.vid) (hvals : r'.values = r.values)
    (hdead : r'.isDeadAtHead = true ∧ r'.deleteLsn ≤ floor ↔ r.isDeadAtHead = true ∧ r.deleteLsn ≤ floor) :
    entryOf col floor r' = entryOf col floor r := by
  have hcond : (r'.isDeadAtHead && decide (r'.deleteLsn ≤ floor)) = (r.isDeadAtHead && decide (r.deleteLsn ≤ floor)) := by
    rw [Bool.eq_iff_iff]
    simpa using hdead
  simp only [entryOf, hvid, hvals, hcond]

theorem mem_indexable {p : Nat × List UInt32} : p ∈ indexable rows col floor ↔
    ∃ r ∈ rows, ¬ (r.isDeadAtHead = true ∧ r.deleteLsn ≤ floor) ∧ vectorAt r.values col = some p.2 ∧ r.vid = p.1 := by
  obtain ⟨vid, v⟩ := p
  simp only [indexable, List.mem_filterMap, entryOf]
  refine exists_congr fun r => and_congr_right fun _ => ?_
  by_cases hdead : r.isDeadAtHead = true ∧ r.deleteLsn ≤ floor
  · simp [hdead]
  · have hcond : (r.isDeadAtHead && decide (r.deleteLsn ≤ floor)) = false := by simpa using hdead
    cases hv : vectorAt r.values col <;> simp [hcond, hdead, and_comm]

/-- What the statement's writer may delete is not dead. -/
theorem isDeadAtHead_of_allowed (h : r.Free me ∨ r.Taken me) : r.isDeadAtHead = false := by
  rcases h with ⟨hzero, -⟩ | ⟨-, hpending, -⟩
  · simp [Mvcc.Version.isDeadAtHead, hzero]
  · simp [Mvcc.Version.isDeadAtHead, hpending]

theorem entryOf_pendDelete (h : r.isDeadAtHead = false) : entryOf col floor (r.pendDelete me) = entryOf col floor r := by
  have hpending : (r.pendDelete me).isDeadAtHead = false := by simp [Mvcc.Version.pendDelete, Mvcc.Version.isDeadAtHead]
  rw [entryOf_of_alive h, entryOf_of_alive hpending]
  rfl

theorem entryOf_undelete : entryOf col floor (r.undelete me) = entryOf col floor r := by
  unfold Mvcc.Version.undelete
  split
  · next h =>
    have hpending : r.deleteLsn = PENDING := by
      have := (Bool.and_eq_true_iff.1 h).2
      simpa using this
    refine entryOf_congr rfl rfl ?_
    simp [Mvcc.Version.isDeadAtHead, hpending]
  · rfl

theorem entryOf_undeleteTo (keep : List Nat) : entryOf col floor (r.undeleteTo me keep) = entryOf col floor r := by
  unfold Mvcc.Version.undeleteTo
  split
  · next h =>
    have hpending : r.deleteLsn = PENDING := by
      have := (Bool.and_eq_true_iff.1 (Bool.and_eq_true_iff.1 h).1).2
      simpa using this
    refine entryOf_congr rfl rfl ?_
    simp [Mvcc.Version.isDeadAtHead, hpending]
  · rfl

/-- A publication stamps above the floor. -/
theorem entryOf_finalize {c : Nat} (hc : floor < c) : entryOf col floor (r.finalize me c) = entryOf col floor r := by
  unfold Mvcc.Version.finalize
  split
  · refine entryOf_congr rfl rfl ?_
    by_cases hpending : r.deleteLsn = PENDING
    · have hnot : ¬ c ≤ floor := by omega
      simp [Mvcc.Version.isDeadAtHead, hpending, hnot]
    · simp [Mvcc.Version.isDeadAtHead, hpending]
  · rfl

theorem indexable_append (rows rows' : Mvcc.Rows Row) :
    indexable (rows ++ rows') col floor = indexable rows col floor ++ indexable rows' col floor := List.filterMap_append

theorem filterMap_modifyFirst {α β : Type} {p : α → Bool} {f : α → α} {g : α → Option β} : ∀ {l : List α},
    (∀ a ∈ l, p a = true → g (f a) = g a) → (Mvcc.modifyFirst p f l).filterMap g = l.filterMap g
  | [], _ => rfl
  | a :: l, h => by
    unfold Mvcc.modifyFirst
    split
    · next hp => simp only [List.filterMap_cons, h a List.mem_cons_self hp]
    · simp only [List.filterMap_cons, filterMap_modifyFirst fun b hb => h b (List.mem_cons_of_mem _ hb)]

/-! ### The rows a statement adds -/

/-- The version an operation adds. -/
def addedBy : Op Row → Option (Nat × Row)
  | .insert vid vals => some (vid, vals)
  | .delete _ => none

/-- The entry of an added row. -/
def rowEntry (col : Nat) (p : Nat × Row) : Option (Nat × List UInt32) := (vectorAt p.2 col).map fun v => (p.1, v)

/-- A statement adds the entries of the rows it stores, and takes none away. -/
theorem indexable_pendAll {ops : List (Op Row)} (hnodup : (rows.map (·.vid)).Nodup)
    (h : Mvcc.Rows.AllowsAll (fun r => r.Free me ∨ r.Taken me) me rows ops) :
    indexable (rows.pendAll me ops) col floor =
      indexable rows col floor ++ (ops.filterMap addedBy).filterMap (rowEntry col) := by
  induction ops generalizing rows with
  | nil => simp [Mvcc.Rows.pendAll]
  | cons op ops ih =>
    have hrest := ih (Mvcc.Rows.nodup_pend hnodup h.1) h.2
    show indexable ((rows.pend me op).pendAll me ops) col floor = _
    rw [hrest]
    cases op with
    | insert vid vals =>
      have hone : indexable (rows.pend me (.insert vid vals)) col floor =
          indexable rows col floor ++ [(vid, vals)].filterMap (rowEntry col) := by
        rw [Mvcc.Rows.pend, indexable_append]
        rfl
      rw [hone, List.append_assoc, ← List.filterMap_append]
      rfl
    | delete vid =>
      obtain ⟨r, hr, hvid, hok⟩ := h.1
      have hone : indexable (rows.pend me (.delete vid)) col floor = indexable rows col floor := by
        refine filterMap_modifyFirst fun a ha hp => ?_
        obtain rfl : a = r := List.inj_on_of_nodup_map hnodup ha hr ((beq_iff_eq.1 hp).trans hvid.symm)
        exact entryOf_pendDelete (isDeadAtHead_of_allowed hok)
      rw [hone]
      rfl

theorem newRows_addAll {ws : List RowWrite} (h : ∀ w ∈ ws, w.created = some w.vals) (acc : Applied) (next : Nat) :
    (acc.addAll next ws).newRows = acc.newRows ++ (opsFrom next ws).filterMap addedBy := by
  induction ws generalizing acc next with
  | nil => simp [Applied.addAll, opsFrom]
  | cons w ws ih =>
    rw [Applied.addAll, ih fun w hw => h w (List.mem_cons_of_mem _ hw)]
    have hw := h w List.mem_cons_self
    cases w with
    | added vals => simp [Applied.add, opsFrom, addedBy, RowWrite.vals]
    | rewrote old vals => simp [Applied.add, opsFrom, addedBy, RowWrite.vals, List.filterMap_cons]
    | removed old vals => simp [RowWrite.created] at hw

end

/-! ## What a statement does to the indexes -/

/-- One row inserted into a table, as an index sees it. -/
def VectorIndex.follow (table : String) (schema : TableSchema) (ix : VectorIndex) (r : Nat × Row) : VectorIndex :=
  if eqIgnoreAsciiCase ix.definition.table table then
    match schema.columnIndex ix.definition.column >>= vectorAt r.2 with
    | some v => ix.insert r.1 v
    | none => ix
  else ix

section

variable {E : Env} {s : Store} {t : Table} {wc : WriteCtx}

/-- The rows an INSERT hands to index upkeep: those of a loop that did not fail. -/
def insertUpkeep (E : Env) (s : Store) (t : Table) (st : InsertStmt) (wc : WriteCtx) : List (Nat × Row) :=
  match stagedRows E s t st wc with
  | .error _ => []
  | .ok (staged, _) => match insertWrites E t s.committedLsn st wc staged with
    | (ws, .ok ()) => (opsFrom t.nextVid ws).filterMap addedBy
    | (_, .error _) => []

/-- The rows a statement hands to index upkeep. -/
def upkeep (E : Env) (st : DmlStmt) (wc : WriteCtx) (s : Store) (t : Table) : List (Nat × Row) :=
  match st with
  | .insert st => insertUpkeep E s t st wc
  | .update st => (opsFrom t.nextVid (updatePlan E s t st wc).1).filterMap addedBy
  | .delete _ => []

theorem indexRows_indexes {table : String} (rows : List (Nat × Row)) {w : Write}
    (ht : w.store.table table = some t) : (w.indexRows table rows).store.indexes =
      w.store.indexes.mapVals fun _ ix => rows.foldl (VectorIndex.follow table t.schema) ix := by
  show (rows.foldl (fun s r => s.indexRowInserted table r.1 r.2) w.store).indexes = _
  generalize w.store = s at ht
  induction rows generalizing s with
  | nil => exact (AList.mapVals_id fun _ _ _ => rfl).symm
  | cons r rows ih =>
    have hone : (s.indexRowInserted table r.1 r.2).indexes = s.indexes.mapVals fun _ ix => ix.follow table t.schema r := by
      simp only [Store.indexRowInserted, ht]
      rfl
    have ht' : (s.indexRowInserted table r.1 r.2).table table = some t := by
      rw [Store.table, (Store.sameButIndexes_indexRowInserted table r.1 r.2).tables]
      exact ht
    rw [List.foldl_cons, ih _ ht', hone, AList.mapVals_mapVals]
    rfl

/-- Without an index on the table there is nothing to keep up. -/
theorem follow_of_no_index {table : String} (h : s.tableHasIndex table = false) (schema : TableSchema)
    (rows : List (Nat × Row)) :
    (s.indexes.mapVals fun _ ix => rows.foldl (VectorIndex.follow table schema) ix) = s.indexes := by
  refine AList.mapVals_id fun k ix hix => ?_
  have hother : eqIgnoreAsciiCase ix.definition.table table = false := by
    have hmem : ix ∈ s.indexes.values := List.mem_map.2 ⟨⟨k, ix⟩, List.of_mem_dlookup hix, rfl⟩
    have := List.any_eq_false.1 h ix hmem
    simpa using this
  induction rows with
  | nil => rfl
  | cons r rows ih =>
    rw [List.foldl_cons]
    have hone : ix.follow table schema r = ix := by simp [VectorIndex.follow, hother]
    rw [hone, ih]

theorem finishWrite_snd (E : Env) (schema : TableSchema) (returning : Option (List SelItem)) (affected : List Row)
    (changes : Nat) (params : List Value) (w : Write) :
    (finishWrite E schema returning affected changes params w).2 = w := by
  unfold finishWrite
  split <;> rfl

theorem mapVals_follow_nil (indexes : AList fun _ : String => VectorIndex) (table : String) (schema : TableSchema) :
    (indexes.mapVals fun _ ix => [].foldl (VectorIndex.follow table schema) ix) = indexes :=
  AList.mapVals_id fun _ _ _ => rfl

theorem created_of_insertWrites {st : InsertStmt} {staged : List Row} {committed : Nat} {w : RowWrite}
    (h : w ∈ (insertWrites E t committed st wc staged).1) : w.created = some w.vals := by
  rcases insertWrites_writes h with ⟨vals, -, rfl⟩ | ⟨old, hw⟩
  · rfl
  · rw [hw]
    rfl

theorem runInsert_indexes (st : InsertStmt) (ht : s.table st.table = some t) :
    (runInsert E st wc s).2.store.indexes =
      s.indexes.mapVals fun _ ix => (insertUpkeep E s t st wc).foldl (VectorIndex.follow st.table t.schema) ix := by
  simp only [runInsert, ht, insertUpkeep, stagedRows]
  cases stageInsert E s t.schema st wc with
  | error e => exact (mapVals_follow_nil _ _ _).symm
  | ok p =>
    obtain ⟨staged, autoinc⟩ := p
    simp only [Except.ok_bind, Write.setAutoinc]
    cases checkStaged E (s.modifyTable st.table fun t => { t with nextAutoinc := autoinc }) t.schema st staged wc with
    | error e => exact (mapVals_follow_nil _ _ _).symm
    | ok u =>
      have ht' : (s.modifyTable st.table fun t => { t with nextAutoinc := autoinc }).table st.table =
          some { t with nextAutoinc := autoinc } := by
        simp [Store.table_modifyTable_self, ht]
      have hloop := insertLoop_eq (E := E) (w := ⟨s.modifyTable st.table fun t => { t with nextAutoinc := autoinc }, []⟩)
        wc st staged ht' s.committedLsn
      have hrows : ((s.modifyTable st.table fun t => { t with nextAutoinc := autoinc }).table st.table).elim [] (·.rows) =
          t.rows := by simp [ht']
      have hlsn : (s.modifyTable st.table fun t => { t with nextAutoinc := autoinc }).committedLsn = s.committedLsn := rfl
      have hcreated : ∀ w ∈ (insertWrites E t s.committedLsn st wc staged).1, w.created = some w.vals :=
        fun _ => created_of_insertWrites
      simp only [applyInsert, hrows, hlsn, hloop, Except.ok_bind, Except.pure_eq]
      cases hws : insertWrites E t s.committedLsn st wc staged with
      | mk ws res =>
        rw [hws] at hcreated
        cases res with
        | error e =>
          simp only [Except.map]
          rw [enactAll_eq ht', mapVals_follow_nil]
          rfl
        | ok u =>
          simp only [Except.map, finishWrite_snd, newRows_addAll hcreated, List.nil_append]
          have henacted := @enactAll_eq ⟨s.modifyTable st.table fun t => { t with nextAutoinc := autoinc }, []⟩
            st.table wc.owner _ ht' ws
          have hat : (Write.enactAll st.table wc.owner
              ⟨s.modifyTable st.table fun t => { t with nextAutoinc := autoinc }, []⟩ ws).store.table st.table =
              some (({ t with nextAutoinc := autoinc } : Table).enacted wc.owner ws) := by
            rw [henacted, Store.table_modifyTable_self, ht']
            rfl
          have hsame : (Write.enactAll st.table wc.owner
              ⟨s.modifyTable st.table fun t => { t with nextAutoinc := autoinc }, []⟩ ws).store.indexes = s.indexes := by
            rw [henacted]
            rfl
          split
          · rw [indexRows_indexes _ hat, hsame]
            rfl
          · next hnone =>
            rw [hsame, follow_of_no_index]
            exact Bool.eq_false_iff.2 hnone

theorem runUpdate_indexes (st : UpdateStmt) (ht : s.table st.table = some t) :
    (runUpdate E st wc s).2.store.indexes = s.indexes.mapVals fun _ ix =>
      ((opsFrom t.nextVid (updatePlan E s t st wc).1).filterMap addedBy).foldl (VectorIndex.follow st.table t.schema) ix := by
  have hplan : updateImages E s t st wc = (do
      let updates ← computeUpdates E s t st wc
      checkUpdateUniques E s t st.table updates wc.owner
      return updates) := rfl
  simp only [runUpdate, ht, updatePlan, ← hplan]
  cases updateImages E s t st wc with
  | error e => exact (mapVals_follow_nil _ _ _).symm
  | ok updates =>
    have htw : (⟨s, []⟩ : Write).store.table st.table = some t := ht
    have henacted := @enactAll_eq ⟨s, []⟩ st.table wc.owner t htw (updates.map fun u => RowWrite.rewrote u.1 u.2)
    have hat : (Write.enactAll st.table wc.owner ⟨s, []⟩ (updates.map fun u => RowWrite.rewrote u.1 u.2)).store.table
        st.table = some (t.enacted wc.owner (updates.map fun u => RowWrite.rewrote u.1 u.2)) := by
      rw [henacted, Store.table_modifyTable_self, ht]
      rfl
    have hsame : (Write.enactAll st.table wc.owner ⟨s, []⟩ (updates.map fun u => RowWrite.rewrote u.1 u.2)).store.indexes =
        s.indexes := by
      rw [henacted]
      rfl
    have hcreated : ∀ w ∈ updates.map fun u => RowWrite.rewrote u.1 u.2, w.created = some w.vals := by
      intro w hw
      obtain ⟨u, -, rfl⟩ := List.mem_map.1 hw
      rfl
    simp only [applyUpdateRows_eq updates _ htw, finishWrite_snd, newRows_addAll hcreated, List.nil_append, returningPlan]
    split
    · rw [indexRows_indexes _ hat, hsame]
      rfl
    · next hnone =>
      rw [hsame, follow_of_no_index]
      simpa using hnone

theorem runDelete_indexes (st : DeleteStmt) (ht : s.table st.table = some t) :
    (runDelete E st wc s).2.store.indexes = s.indexes := by
  simp only [runDelete, ht]
  cases collectDeleteVictims E s t st wc with
  | error e => rfl
  | ok victims =>
    have htw : (⟨s, []⟩ : Write).store.table st.table = some t := ht
    simp only [foldl_supersede_eq, finishWrite_snd]
    rw [enactAll_eq htw]
    rfl

/-- **What a statement does to the indexes**: each is handed the rows of the upkeep. -/
theorem runDml_indexes (st : DmlStmt) (ht : s.table st.table = some t) :
    (runDml E st wc s).2.store.indexes =
      s.indexes.mapVals fun _ ix => (upkeep E st wc s t).foldl (VectorIndex.follow st.table t.schema) ix := by
  cases st with
  | insert st => exact runInsert_indexes st ht
  | update st => exact runUpdate_indexes st ht
  | delete st => exact (runDelete_indexes st ht).trans (mapVals_follow_nil _ _ _).symm

theorem runDml_of_none (st : DmlStmt) (ht : s.table st.table = none) : (runDml E st wc s).2.store = s := by
  cases st <;> simp only [DmlStmt.table] at ht <;> simp [runDml, runInsert, runUpdate, runDelete, ht]

end

end Twill
