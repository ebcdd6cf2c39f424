/-
A write statement as a plan and its enactment.

What a statement writes is decided by the store it starts from: `dmlPlan`
computes the row writes in order, and how the statement ends. `runDml_plan`
says that running the statement is enacting its plan, also when it stops early:
the writes before the stop stay.
-/
import Twill.Dml
import Twill.StoreFacts
import Twill.Lib.Except

namespace Twill

open Mvcc (PENDING Op)

/-- One row write: a new row, a row rewritten in place of a version, or a
version removed (with the image it had). -/
inductive RowWrite where
  | added (vals : Row)
  | rewrote (old : Nat) (vals : Row)
  | removed (old : Nat) (vals : Row)
  deriving DecidableEq, Repr

namespace RowWrite

/-- The row the write affects, as RETURNING sees it. -/
def vals : RowWrite → Row
  | .added vals => vals
  | .rewrote _ vals => vals
  | .removed _ vals => vals

/-- The image the write stores. -/
def created : RowWrite → Option Row
  | .added vals => some vals
  | .rewrote _ vals => some vals
  | .removed _ _ => none

/-- The version the write supersedes. -/
def superseded : RowWrite → Option Nat
  | .added _ => none
  | .rewrote old _ => some old
  | .removed old _ => some old

end RowWrite

/-- The row changes of a list of writes, new versions numbered from `next`. -/
def opsFrom : Nat → List RowWrite → List (Op Row)
  | _, [] => []
  | next, .added vals :: ws => .insert next vals :: opsFrom (next + 1) ws
  | next, .rewrote old vals :: ws => .delete old :: .insert next vals :: opsFrom (next + 1) ws
  | next, .removed old _ :: ws => .delete old :: opsFrom next ws

def createdCount (ws : List RowWrite) : Nat := (ws.filterMap RowWrite.created).length

@[simp] theorem createdCount_nil : createdCount [] = 0 := rfl

@[simp] theorem createdCount_added (vals : Row) (ws : List RowWrite) :
    createdCount (.added vals :: ws) = createdCount ws + 1 := rfl

@[simp] theorem createdCount_rewrote (old : Nat) (vals : Row) (ws : List RowWrite) :
    createdCount (.rewrote old vals :: ws) = createdCount ws + 1 := rfl

@[simp] theorem createdCount_removed (old : Nat) (vals : Row) (ws : List RowWrite) :
    createdCount (.removed old vals :: ws) = createdCount ws := rfl

/-- The WAL record of a row change. -/
def toWal (table : String) : Op Row → WalOp
  | .insert vid values => .insert table vid values
  | .delete vid => .delete table vid

/-! ## Plans -/

/-- The image a version id has among those stored and those written so far. -/
def imageOf (images : List (Nat × Row)) (vid : Nat) : Option Row :=
  (images.find? fun p => p.1 == vid).map (·.2)

/-- What one staged row does, given the version its key clashes with; `none`
when it is skipped. -/
def planRow (E : Env) (schema : TableSchema) (table : String) (params : List Value)
    (onConflict : OnConflict) (images : List (Nat × Row)) (vals : Row) (clash : Option Nat) :
    Res (Option RowWrite) :=
  match clash with
  | none => .ok (some (.added vals))
  | some old => match onConflict with
    | .error => .error (pkClash schema table)
    | .nothing => .ok none
    | .replace => .ok (some (.rewrote old vals))
    | .update sets filter => match imageOf images old with
      | none => .error (EngineError.sql "ON CONFLICT DO UPDATE cannot affect one row twice")
      | some existing => do
        return (← upsertImage E schema table params existing vals sets filter).map (RowWrite.rewrote old)

/-- The staged rows of a table with a primary key, up to the first that stops. -/
def planRows (E : Env) (schema : TableSchema) (table : String) (params : List Value)
    (onConflict : OnConflict) (pending : List String) :
    List Row → (AList fun _ : String => Nat) → List (Nat × Row) → Nat → List RowWrite × Res Unit
  | [], _, _, _ => ([], .ok ())
  | vals :: staged, live, images, next =>
    let key := compositeKey E.prims vals schema.primaryKeyIndices
    if pending.contains key then ([], .error (pkPending schema table "inserted"))
    else match planRow E schema table params onConflict images vals (live.lookup key) with
      | .error e => ([], .error e)
      | .ok none => planRows E schema table params onConflict pending staged live images next
      | .ok (some w) =>
        let rest := planRows E schema table params onConflict pending staged (live.insert key next)
          (images ++ [(next, w.vals)]) (next + 1)
        (w :: rest.1, rest.2)

/-- The versions of a table with their images. -/
def storedImages (rows : Mvcc.Rows Row) : List (Nat × Row) := rows.map fun r => (r.vid, r.values)

/-- The row writes of an INSERT whose staged rows passed every check. -/
def insertWrites (E : Env) (t : Table) (committed : Nat) (st : InsertStmt) (wc : WriteCtx)
    (staged : List Row) : List RowWrite × Res Unit :=
  let pk := t.schema.primaryKeyIndices
  if pk.isEmpty then (staged.map RowWrite.added, .ok ())
  else planRows E t.schema st.table wc.params st.onConflict
    (pendingKeys E.prims t.rows committed pk wc.owner) staged
    (liveVids E.prims t.rows committed pk wc.owner) (storedImages t.rows) t.nextVid

/-- A statement's row writes and its answer: the RETURNING rows, or what
stopped it after those writes. -/
abbrev Plan := List RowWrite × Res (Option ResultSet)

/-- Ends a plan with its RETURNING rows. -/
def returningPlan (E : Env) (schema : TableSchema) (returning : Option (List SelItem))
    (params : List Value) (ws : List RowWrite) : Plan :=
  (ws, returningRows E schema returning (ws.map RowWrite.vals) params)

/-- The rows an INSERT stages, every check before the first mutation passed. -/
def stagedRows (E : Env) (store : Store) (t : Table) (st : InsertStmt) (wc : WriteCtx) :
    Res (List Row × Int64) := do
  let (staged, autoinc) ← stageInsert E store t.schema st wc
  checkStaged E (store.modifyTable st.table fun t => { t with nextAutoinc := autoinc }) t.schema st staged wc
  return (staged, autoinc)

def insertPlan (E : Env) (store : Store) (t : Table) (st : InsertStmt) (wc : WriteCtx) : Plan :=
  match stagedRows E store t st wc with
  | .error e => ([], .error e)
  | .ok (staged, _) => match insertWrites E t store.committedLsn st wc staged with
    | (ws, .error e) => (ws, .error e)
    | (ws, .ok ()) => returningPlan E t.schema st.returning wc.params ws

/-- The checked images of an UPDATE, before the first mutation. -/
def updateImages (E : Env) (store : Store) (t : Table) (st : UpdateStmt) (wc : WriteCtx) :
    Res (List (Nat × Row)) := do
  let updates ← computeUpdates E store t st wc
  checkUpdateUniques E store t st.table updates wc.owner
  return updates

def updatePlan (E : Env) (store : Store) (t : Table) (st : UpdateStmt) (wc : WriteCtx) : Plan :=
  match updateImages E store t st wc with
  | .error e => ([], .error e)
  | .ok updates => returningPlan E t.schema st.returning wc.params
      (updates.map fun u => RowWrite.rewrote u.1 u.2)

def deletePlan (E : Env) (store : Store) (t : Table) (st : DeleteStmt) (wc : WriteCtx) : Plan :=
  match collectDeleteVictims E store t st wc with
  | .error e => ([], .error e)
  | .ok victims => returningPlan E t.schema st.returning wc.params
      (victims.map fun v => RowWrite.removed v.1 v.2)

def dmlPlan (E : Env) (st : DmlStmt) (wc : WriteCtx) (store : Store) : Plan :=
  match store.table st.table with
  | none => ([], .error (noSuchTable st.table))
  | some t => match st with
    | .insert st => insertPlan E store t st wc
    | .update st => updatePlan E store t st wc
    | .delete st => deletePlan E store t st wc

/-! ## Enactment -/

def Write.enact (table : String) (owner : Nat) (w : Write) : RowWrite → Write
  | .added vals => w.append table vals owner
  | .rewrote old vals => (w.supersede table old owner).append table vals owner
  | .removed old _ => w.supersede table old owner

def Write.enactAll (table : String) (owner : Nat) (w : Write) (ws : List RowWrite) : Write :=
  ws.foldl (Write.enact table owner) w

/-- The row loop's accumulator after a list of writes. -/
def Applied.addAll (acc : Applied) : Nat → List RowWrite → Applied
  | _, [] => acc
  | next, w :: ws => Applied.addAll (acc.add next w.vals) (next + 1) ws

/-- A table after a list of writes. -/
def Table.enacted (owner : Nat) (ws : List RowWrite) (t : Table) : Table :=
  { t with
    rows := t.rows.pendAll owner (opsFrom t.nextVid ws)
    nextVid := t.nextVid + createdCount ws }

theorem Table.enacted_enacted (owner : Nat) (w : RowWrite) (ws : List RowWrite) (t : Table) :
    (t.enacted owner [w]).enacted owner ws = t.enacted owner (w :: ws) := by
  cases w <;> simp [Table.enacted, opsFrom, Mvcc.Rows.pendAll] <;> omega

section Enact

variable {w : Write} {table : String} {owner : Nat} {t : Table}

theorem enact_eq (ht : w.store.table table = some t) (rw : RowWrite) :
    w.enact table owner rw = ⟨w.store.modifyTable table (Table.enacted owner [rw]),
      w.wal ++ (opsFrom t.nextVid [rw]).map (toWal table)⟩ := by
  cases rw with
  | added vals =>
    simp [Write.enact, Write.append, nextVidOf, ht, opsFrom, toWal]
    rfl
  | rewrote old vals =>
    simp [Write.enact, Write.append, Write.supersede, nextVidOf, Store.table_modifyTable_self,
      Store.modifyTable_modifyTable, ht, opsFrom, toWal]
    rfl
  | removed old vals =>
    simp [Write.enact, Write.supersede, opsFrom, toWal]
    rfl

theorem enactAll_eq (ht : w.store.table table = some t) (ws : List RowWrite) :
    w.enactAll table owner ws = ⟨w.store.modifyTable table (Table.enacted owner ws),
      w.wal ++ (opsFrom t.nextVid ws).map (toWal table)⟩ := by
  induction ws generalizing w t with
  | nil =>
    rw [Store.modifyTable_id ht rfl]
    simp [Write.enactAll, opsFrom]
  | cons rw ws ih =>
    have ht' : (w.enact table owner rw).store.table table = some (t.enacted owner [rw]) := by
      rw [enact_eq ht, Store.table_modifyTable_self, ht]
      rfl
    show (w.enact table owner rw).enactAll table owner ws = _
    rw [ih ht', enact_eq ht]
    simp only [Store.modifyTable_modifyTable, List.append_assoc, Write.mk.injEq]
    refine ⟨?_, ?_⟩
    · congr 1
      funext t'
      exact Table.enacted_enacted owner rw ws t'
    · congr 1
      cases rw <;> simp [Table.enacted, opsFrom]

/-! ## The loops -/

theorem imageOf_stored (vid : Nat) : imageOf (storedImages t.rows) vid = (t.version vid).map (·.values) := by
  simp [imageOf, storedImages, Table.version, Mvcc.Rows.find, List.find?_map, Function.comp_def]

/-- One staged row enacts its plan. -/
theorem applyInsertRow_eq (E : Env) (schema : TableSchema) (wc : WriteCtx) (onConflict : OnConflict)
    (vals : Row) (clash : Option Nat) (ht : w.store.table table = some t) :
    applyInsertRow E schema table wc onConflict vals clash w =
      match planRow E schema table wc.params onConflict (storedImages t.rows) vals clash with
      | .error e => (.error e, w)
      | .ok none => (.ok none, w)
      | .ok (some rw) => (.ok (some rw.vals), w.enact table wc.owner rw) := by
  cases clash with
  | none => rfl
  | some old =>
    cases onConflict with
    | error | nothing | replace => rfl
    | update sets filter =>
      have hversion : (some t >>= fun t => t.version old) = t.version old := rfl
      simp only [applyInsertRow, upsertUpdate, planRow, ht, imageOf_stored, hversion]
      cases t.version old with
      | none => rfl
      | some r =>
        simp only [Option.map_some]
        cases himg : upsertImage E schema table wc.params r.values vals sets filter with
        | error e => simp
        | ok o => cases o <;> simp [RowWrite.vals, Write.enact]

/-- The ways a staged row comes to be written. -/
theorem planRow_cases {E : Env} {schema : TableSchema} {params : List Value} {onConflict : OnConflict}
    {images : List (Nat × Row)} {vals : Row} {clash : Option Nat} {rw : RowWrite}
    (h : planRow E schema table params onConflict images vals clash = .ok (some rw)) :
    (clash = none ∧ rw = .added vals) ∨
    (∃ old, clash = some old ∧ onConflict = .replace ∧ rw = .rewrote old vals) ∨
    ∃ old sets filter existing nv, clash = some old ∧ onConflict = .update sets filter ∧
      imageOf images old = some existing ∧
      upsertImage E schema table params existing vals sets filter = .ok (some nv) ∧ rw = .rewrote old nv := by
  unfold planRow at h
  split at h
  · simp only [Except.ok.injEq, Option.some.injEq] at h
    exact .inl ⟨rfl, h.symm⟩
  · next old =>
    right
    split at h
    · simp at h
    · simp at h
    · simp only [Except.ok.injEq, Option.some.injEq] at h
      exact .inl ⟨old, rfl, rfl, h.symm⟩
    · next sets filter =>
      split at h
      · simp at h
      · next existing himg =>
        obtain ⟨o, ho, h⟩ := Except.bind_eq_ok.1 h
        simp only [Except.pure_eq, Except.ok.injEq] at h
        obtain ⟨nv, rfl, rfl⟩ := Option.map_eq_some_iff.1 h
        exact .inr ⟨old, sets, filter, existing, nv, rfl, rfl, himg, ho, rfl⟩

theorem planRow_created {E : Env} {schema : TableSchema} {params : List Value} {onConflict : OnConflict}
    {images : List (Nat × Row)} {vals : Row} {clash : Option Nat} {rw : RowWrite}
    (h : planRow E schema table params onConflict images vals clash = .ok (some rw)) :
    (clash = none ∧ rw = .added vals) ∨ ∃ old, clash = some old ∧ rw = .rewrote old rw.vals := by
  rcases planRow_cases h with hadd | ⟨old, hc, -, rfl⟩ | ⟨old, _, _, _, nv, hc, -, -, -, rfl⟩
  · exact .inl hadd
  · exact .inr ⟨old, hc, rfl⟩
  · exact .inr ⟨old, hc, rfl⟩

theorem storedImages_pendAll {rows : Mvcc.Rows Row} {next : Nat} (rw : RowWrite)
    (h : rw = .added rw.vals ∨ ∃ old, rw = .rewrote old rw.vals) :
    storedImages (rows.pendAll owner (opsFrom next [rw])) = storedImages rows ++ [(next, rw.vals)] := by
  have hdel : ∀ old, storedImages (rows.pend owner (.delete old)) = storedImages rows := by
    intro old
    have himage : ∀ r : RowVersion, ((r.pendDelete owner).vid, (r.pendDelete owner).values) = (r.vid, r.values) :=
      fun _ => rfl
    exact Mvcc.map_modifyFirst himage _
  rcases h with h | ⟨old, h⟩
  · rw [h]
    simp [opsFrom, Mvcc.Rows.pendAll, Mvcc.Rows.pend, storedImages, RowWrite.vals]
  · rw [h, ← hdel old]
    simp [opsFrom, Mvcc.Rows.pendAll, Mvcc.Rows.pend, storedImages, RowWrite.vals]

theorem lastVid_enact (ht : w.store.table table = some t) (rw : RowWrite)
    (h : rw = .added rw.vals ∨ ∃ old, rw = .rewrote old rw.vals) :
    lastVid (w.enact table owner rw).store table = t.nextVid := by
  rw [enact_eq ht, lastVid, Store.table_modifyTable_self, ht]
  rcases h with h | ⟨old, h⟩ <;> rw [h] <;>
    simp [Table.enacted, opsFrom, Mvcc.Rows.pendAll, Mvcc.Rows.pend]

theorem applyRows_eq (E : Env) (schema : TableSchema) (wc : WriteCtx) (onConflict : OnConflict)
    (pending : List String) (staged : List Row) (live : AList fun _ : String => Nat) (acc : Applied)
    (ht : w.store.table table = some t) :
    applyRows E schema table wc onConflict pending staged live acc w =
      let p := planRows E schema table wc.params onConflict pending staged live (storedImages t.rows) t.nextVid
      (p.2.map fun _ => acc.addAll t.nextVid p.1, w.enactAll table wc.owner p.1) := by
  induction staged generalizing live acc w t with
  | nil => rfl
  | cons vals staged ih =>
    simp only [applyRows, planRows, applyInsertRow_eq E schema wc onConflict vals _ ht]
    split
    · rfl
    · cases hrow : planRow E schema table wc.params onConflict (storedImages t.rows) vals
          (live.lookup (compositeKey E.prims vals schema.primaryKeyIndices)) with
      | error e => rfl
      | ok o =>
        cases o with
        | none => exact ih live acc ht
        | some rw =>
          have hrw : rw = .added rw.vals ∨ ∃ old, rw = .rewrote old rw.vals := by
            rcases planRow_created hrow with ⟨-, rfl⟩ | ⟨old, -, h⟩
            · exact .inl rfl
            · exact .inr ⟨old, h⟩
          have ht' : (w.enact table wc.owner rw).store.table table = some (t.enacted wc.owner [rw]) := by
            rw [enact_eq ht, Store.table_modifyTable_self, ht]
            rfl
          have hnext : (t.enacted wc.owner [rw]).nextVid = t.nextVid + 1 := by
            rcases hrw with h | ⟨old, h⟩ <;> rw [h] <;> rfl
          have himages : storedImages (t.enacted wc.owner [rw]).rows =
              storedImages t.rows ++ [(t.nextVid, rw.vals)] := storedImages_pendAll rw hrw
          simp only [lastVid_enact ht rw hrw]
          rw [ih _ _ ht', himages, hnext]
          rfl

theorem appendRows_eq (staged : List Row) (acc : Applied) (ht : w.store.table table = some t) :
    appendRows table owner staged acc w =
      (acc.addAll t.nextVid (staged.map RowWrite.added), w.enactAll table owner (staged.map RowWrite.added)) := by
  induction staged generalizing acc w t with
  | nil => rfl
  | cons vals staged ih =>
    have ht' : (w.append table vals owner).store.table table = some (t.enacted owner [.added vals]) := by
      simp only [Write.append, Store.table_modifyTable_self, ht]
      rfl
    have hvid : nextVidOf w.store table = t.nextVid := by simp [nextVidOf, ht]
    rw [appendRows, ih _ ht', hvid]
    rfl

theorem applyUpdateRows_eq (updates : List (Nat × Row)) (acc : Applied) (ht : w.store.table table = some t) :
    applyUpdateRows table owner updates acc w =
      (acc.addAll t.nextVid (updates.map fun u => RowWrite.rewrote u.1 u.2),
        w.enactAll table owner (updates.map fun u => RowWrite.rewrote u.1 u.2)) := by
  induction updates generalizing acc w t with
  | nil => rfl
  | cons u updates ih =>
    have ht' : (w.enact table owner (.rewrote u.1 u.2)).store.table table =
        some (t.enacted owner [.rewrote u.1 u.2]) := by
      rw [enact_eq ht, Store.table_modifyTable_self, ht]
      rfl
    have hvid : nextVidOf (w.supersede table u.1 owner).store table = t.nextVid := by
      simp [nextVidOf, Write.supersede, Store.table_modifyTable_self, ht]
    obtain ⟨old, nv⟩ := u
    simp only [applyUpdateRows, hvid]
    exact ih _ ht'

theorem foldl_supersede_eq (victims : List (Nat × Row)) :
    victims.foldl (fun w v => w.supersede table v.1 owner) w =
      w.enactAll table owner (victims.map fun v => RowWrite.removed v.1 v.2) := by
  rw [Write.enactAll, List.foldl_map]
  rfl

theorem affected_addAll (acc : Applied) (next : Nat) (ws : List RowWrite) :
    (acc.addAll next ws).affected = acc.affected ++ ws.map RowWrite.vals := by
  induction ws generalizing acc next with
  | nil => simp [Applied.addAll]
  | cons rw ws ih => simp [Applied.addAll, ih, Applied.add]

end Enact

/-! ## The whole statement -/

/-- What a statement with these row writes leaves behind. -/
structure Enacts (table : String) (owner : Nat) (s : Store) (ws : List RowWrite) (w : Write) : Prop where
  wal : w.wal = (opsFrom (nextVidOf s table) ws).map (toWal table)
  store : ∃ autoinc : Table → Int64, Store.SameButIndexes
    (s.modifyTable table fun t => { t.enacted owner ws with nextAutoinc := autoinc t }) w.store
  indexes : ws = [] → w.store.indexes = s.indexes

section Statement

variable {E : Env} {s : Store} {t : Table} {wc : WriteCtx}

theorem Enacts.stopped (table : String) (owner : Nat) (s : Store) : Enacts table owner s [] ⟨s, []⟩ := by
  refine ⟨rfl, ⟨fun t => t.nextAutoinc, ?_⟩, fun _ => rfl⟩
  cases ht : s.table table with
  | none =>
    rw [Store.modifyTable_none ht]
    exact .refl
  | some t =>
    rw [Store.modifyTable_id ht rfl]
    exact .refl

/-- Writes enacted on the store with its counter moved. -/
theorem Enacts.of_enactAll {table : String} (owner : Nat) (ht : s.table table = some t)
    (autoinc : Table → Int64) (ws : List RowWrite) :
    Enacts table owner s ws ((⟨s.modifyTable table fun t => { t with nextAutoinc := autoinc t }, []⟩ : Write).enactAll
      table owner ws) := by
  have ht' : (s.modifyTable table fun t => { t with nextAutoinc := autoinc t }).table table =
      some { t with nextAutoinc := autoinc t } := by
    rw [Store.table_modifyTable_self, ht]
    rfl
  have hvid : nextVidOf s table = t.nextVid := by simp [nextVidOf, ht]
  rw [enactAll_eq ht']
  refine ⟨by rw [hvid]; rfl, ⟨autoinc, ?_⟩, fun _ => rfl⟩
  rw [Store.modifyTable_modifyTable]
  exact .refl

/-- Index upkeep changes nothing else. -/
theorem Enacts.indexRows {table : String} {owner : Nat} {ws : List RowWrite} {w : Write}
    (h : Enacts table owner s ws w) {rows : List (Nat × Row)} (hrows : ws = [] → rows = []) :
    Enacts table owner s ws (w.indexRows table rows) := by
  obtain ⟨hwal, ⟨autoinc, hstore⟩, hindexes⟩ := h
  refine ⟨hwal, ⟨autoinc, hstore.trans ?_⟩, fun hws => ?_⟩
  · exact Store.SameButIndexes.foldl
      (fun _ (r : Nat × Row) => Store.sameButIndexes_indexRowInserted table r.1 r.2) rows w.store
  · rw [hrows hws]
    exact hindexes hws

theorem newRows_addAll_nil (next : Nat) {ws : List RowWrite} (h : ws = []) :
    (Applied.addAll ⟨[], []⟩ next ws).newRows = [] := by
  subst h
  rfl

/-- The answer a plan comes to, with the statement's WAL and change count. -/
def Plan.answer (p : Plan) (table : String) (next : Nat) : Res Mutation :=
  p.2.map fun result => ⟨(opsFrom next p.1).map (toWal table), p.1.length, result⟩

/-- A statement whose rows are applied ends as its plan does. -/
theorem finishWrite_eq {table : String} {schema : TableSchema} {returning : Option (List SelItem)}
    {params : List Value} {ws : List RowWrite} {w : Write}
    (hwal : w.wal = (opsFrom (nextVidOf s table) ws).map (toWal table)) :
    finishWrite E schema returning (ws.map RowWrite.vals) ws.length params w =
      ((returningPlan E schema returning params ws).answer table (nextVidOf s table), w) := by
  simp only [finishWrite, returningPlan, Plan.answer]
  cases returningRows E schema returning (ws.map RowWrite.vals) params with
  | error e => rfl
  | ok result =>
    rw [hwal]
    rfl

/-- The row loop of an INSERT, on the table as staging left it. -/
theorem insertLoop_eq (wc : WriteCtx) (st : InsertStmt) (staged : List Row) {w : Write} {autoinc : Int64}
    (ht : w.store.table st.table = some { t with nextAutoinc := autoinc }) (committed : Nat) :
    (if t.schema.primaryKeyIndices.isEmpty then
        let (acc, w) := appendRows st.table wc.owner staged ⟨[], []⟩ w
        ((.ok acc, w) : Outcome Applied)
      else applyRows E t.schema st.table wc st.onConflict
        (pendingKeys E.prims t.rows committed t.schema.primaryKeyIndices wc.owner) staged
        (liveVids E.prims t.rows committed t.schema.primaryKeyIndices wc.owner) ⟨[], []⟩ w) =
      ((insertWrites E t committed st wc staged).2.map fun _ =>
          Applied.addAll ⟨[], []⟩ t.nextVid (insertWrites E t committed st wc staged).1,
        w.enactAll st.table wc.owner (insertWrites E t committed st wc staged).1) := by
  simp only [insertWrites]
  split
  · rw [appendRows_eq staged _ ht]
    rfl
  · rw [applyRows_eq E t.schema wc st.onConflict _ staged _ _ ht]

/-- The row loop of an INSERT enacts its writes, on the table as staging left it. -/
theorem applyInsert_eq (wc : WriteCtx) (st : InsertStmt) (staged : List Row) (autoinc : Int64)
    (ht : s.table st.table = some t) :
    let w := (⟨s, []⟩ : Write).setAutoinc st.table autoinc
    let p := insertWrites E t s.committedLsn st wc staged
    ∃ w', Enacts st.table wc.owner s p.1 w' ∧
      applyInsert E t.schema st.table staged st.onConflict st.returning wc w = match p.2 with
        | .error e => (.error e, w')
        | .ok () => ((returningPlan E t.schema st.returning wc.params p.1).answer st.table
            (nextVidOf s st.table), w') := by
  intro w p
  have ht' : w.store.table st.table = some { t with nextAutoinc := autoinc } := by
    simp [w, Write.setAutoinc, Store.table_modifyTable_self, ht]
  have hbase : Enacts st.table wc.owner s p.1 (w.enactAll st.table wc.owner p.1) :=
    Enacts.of_enactAll wc.owner ht (fun _ => autoinc) p.1
  have happlied := insertLoop_eq (E := E) wc st staged ht' s.committedLsn
  have hrows : (w.store.table st.table).elim [] (·.rows) = t.rows := by simp [ht']
  have hlsn : w.store.committedLsn = s.committedLsn := rfl
  simp only [applyInsert, hrows, hlsn, happlied]
  cases hp : p.2 with
  | error e => exact ⟨_, hbase, by simp [Except.map, p]⟩
  | ok u =>
    simp only [Except.map, affected_addAll, List.nil_append]
    by_cases hm : w.store.tableHasIndex st.table = true
    · have hix := hbase.indexRows
        (newRows_addAll_nil t.nextVid)
      refine ⟨_, hix, ?_⟩
      rw [if_pos hm, List.length_map, finishWrite_eq hix.wal]
    · refine ⟨_, hbase, ?_⟩
      rw [if_neg hm, List.length_map, finishWrite_eq hbase.wal]

theorem runInsert_plan (st : InsertStmt) (ht : s.table st.table = some t) :
    (runInsert E st wc s).1 = (insertPlan E s t st wc).answer st.table (nextVidOf s st.table) ∧
      Enacts st.table wc.owner s (insertPlan E s t st wc).1 (runInsert E st wc s).2 := by
  simp only [runInsert, ht, insertPlan, stagedRows]
  cases stageInsert E s t.schema st wc with
  | error e => exact ⟨rfl, .stopped st.table wc.owner s⟩
  | ok p =>
    obtain ⟨staged, autoinc⟩ := p
    simp only [Except.ok_bind, Write.setAutoinc]
    cases checkStaged E (s.modifyTable st.table fun t => { t with nextAutoinc := autoinc }) t.schema st
        staged wc with
    | error e => exact ⟨rfl, Enacts.of_enactAll wc.owner ht (fun _ => autoinc) []⟩
    | ok u =>
      obtain ⟨w', henacts, heq⟩ := applyInsert_eq (E := E) wc st staged autoinc ht
      simp only [Write.setAutoinc] at heq
      simp only [Except.ok_bind, Except.pure_eq, heq]
      cases hres : insertWrites E t s.committedLsn st wc staged with
      | mk ws res =>
        rw [hres] at henacts
        cases res with
        | error e => exact ⟨rfl, henacts⟩
        | ok u => exact ⟨rfl, henacts⟩

theorem enactAll_of_table (ht : s.table table = some t) (owner : Nat) (ws : List RowWrite) :
    Enacts table owner s ws ((⟨s, []⟩ : Write).enactAll table owner ws) := by
  have h := Enacts.of_enactAll owner ht (fun t => t.nextAutoinc) ws
  rw [Store.modifyTable_id ht rfl] at h
  exact h

theorem runUpdate_plan (st : UpdateStmt) (ht : s.table st.table = some t) :
    (runUpdate E st wc s).1 = (updatePlan E s t st wc).answer st.table (nextVidOf s st.table) ∧
      Enacts st.table wc.owner s (updatePlan E s t st wc).1 (runUpdate E st wc s).2 := by
  have hplan : updateImages E s t st wc = (do
      let updates ← computeUpdates E s t st wc
      checkUpdateUniques E s t st.table updates wc.owner
      return updates) := rfl
  simp only [runUpdate, ht, updatePlan, ← hplan]
  cases updateImages E s t st wc with
  | error e => exact ⟨rfl, .stopped st.table wc.owner s⟩
  | ok updates =>
    have hbase := enactAll_of_table ht wc.owner (updates.map fun u => RowWrite.rewrote u.1 u.2)
    have hlen : updates.length = (updates.map fun u => RowWrite.rewrote u.1 u.2).length := by simp
    have htw : (⟨s, []⟩ : Write).store.table st.table = some t := ht
    simp only [applyUpdateRows_eq updates _ htw, affected_addAll, List.nil_append]
    by_cases hm : s.tableHasIndex st.table = true
    · have hix := hbase.indexRows (newRows_addAll_nil t.nextVid)
      rw [if_pos hm, hlen, finishWrite_eq hix.wal]
      exact ⟨rfl, hix⟩
    · rw [if_neg hm, hlen, finishWrite_eq hbase.wal]
      exact ⟨rfl, hbase⟩

theorem runDelete_plan (st : DeleteStmt) (ht : s.table st.table = some t) :
    (runDelete E st wc s).1 = (deletePlan E s t st wc).answer st.table (nextVidOf s st.table) ∧
      Enacts st.table wc.owner s (deletePlan E s t st wc).1 (runDelete E st wc s).2 := by
  simp only [runDelete, ht, deletePlan]
  cases collectDeleteVictims E s t st wc with
  | error e => exact ⟨rfl, .stopped st.table wc.owner s⟩
  | ok victims =>
    have hbase := enactAll_of_table ht wc.owner (victims.map fun v => RowWrite.removed v.1 v.2)
    have hlen : victims.length = (victims.map fun v => RowWrite.removed v.1 v.2).length := by simp
    have hvals : victims.map (·.2) = (victims.map fun v => RowWrite.removed v.1 v.2).map RowWrite.vals := by
      simp [RowWrite.vals]
    simp only [foldl_supersede_eq, hvals]
    rw [hlen, finishWrite_eq hbase.wal]
    exact ⟨rfl, hbase⟩

/-- **Running a write statement is enacting its plan.** The answer is the
plan's, and the store and the WAL are those after the plan's row writes. -/
theorem runDml_plan (E : Env) (st : DmlStmt) (wc : WriteCtx) (s : Store) :
    (runDml E st wc s).1 = (dmlPlan E st wc s).answer st.table (nextVidOf s st.table) ∧
      Enacts st.table wc.owner s (dmlPlan E st wc s).1 (runDml E st wc s).2 := by
  cases ht : s.table st.table with
  | none =>
    have hplan : dmlPlan E st wc s = ([], .error (noSuchTable st.table)) := by simp [dmlPlan, ht]
    have hrun : runDml E st wc s = (.error (noSuchTable st.table), ⟨s, []⟩) := by
      cases st <;> simp only [DmlStmt.table] at ht <;>
        simp [runDml, runInsert, runUpdate, runDelete, ht, DmlStmt.table]
    rw [hplan, hrun]
    exact ⟨rfl, .stopped st.table wc.owner s⟩
  | some t =>
    cases st with
    | insert st =>
      simp only [dmlPlan, ht]
      exact runInsert_plan st ht
    | update st =>
      simp only [dmlPlan, ht]
      exact runUpdate_plan st ht
    | delete st =>
      simp only [dmlPlan, ht]
      exact runDelete_plan st ht

/-- The row changes a statement makes to its table. -/
def dmlOps (E : Env) (st : DmlStmt) (wc : WriteCtx) (s : Store) : List (Op Row) :=
  opsFrom (nextVidOf s st.table) (dmlPlan E st wc s).1

theorem dmlOps_eq {st : DmlStmt} (ht : s.table st.table = some t) :
    dmlOps E st wc s = opsFrom t.nextVid (dmlPlan E st wc s).1 := by
  simp [dmlOps, nextVidOf, ht]

theorem dmlPlan_of_none {st : DmlStmt} (ht : s.table st.table = none) :
    dmlPlan E st wc s = ([], .error (noSuchTable st.table)) := by
  simp [dmlPlan, ht]

/-- Each table after a statement: its own with the plan enacted, any other as it was. -/
theorem runDml_lookup (E : Env) (st : DmlStmt) (wc : WriteCtx) (s : Store) : ∃ autoinc : Table → Int64, ∀ k,
    (runDml E st wc s).2.store.tables.lookup k = (s.tables.lookup k).map fun t =>
      if k = Store.key st.table then
        { t.enacted wc.owner (dmlPlan E st wc s).1 with nextAutoinc := autoinc t }
      else t := by
  obtain ⟨-, -, ⟨autoinc, hstore⟩, -⟩ := runDml_plan E st wc s
  refine ⟨autoinc, fun k => ?_⟩
  rw [hstore.tables, Store.lookup_modifyTable]

theorem runDml_rowsAt (E : Env) (st : DmlStmt) (wc : WriteCtx) (s : Store) (k : String) :
    (runDml E st wc s).2.store.rowsAt k =
      if k = Store.key st.table then (s.rowsAt k).pendAll wc.owner (dmlOps E st wc s) else s.rowsAt k := by
  obtain ⟨autoinc, hlookup⟩ := runDml_lookup E st wc s
  simp only [Store.rowsAt, hlookup k]
  by_cases hk : k = Store.key st.table
  · subst hk
    rw [if_pos rfl]
    cases ht : s.table st.table with
    | none =>
      have hops : dmlOps E st wc s = [] := by rw [dmlOps, dmlPlan_of_none ht]; rfl
      have ht' : s.tables.lookup (Store.key st.table) = none := ht
      simp [ht', hops, Mvcc.Rows.pendAll]
    | some t =>
      have ht' : s.tables.lookup (Store.key st.table) = some t := ht
      simp only [ht', Option.map_some, if_true, Option.elim_some, dmlOps_eq ht]
      rfl
  · rw [if_neg hk]
    cases s.tables.lookup k with
    | none => rfl
    | some t => simp [hk]

end Statement

end Twill
