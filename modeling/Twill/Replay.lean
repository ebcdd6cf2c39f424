/-
Recovery against the live store.

The image of a log is what replaying it gives. The live store covers the image
of the published log: the same catalog, and over the rows of each table the
layers of the writers in flight (`Covers`). Every step keeps this (`Mirrors`),
so with no writer in flight the live store is the image of the log.
-/
import Twill.Atomic
import Twill.Lib.MvccDurable

namespace Twill

open Mvcc (PENDING Op)
open Mvcc.Rows

/-! ## What recovery rebuilds -/

namespace Store

variable {s s' : Store}

/-- The schema and the versions of the table under a key. -/
def data (s : Store) (k : String) : Option (TableSchema × Mvcc.Rows Row) :=
  (s.tables.lookup k).map fun t => (t.schema, t.rows)

theorem rowsAt_eq_data (k : String) : s.rowsAt k = (s.data k).elim [] (·.2) := by
  simp only [rowsAt, data]
  cases s.tables.lookup k <;> rfl

/-- The catalog, the rows and the published LSN agree. -/
structure SameData (s s' : Store) : Prop where
  data : ∀ k, s.data k = s'.data k
  views : s.views = s'.views
  committedLsn : s.committedLsn = s'.committedLsn

theorem SameButIndexes.data (h : SameButIndexes s s') (k : String) : s'.data k = s.data k := by
  simp only [Store.data, h.tables]

theorem data_mapRows (f : Mvcc.Rows Row → Mvcc.Rows Row) (k : String) :
    (s.mapRows f).data k = (s.data k).map fun d => (d.1, f d.2) := by
  simp only [data, lookup_mapRows, Option.map_map]
  rfl

theorem data_modifyTable {name : String} {f : Table → Table} {g : TableSchema × Mvcc.Rows Row → TableSchema × Mvcc.Rows Row}
    (hf : ∀ t, ((f t).schema, (f t).rows) = g (t.schema, t.rows)) (k : String) :
    (s.modifyTable name f).data k = if k = key name then (s.data k).map g else s.data k := by
  simp only [data, lookup_modifyTable, Option.map_map]
  by_cases hk : k = key name
  · simp only [hk, if_true]
    congr 1
    funext t
    exact hf t
  · simp only [hk, if_false]
    rfl

/-- An update that reads only schema and rows takes equal data to equal data. -/
theorem data_modifyTable_congr {f f' : Table → Table} (h : ∀ k, s.data k = s'.data k) (name : String)
    (hf : ∀ t t', t.schema = t'.schema → t.rows = t'.rows →
      (f t).schema = (f' t').schema ∧ (f t).rows = (f' t').rows) (k : String) :
    (s.modifyTable name f).data k = (s'.modifyTable name f').data k := by
  have hk := h k
  simp only [data, lookup_modifyTable, Option.map_map] at hk ⊢
  cases ht : s.tables.lookup k with
  | none =>
    rw [ht, Option.map_none, eq_comm, Option.map_eq_none_iff] at hk
    simp [hk]
  | some t =>
    rw [ht, Option.map_some, eq_comm, Option.map_eq_some_iff] at hk
    obtain ⟨t', ht', heq⟩ := hk
    obtain ⟨hschema, hrows⟩ := Prod.mk.inj heq
    simp only [ht', Option.map_some, Function.comp_apply, Option.some.injEq, Prod.mk.injEq]
    split
    · exact hf t t' hschema.symm hrows.symm
    · exact ⟨hschema.symm, hrows.symm⟩

theorem data_insertTable (schema : TableSchema) (k : String) :
    (s.insertTable schema).data k = if k = key schema.name then some (schema, []) else s.data k := by
  by_cases hk : k = key schema.name
  · subst hk
    simp [data, insertTable, Table.new]
  · simp [data, insertTable, AList.lookup_insert_ne hk, hk]

theorem data_erase (k' k : String) :
    (((s.tables.erase k').lookup k).map fun t => (t.schema, t.rows)) = if k = k' then none else s.data k := by
  by_cases hk : k = k'
  · subst hk
    simp
  · simp [data, AList.lookup_erase_ne hk, hk]

theorem data_dropTable (name k : String) :
    (s.dropTable name).data k = if k = key name then none else s.data k := data_erase (key name) k

theorem data_renameTable (source target : String) (k : String) :
    (s.renameTable source target).data k = match s.data (key source) with
      | none => s.data k
      | some d => if k = key target then some ({ d.1 with name := target }, d.2)
        else if k = key source then none else s.data k := by
  have hsource : s.data (key source) = (s.table source).map fun t => (t.schema, t.rows) := rfl
  rw [hsource]
  cases ht : s.table source with
  | none => simp [renameTable, ht]
  | some t =>
    simp only [renameTable, ht, Option.map_some]
    by_cases hk : k = key target
    · subst hk
      simp [data]
    · rw [if_neg hk]
      show (((s.tables.erase (key source)).insert _ _).lookup k).map _ = _
      rw [AList.lookup_insert_ne hk, data_erase]

theorem data_rebuildAutoinc (k : String) : s.rebuildAutoinc.data k = s.data k := by
  simp only [data, rebuildAutoinc, AList.lookup_mapVals, Option.map_map]
  congr 1
  funext t
  simp only [Function.comp_apply, rebuildAutoincTable]
  split <;> rfl

theorem sameData_rebuildAutoinc : SameData s.rebuildAutoinc s := ⟨data_rebuildAutoinc, rfl, rfl⟩

end Store

/-! ## Replaying DDL -/

/-- Recovery reads a statement as its connection did: the text of a view parses
to the query it was accepted with, and the fill of a new column is the same. -/
def DdlStmt.ReplaysAs (E₀ E : Env) : DdlStmt → Prop
  | .createView v => E₀.frontend.parseView v.sql = some v.query
  | .alterTable _ (.addColumn spec) => columnFill E spec = columnFill E₀ spec
  | _ => True

section

variable {E E₀ : Env} {s s' : Store} {st : DdlStmt} {op : WalOp}

theorem views_applyAlter (op : WalOp) : (applyAlter E s op).views = s.views := by
  cases op with
  | alterRenameTable table target =>
    simp only [applyAlter, Store.renameTable]
    split <;> rfl
  | _ => rfl

/-- **Recovery of a DDL operation** does to the catalog and the rows what the
live statement did. -/
theorem applyReplay_ddl (hdata : ∀ k, s.data k = s'.data k) (hviews : s.views = s'.views)
    (hp : Planned E s st op) (hr : st.ReplaysAs E₀ E) (lsn : Nat) :
    (∀ k, (applyDdl E st s op).data k = (applyReplay E₀ lsn s' op).data k) ∧
      (applyDdl E st s op).views = (applyReplay E₀ lsn s' op).views := by
  cases hp with
  | createTable => exact ⟨fun k => by simp only [applyDdl, applyReplay, Store.data_insertTable, hdata], hviews⟩
  | dropTable => exact ⟨fun k => by simp only [applyDdl, applyReplay, Store.data_dropTable, hdata], hviews⟩
  | @createIndex d =>
    have hsame := Store.sameButIndexes_createIndex (s := s) d
    exact ⟨fun k => (hsame.data k).trans (hdata k), hsame.views.trans hviews⟩
  | dropIndex => exact ⟨hdata, hviews⟩
  | @addColumn table spec =>
    have hfill : columnFill E { spec with primaryKey := false } = columnFill E₀ { spec with primaryKey := false } := hr
    refine ⟨Store.data_modifyTable_congr hdata table fun t t' hschema hrows => ?_, hviews⟩
    simp only [hschema, hrows, hfill, and_self]
  | dropColumn =>
    refine ⟨Store.data_modifyTable_congr hdata _ fun t t' hschema hrows => ?_, hviews⟩
    rw [hschema]
    split
    · exact ⟨hschema, hrows⟩
    · simp only [hrows, and_self]
  | renameColumn =>
    refine ⟨Store.data_modifyTable_congr hdata _ fun t t' hschema hrows => ?_, hviews⟩
    rw [hschema]
    split
    · exact ⟨hschema, hrows⟩
    · exact ⟨rfl, hrows⟩
  | @renameTable table target =>
    refine ⟨fun k => ?_, ?_⟩
    · simp only [applyDdl, applyReplay, applyAlter, Store.data_renameTable, hdata]
    · exact (views_applyAlter (E := E) _).trans (hviews.trans (views_applyAlter (E := E₀) _).symm)
  | setRls =>
    exact ⟨Store.data_modifyTable_congr hdata _ fun t t' hschema hrows => ⟨by rw [hschema], hrows⟩, hviews⟩
  | @createView v =>
    have hparse : E₀.frontend.parseView v.sql = some v.query := hr
    simp only [applyDdl, applyReplay, hparse]
    exact ⟨hdata, by simp only [Store.insertView, hviews]⟩
  | dropView => exact ⟨hdata, by simp only [applyDdl, applyReplay, Store.dropView, hviews]⟩
  | createPolicy =>
    exact ⟨Store.data_modifyTable_congr hdata _ fun t t' hschema hrows => ⟨by rw [hschema], hrows⟩, hviews⟩
  | dropPolicy =>
    exact ⟨Store.data_modifyTable_congr hdata _ fun t t' hschema hrows => ⟨by rw [hschema], hrows⟩, hviews⟩

theorem reshapes_applyReplay (hp : Planned E s st op) (lsn : Nat) : Store.Reshapes s' (applyReplay E₀ lsn s' op) := by
  cases hp with
  | createTable => exact Store.reshapes_insertTable _
  | dropTable => exact Store.reshapes_dropTable _
  | createIndex | dropIndex | dropView => exact ⟨rfl, fun k t' ht' => .inr ⟨k, t', ht', .same rfl rfl⟩⟩
  | addColumn => exact Store.reshapes_applyAlter E₀ (.alterAddColumn _ _)
  | dropColumn => exact Store.reshapes_applyAlter E₀ (.alterDropColumn _ _)
  | renameColumn => exact Store.reshapes_applyAlter E₀ (.alterRenameColumn _ _ _)
  | renameTable => exact Store.reshapes_applyAlter E₀ (.alterRenameTable _ _)
  | setRls => exact Store.reshapes_applyAlter E₀ (.setRls _ _)
  | createView =>
    simp only [applyReplay]
    split
    · exact ⟨rfl, fun k t' ht' => .inr ⟨k, t', ht', .same rfl rfl⟩⟩
    · exact Store.SameButIndexes.refl.reshapes
  | createPolicy | dropPolicy => exact Store.reshapes_modifyTable fun t => .same rfl rfl

end

/-! ## Replaying row operations -/

/-- An operation on a row. -/
def WalOp.isRow : WalOp → Bool
  | .insert _ _ _ => true
  | .delete _ _ => true
  | _ => false

theorem isRow_toWal (table : String) (op : Op Row) : (toWal table op).isRow = true := by cases op <;> rfl

theorem data_applyReplay (E : Env) (lsn : Nat) (s : Store) {op : WalOp} (hop : op.isRow = true) (k : String) :
    (applyReplay E lsn s op).data k = (s.data k).map fun d => (d.1, d.2.commitAll lsn (opsAt k [op])) := by
  cases op with
  | insert table vid values =>
    rw [applyReplay, Store.replayInsert, Store.data_modifyTable (g := fun d => (d.1, d.2.commit lsn (.insert vid values)))
      fun _ => rfl]
    by_cases hk : k = Store.key table
    · simp [hk, opsAt, WalOp.at, commitAll]
    · simp [hk, Ne.symm hk, opsAt, WalOp.at, commitAll]
  | delete table vid =>
    rw [applyReplay, Store.replayDelete, Store.data_modifyTable (g := fun d => (d.1, d.2.commit lsn (.delete vid)))
      fun _ => rfl]
    by_cases hk : k = Store.key table
    · simp [hk, opsAt, WalOp.at, commitAll]
    · simp [hk, Ne.symm hk, opsAt, WalOp.at, commitAll]
  | _ => simp [WalOp.isRow] at hop

theorem applyReplay_catalog (E : Env) (lsn : Nat) (s : Store) {op : WalOp} (hop : op.isRow = true) :
    (applyReplay E lsn s op).views = s.views ∧ (applyReplay E lsn s op).committedLsn = s.committedLsn := by
  cases op with
  | insert | delete => exact ⟨rfl, rfl⟩
  | _ => simp [WalOp.isRow] at hop

/-- A transaction's row operations, applied at its commit LSN. -/
theorem foldl_applyReplay (E : Env) (lsn : Nat) {ops : List WalOp} (hops : ∀ op ∈ ops, op.isRow = true) (s : Store) :
    (∀ k, (ops.foldl (applyReplay E lsn) s).data k =
        (s.data k).map fun d => (d.1, d.2.commitAll lsn (opsAt k ops))) ∧
      (ops.foldl (applyReplay E lsn) s).views = s.views ∧
      (ops.foldl (applyReplay E lsn) s).committedLsn = s.committedLsn := by
  induction ops generalizing s with
  | nil => simp [commitAll]
  | cons op ops ih =>
    have hop := hops op List.mem_cons_self
    obtain ⟨hdata, hviews, hlsn⟩ := ih (fun op' hop' => hops op' (List.mem_cons_of_mem _ hop'))
      (applyReplay E lsn s op)
    obtain ⟨hviews', hlsn'⟩ := applyReplay_catalog E lsn s hop
    refine ⟨fun k => ?_, hviews.trans hviews', hlsn.trans hlsn'⟩
    rw [List.foldl_cons, hdata, data_applyReplay E lsn s hop, Option.map_map]
    have hsplit : opsAt k (op :: ops) = opsAt k [op] ++ opsAt k ops := by
      rw [← opsAt_append]
      rfl
    congr 1
    funext d
    simp [hsplit, commitAll, List.foldl_append]

/-- Replaying a log so far: the store, and the operations after the last marker. -/
def image (E : Env) (log : List WalEntry) : Store × List WalOp := log.foldl (replayEntry E) (Store.empty, [])

theorem image_append (E : Env) (log log' : List WalEntry) :
    image E (log ++ log') = log'.foldl (replayEntry E) (image E log) := List.foldl_append

namespace Sys

theorem numberFrom_cons (first : Nat) (op : WalOp) (ops : List WalOp) :
    numberFrom first (op :: ops) = (first, op) :: numberFrom (first + 1) ops := by
  simp only [numberFrom, List.zipIdx_cons, List.map_cons, Nat.add_zero, List.cons.injEq, true_and]
  rw [List.zipIdx_succ, List.map_map]
  apply List.map_congr_left
  intro p _
  simp only [Function.comp_apply, Prod.mk.injEq, and_true]
  omega

theorem numberFrom_append (first : Nat) (ops ops' : List WalOp) :
    numberFrom first (ops ++ ops') = numberFrom first ops ++ numberFrom (first + ops.length) ops' := by
  induction ops generalizing first with
  | nil => simp [numberFrom]
  | cons op ops ih =>
    rw [List.cons_append, numberFrom_cons, numberFrom_cons, ih, List.length_cons, List.cons_append,
      Nat.add_right_comm, Nat.add_assoc]

/-- Operations before their marker are kept back. -/
theorem foldl_replayEntry (E : Env) {ops : List WalOp} (hops : ∀ op ∈ ops, op ≠ .commit) (first : Nat)
    (s : Store) (group : List WalOp) :
    (numberFrom first ops).foldl (replayEntry E) (s, group) = (s, group ++ ops) := by
  induction ops generalizing first group with
  | nil => simp [numberFrom]
  | cons op ops ih =>
    rw [numberFrom_cons, List.foldl_cons]
    have hhead : replayEntry E (s, group) (first, op) = (s, group ++ [op]) := by
      have hne := hops op List.mem_cons_self
      cases op with
      | commit => exact absurd rfl hne
      | _ => rfl
    rw [hhead, ih fun op' hop' => hops op' (List.mem_cons_of_mem _ hop')]
    simp

/-- Operations with their marker are applied at its LSN. -/
theorem foldl_replayEntry_marked (E : Env) {ops : List WalOp} (hops : ∀ op ∈ ops, op ≠ .commit) (first : Nat)
    (s : Store) :
    (numberFrom first (ops ++ [.commit])).foldl (replayEntry E) (s, []) =
      let s' := ops.foldl (applyReplay E (first + ops.length)) s
      ({ s' with committedLsn := max s'.committedLsn (first + ops.length) }, []) := by
  rw [numberFrom_append, List.foldl_append, foldl_replayEntry E hops]
  simp [numberFrom, replayEntry]

/-! ## The live store over an image -/

/-- The layers of writers at one table. -/
def layersAt (k : String) (ms : List Member) : List (Layer Row) := ms.map fun m => (m.owner, opsAt k m.ops)

@[simp] theorem layersAt_append (k : String) (ms ms' : List Member) :
    layersAt k (ms ++ ms') = layersAt k ms ++ layersAt k ms' := List.map_append

/-- The operations of a writer are on rows, of tables there are. -/
structure RowsOf (img : Store) (m : Member) : Prop where
  isRow : ∀ op ∈ m.ops, op.isRow = true
  present : ∀ k, img.data k = none → opsAt k m.ops = []

theorem RowsOf.nil {img : Store} {o : Nat} : RowsOf img ⟨o, []⟩ := ⟨by simp, by simp⟩

theorem RowsOf.append {img : Store} {o : Nat} {ops ops' : List WalOp} (h : RowsOf img ⟨o, ops⟩)
    (h' : RowsOf img ⟨o, ops'⟩) : RowsOf img ⟨o, ops ++ ops'⟩ := by
  refine ⟨fun op hop => ?_, fun k hk => ?_⟩
  · rcases List.mem_append.1 hop with hop | hop
    · exact h.isRow op hop
    · exact h'.isRow op hop
  · rw [opsAt_append, h.present k hk, h'.present k hk, List.append_nil]

theorem RowsOf.take {img : Store} {o : Nat} {ops : List WalOp} (h : RowsOf img ⟨o, ops⟩) (n : Nat) :
    RowsOf img ⟨o, ops.take n⟩ := by
  refine ⟨fun op hop => h.isRow op (List.mem_of_mem_take hop), fun k hk => ?_⟩
  rw [List.eq_nil_iff_forall_not_mem]
  intro op hop
  have hmem : op ∈ opsAt k ops := mem_opsAt_take hop
  rw [h.present k hk] at hmem
  exact List.not_mem_nil hmem

/-- The store `s` is the durable image `img` with the writers `ms` over it. -/
structure Covers (img s : Store) (ms : List Member) : Prop where
  data : ∀ k, s.data k = (img.data k).map fun d => (d.1, overlay d.2 (layersAt k ms))
  stacked : ∀ k, Stacks (img.rowsAt k) (layersAt k ms)
  durable : ∀ k, Durable (img.rowsAt k)
  writes : ∀ m ∈ ms, RowsOf img m
  views : s.views = img.views

namespace Covers

variable {img s s' : Store} {ms rest : List Member} {m : Member} {o : Nat} {ops ops' : List WalOp}

theorem init : Covers Store.empty Store.empty [] := by
  refine ⟨fun k => by simp [Store.data, Store.empty], fun k => trivial, fun k => ?_, by simp, rfl⟩
  simp only [Store.rowsAt, Store.empty, AList.lookup_empty, Option.elim_none]
  exact .nil

/-- With no writer the store is the image. -/
theorem sameData (h : Covers img s []) (hlsn : s.committedLsn = img.committedLsn) : Store.SameData s img := by
  refine ⟨fun k => ?_, h.views, hlsn⟩
  rw [h.data k]
  simp [layersAt, overlay]

theorem rowsAt (h : Covers img s ms) (k : String) (hk : (img.data k).isSome) :
    s.rowsAt k = overlay (img.rowsAt k) (layersAt k ms) := by
  obtain ⟨d, hd⟩ := Option.isSome_iff_exists.1 hk
  rw [Store.rowsAt_eq_data, h.data k, Store.rowsAt_eq_data, hd]
  rfl

theorem table_none (h : Covers img s ms) {name : String} (hk : img.data (Store.key name) = none) :
    s.table name = none := by
  have hnone := h.data (Store.key name)
  rw [hk] at hnone
  exact Option.map_eq_none_iff.1 hnone

theorem dmlOps_of_none {E : Env} {st : DmlStmt} {wc : WriteCtx} (h : s.table st.table = none) :
    dmlOps E st wc s = [] := by
  rw [dmlOps, dmlPlan_of_none h]
  rfl

/-- A row operation on every table that takes the layers `ms` to `rest`. -/
theorem mapRows {f : Mvcc.Rows Row → Mvcc.Rows Row} (h : Covers img s ms)
    (hs : Store.SameButIndexes (s.mapRows f) s')
    (hf : ∀ k, f (overlay (img.rowsAt k) (layersAt k ms)) = overlay (img.rowsAt k) (layersAt k rest) ∧
      Stacks (img.rowsAt k) (layersAt k rest))
    (hrest : ∀ m ∈ rest, RowsOf img m) : Covers img s' rest := by
  refine ⟨fun k => ?_, fun k => (hf k).2, h.durable, hrest, hs.views.trans h.views⟩
  rw [hs.data, Store.data_mapRows, h.data k, Option.map_map]
  have hrows := (hf k).1
  rw [Store.rowsAt_eq_data] at hrows
  cases hd : img.data k with
  | none => rfl
  | some d =>
    rw [hd] at hrows
    simp only [Option.map_some, Function.comp_apply, Option.some.injEq, Prod.mk.injEq, true_and]
    exact hrows

/-- A writer with nothing logged makes no layer. -/
theorem idle_iff (ho : o ≠ 0) : Covers img s (ms ++ [⟨o, []⟩]) ↔ Covers img s ms := by
  have hover : ∀ k rows, overlay rows (layersAt k (ms ++ [⟨o, []⟩])) = overlay rows (layersAt k ms) := by
    intro k rows
    rw [layersAt_append, overlay_append]
    rfl
  have hstacks : ∀ k rows, Stacks rows (layersAt k (ms ++ [⟨o, []⟩])) ↔ Stacks rows (layersAt k ms) := by
    intro k rows
    rw [layersAt_append, stacks_append]
    exact and_iff_left ⟨ho, trivial, trivial⟩
  have hops : (∀ m ∈ ms ++ [⟨o, []⟩], RowsOf img m) ↔ ∀ m ∈ ms, RowsOf img m := by
    simp [or_imp, forall_and, RowsOf.nil]
  constructor
  · intro h
    exact ⟨fun k => by simpa only [hover] using h.data k, fun k => (hstacks k _).1 (h.stacked k), h.durable,
      hops.1 h.writes, h.views⟩
  · intro h
    exact ⟨fun k => by simpa only [hover] using h.data k, fun k => (hstacks k _).2 (h.stacked k), h.durable,
      hops.2 h.writes, h.views⟩

/-- **A statement grows the topmost layer.** -/
theorem dml {E : Env} {st : DmlStmt} {wc : WriteCtx} (h : Covers img s (ms ++ [⟨wc.owner, ops⟩]))
    (hadm : AdmitsAll wc.owner (s.rowsAt (Store.key st.table)) (dmlOps E st wc s)) :
    Covers img (runDml E st wc s).2.store
      (ms ++ [⟨wc.owner, ops ++ (dmlOps E st wc s).map (toWal st.table)⟩]) := by
  obtain ⟨-, -, ⟨autoinc, hstore⟩, -⟩ := runDml_plan E st wc s
  -- one more change at the statement's table
  have hlayers : ∀ k rows, overlay rows (layersAt k (ms ++ [⟨wc.owner, ops ++ (dmlOps E st wc s).map (toWal st.table)⟩])) =
      if k = Store.key st.table then
        (overlay rows (layersAt k (ms ++ [⟨wc.owner, ops⟩]))).pendAll wc.owner (dmlOps E st wc s)
      else overlay rows (layersAt k (ms ++ [⟨wc.owner, ops⟩])) := by
    intro k rows
    simp only [layersAt_append, overlay_append]
    show (overlay rows (layersAt k ms)).pendAll wc.owner (opsAt k (ops ++ _)) = _
    rw [opsAt_append, opsAt_toWal, pendAll_append]
    split <;> rfl
  refine ⟨fun k => ?_, fun k => ?_, h.durable, ?_, hstore.views.trans h.views⟩
  · obtain ⟨autoinc, hlookup⟩ := runDml_lookup E st wc s
    have hdata : (runDml E st wc s).2.store.data k = (s.data k).map fun d =>
        if k = Store.key st.table then (d.1, d.2.pendAll wc.owner (dmlOps E st wc s)) else d := by
      rw [Store.data, hlookup, Store.data, Option.map_map, Option.map_map]
      by_cases hk : k = Store.key st.table
      · subst hk
        cases ht : s.tables.lookup (Store.key st.table) with
        | none => rfl
        | some t =>
          have ht' : s.table st.table = some t := ht
          simp [Table.enacted, dmlOps_eq ht']
      · simp only [hk, if_false]
        rfl
    rw [hdata, h.data k, Option.map_map]
    congr 1
    funext d
    simp only [Function.comp_apply, hlayers]
    split <;> rfl
  · obtain ⟨hms, ho, hops, -⟩ := stacks_append.1 (layersAt_append k ms _ ▸ h.stacked k)
    rw [layersAt_append]
    refine stacks_append.2 ⟨hms, ho, ?_, trivial⟩
    show AdmitsAll wc.owner _ (opsAt k (ops ++ _))
    rw [opsAt_append, opsAt_toWal]
    refine allowsAll_append.2 ⟨hops, ?_⟩
    split
    · next hk =>
      subst hk
      cases hd : img.data (Store.key st.table) with
      | none =>
        -- no table, no changes
        rw [dmlOps_of_none (h.table_none hd)]
        trivial
      | some d =>
        have hrows := h.rowsAt (Store.key st.table) (by simp [hd])
        rw [layersAt_append, overlay_append] at hrows
        rw [hrows] at hadm
        exact hadm
    · trivial
  · intro m hm
    rcases List.mem_append.1 hm with hm | hm
    · exact h.writes m (List.mem_append_left _ hm)
    · obtain rfl := List.mem_singleton.1 hm
      refine (h.writes _ (List.mem_append_right _ List.mem_cons_self)).append ⟨fun op hop => ?_, fun k hk => ?_⟩
      · obtain ⟨op', -, rfl⟩ := List.mem_map.1 hop
        exact isRow_toWal _ _
      · show opsAt k ((dmlOps E st wc s).map (toWal st.table)) = []
        rw [opsAt_toWal]
        split
        · next heq =>
          subst heq
          exact dmlOps_of_none (h.table_none hk)
        · rfl

theorem ne_of_mem_layersAt {k : String} (hne : ∀ m ∈ ms, o ≠ m.owner) : ∀ l ∈ layersAt k ms, o ≠ l.1 := by
  intro l hl
  obtain ⟨m, hm, rfl⟩ := List.mem_map.1 hl
  exact hne m hm

/-- **A rollback drops the topmost layer.** -/
theorem rollback (h : Covers img s (ms ++ [⟨o, ops⟩])) (hne : ∀ m ∈ ms, o ≠ m.owner) :
    Covers img (s.rollbackOwner o) ms := by
  refine h.mapRows (Store.rollbackOwner_eq o) (fun k => ?_) fun m hm => h.writes m (List.mem_append_left _ hm)
  have hst := h.stacked k
  rw [layersAt_append] at hst ⊢
  exact rollback_overlay_last (h.durable k) (ne_of_mem_layersAt hne) hst

/-- **Back to a savepoint**, the topmost layer is what was logged before it. -/
theorem rollbackTo {n : Nat} {ins del : List Nat} (h : Covers img s (ms ++ [⟨o, ops⟩]))
    (hne : ∀ m ∈ ms, o ≠ m.owner) (hkept : ∀ k, ∀ op ∈ opsAt k (ops.take n), Kept ins del op)
    (hclean : ∀ k v, ((∃ values, Op.insert v values ∈ opsAt k (ops.drop n)) → v ∉ ins) ∧
      (Op.delete v ∈ opsAt k (ops.drop n) → v ∈ del → ∃ values, Op.insert v values ∈ opsAt k (ops.drop n))) :
    Covers img (s.rollbackToSavepoint o ins del) (ms ++ [⟨o, ops.take n⟩]) := by
  refine h.mapRows (Store.rollbackToSavepoint_eq o ins del) (fun k => ?_) fun m hm => ?_
  · have hst := h.stacked k
    have hsplit : layersAt k [⟨o, ops⟩] = [(o, opsAt k (ops.take n) ++ opsAt k (ops.drop n))] := by
      rw [← opsAt_append, List.take_append_drop]
      rfl
    rw [layersAt_append, hsplit] at hst
    rw [layersAt_append, hsplit, layersAt_append]
    exact rollbackTo_overlay_saved (h.durable k) (ne_of_mem_layersAt hne) hst (hkept k) (fun v => (hclean k v).1)
      fun v => (hclean k v).2
  · rcases List.mem_append.1 hm with hm | hm
    · exact h.writes m (List.mem_append_left _ hm)
    · obtain rfl := List.mem_singleton.1 hm
      exact (h.writes _ (List.mem_append_right _ List.mem_cons_self)).take n

/-- **Discarding the lowest layer.** -/
theorem discardHead (h : Covers img s (m :: ms)) (hne : ∀ m' ∈ ms, m.owner ≠ m'.owner) :
    Covers img (s.rollbackOwner m.owner) ms := by
  refine h.mapRows (Store.rollbackOwner_eq m.owner) (fun k => ?_) fun m hm => h.writes m (List.mem_cons_of_mem _ hm)
  exact discard_overlay (h.durable k) (ne_of_mem_layersAt hne) (h.stacked k)

/-- A batch discarded from below. -/
theorem discard (h : Covers img s (ms ++ rest)) (hnodup : ((ms ++ rest).map (·.owner)).Nodup) :
    Covers img (ms.foldl (fun s m => s.rollbackOwner m.owner) s) rest := by
  induction ms generalizing s with
  | nil => exact h
  | cons m ms ih =>
    obtain ⟨hnot, hnodup⟩ := List.nodup_cons.1 hnodup
    exact ih (h.discardHead fun m' hm' heq => hnot (List.mem_map.2 ⟨m', hm', heq.symm⟩)) hnodup

/-- **Publishing the lowest layer** replays its records. -/
theorem publishHead {E : Env} {lsn : Nat} (h : Covers img s (m :: ms)) (hne : ∀ m' ∈ ms, m.owner ≠ m'.owner)
    (hlsn : lsn ≠ PENDING) :
    Covers (m.ops.foldl (applyReplay E lsn) img) (s.finalizeOwner m.owner lsn) ms := by
  have hm := h.writes m List.mem_cons_self
  obtain ⟨hdata, hviews, -⟩ := foldl_applyReplay E lsn hm.isRow img
  have hsame := Store.finalizeOwner_eq (s := s) m.owner lsn
  have hrows : ∀ k, (m.ops.foldl (applyReplay E lsn) img).rowsAt k = (img.rowsAt k).commitAll lsn (opsAt k m.ops) := by
    intro k
    rw [Store.rowsAt_eq_data, hdata, Store.rowsAt_eq_data]
    cases hk : img.data k with
    | none =>
      rw [hm.present k hk]
      rfl
    | some d => rfl
  have hpub := fun k => publish_overlay (h.durable k) (ne_of_mem_layersAt hne) (h.stacked k) hlsn
  refine ⟨fun k => ?_, fun k => (hrows k).symm ▸ (hpub k).2.1, fun k => (hrows k).symm ▸ (hpub k).2.2, fun m' hm' => ?_,
    hsame.views.trans (h.views.trans hviews.symm)⟩
  · rw [hsame.data, Store.data_mapRows, h.data k, hdata, Option.map_map, Option.map_map]
    have heq := (hpub k).1
    rw [Store.rowsAt_eq_data] at heq
    cases hd : img.data k with
    | none => rfl
    | some d =>
      rw [hd] at heq
      simp only [Option.map_some, Function.comp_apply, Option.some.injEq, Prod.mk.injEq, true_and]
      exact heq
  · have hwrites := h.writes m' (List.mem_cons_of_mem _ hm')
    refine ⟨hwrites.isRow, fun k hk => hwrites.present k ?_⟩
    rwa [hdata, Option.map_eq_none_iff] at hk

/-- The published LSN is not part of it. -/
theorem withLsn (h : Covers img s ms) (n n' : Nat) :
    Covers { img with committedLsn := n } { s with committedLsn := n' } ms :=
  ⟨h.data, h.stacked, h.durable, fun m hm => ⟨(h.writes m hm).isRow, (h.writes m hm).present⟩, h.views⟩

/-- **Publishing a batch** replays its records. -/
theorem publish (E : Env) (first : Nat) (h : Covers img s (ms ++ rest))
    (hnodup : ((ms ++ rest).map (·.owner)).Nodup) (hbound : first + (batchRecords ms).length ≤ PENDING) :
    ∃ img', (numberFrom first (batchRecords ms)).foldl (replayEntry E) (img, []) = (img', []) ∧
      Covers img' (publishMembers s first ms) rest ∧
      (ms ≠ [] → img.committedLsn < first → img'.committedLsn = lastLsn first ms) := by
  induction ms generalizing img s first with
  | nil => exact ⟨img, rfl, h, by simp⟩
  | cons m ms ih =>
    obtain ⟨hnot, hnodup⟩ := List.nodup_cons.1 hnodup
    rw [batchRecords_cons] at hbound
    have hlen : m.records.length = m.ops.length + 1 := by simp [Member.records]
    have hmarker : first + m.records.length - 1 = first + m.ops.length := by omega
    have hwrites := (h.writes m List.mem_cons_self).isRow
    have hnocommit : ∀ op ∈ m.ops, op ≠ .commit := fun op hop heq => by
      have := hwrites op hop
      simp [heq, WalOp.isRow] at this
    obtain ⟨-, -, hlsn⟩ := foldl_applyReplay E (first + m.ops.length) hwrites img
    have hhead : Covers (m.ops.foldl (applyReplay E (first + m.ops.length)) img)
        (s.finalizeOwner m.owner (first + m.ops.length)) (ms ++ rest) :=
      h.publishHead (fun m' hm' heq => hnot (List.mem_map.2 ⟨m', hm', heq.symm⟩)) (by omega)
    obtain ⟨img', himg, hcovers, hlast⟩ := ih (first + m.records.length) (hhead.withLsn (max img.committedLsn (first + m.ops.length))
      (s.finalizeOwner m.owner (first + m.ops.length)).committedLsn) hnodup (by omega)
    refine ⟨img', ?_, ?_, ?_⟩
    · have hsplit : batchRecords (m :: ms) = m.records ++ batchRecords ms := rfl
      rw [hsplit, numberFrom_append, List.foldl_append]
      rw [Member.records, foldl_replayEntry_marked E hnocommit]
      simp only [hlsn]
      exact himg
    · rw [publishMembers, hmarker]
      exact hcovers
    · intro _ hfirst
      cases ms with
      | nil =>
        have hnil : img' = { m.ops.foldl (applyReplay E (first + m.ops.length)) img with
            committedLsn := max img.committedLsn (first + m.ops.length) } := (congrArg Prod.fst himg).symm
        rw [hnil, lastLsn]
        simp only [batchRecords, List.flatMap_cons, List.flatMap_nil, List.append_nil]
        omega
      | cons m' ms' =>
        rw [hlast (by simp) (by show max _ _ < _; omega), lastLsn, lastLsn, batchRecords_cons m]
        omega

/-! ## DDL -/

/-- With no writer in flight the store has the tables and views of the image. -/
theorem nil_iff : Covers img s [] ↔ (∀ k, s.data k = img.data k) ∧ (∀ k, Durable (img.rowsAt k)) ∧ s.views = img.views := by
  have hdata : ∀ k, (img.data k).map (fun d => (d.1, overlay d.2 (layersAt k []))) = img.data k := fun k => by
    simp [layersAt, overlay]
  constructor
  · intro h
    exact ⟨fun k => (h.data k).trans (hdata k), h.durable, h.views⟩
  · rintro ⟨h, hdurable, hviews⟩
    exact ⟨fun k => (h k).trans (hdata k).symm, fun _ => trivial, hdurable, by simp, hviews⟩

theorem durable_reshapes (h : ∀ k, Durable (s.rowsAt k)) (hs : Store.Reshapes s s') (k : String) :
    Durable (s'.rowsAt k) := by
  cases hk : s'.tables.lookup k with
  | none =>
    rw [Store.rowsAt, hk]
    exact .nil
  | some t' =>
    rw [Store.rowsAt_of_lookup hk]
    rcases hs.tables k t' hk with ⟨hnil, -⟩ | ⟨k₀, t, ht, -, f, hrows⟩
    · rw [hnil]
      exact .nil
    · rw [hrows, ← Store.rowsAt_of_lookup ht]
      exact (h k₀).map fun r => f r.values

/-- **DDL** does to the store what its replay does to the image. -/
theorem ddl {E E₀ : Env} {st : DdlStmt} {op : WalOp} (h : Covers img s []) (hp : Planned E s st op)
    (hr : st.ReplaysAs E₀ E) (lsn : Nat) : Covers (applyReplay E₀ lsn img op) (applyDdl E st s op) [] := by
  obtain ⟨hdata, hdurable, hviews⟩ := nil_iff.1 h
  obtain ⟨hdata', hviews'⟩ := applyReplay_ddl hdata hviews hp hr lsn
  exact nil_iff.2 ⟨hdata', durable_reshapes hdurable (reshapes_applyReplay hp lsn), hviews'⟩

end Covers

end Sys

end Twill
