/-
What DDL does.

An accepted statement logs one operation, its checks having passed (`Planned`).
A schema change rewrites row images in place or moves a table to another key;
it never touches stamps or version ids, and a created table starts empty
(`Reshapes`).
-/
import Twill.Ddl
import Twill.StoreFacts
import Twill.Lib.Except

namespace Twill

/-! ## What a statement logs -/

/-- The operation an accepted DDL statement logs, with what was checked. -/
inductive Planned (E : Env) (s : Store) : DdlStmt → WalOp → Prop where
  | createTable {st : CreateTableStmt} {cols : List Column} {fks : List ForeignKey} (hfresh : s.table st.name = none)
      (hcols : foldPrimaryKey st.primaryKey st.columns = .ok cols)
      (hfks : st.foreignKeys.mapM (resolveForeignKey s st.name cols) = .ok fks) :
      Planned E s (.createTable st) (.createTable ⟨st.name, cols, fks, st.checks, st.uniques, false, []⟩)
  | dropTable {name : String} {ifExists : Bool} (hthere : s.hasTable name = true) :
      Planned E s (.dropTable name ifExists) (.dropTable name)
  | createIndex {d : IndexDef} {ifNotExists : Bool} {t : Table} {col : Nat} (hfresh : s.hasIndex d.name = false)
      (ht : s.table d.table = some t) (hcol : t.schema.columnIndex d.column = some col) :
      Planned E s (.createIndex d ifNotExists) (.createIndex d)
  | dropIndex {name : String} {ifExists : Bool} (hthere : s.hasIndex name = true) :
      Planned E s (.dropIndex name ifExists) (.dropIndex name)
  | addColumn {table : String} {spec : Column} {t : Table} (ht : s.table table = some t)
      (hfresh : t.schema.columnIndex spec.name = none) :
      Planned E s (.alterTable table (.addColumn spec)) (.alterAddColumn table { spec with primaryKey := false })
  | dropColumn {table name : String} {ifExists : Bool} {t : Table} {idx : Nat} (ht : s.table table = some t)
      (hidx : t.schema.columnIndex name = some idx) :
      Planned E s (.alterTable table (.dropColumn name ifExists)) (.alterDropColumn table name)
  | renameColumn {table source target : String} {t : Table} (ht : s.table table = some t) :
      Planned E s (.alterTable table (.renameColumn source target)) (.alterRenameColumn table source target)
  | renameTable {table target : String} {t : Table} (ht : s.table table = some t) :
      Planned E s (.alterTable table (.renameTable target)) (.alterRenameTable table target)
  | setRls {table : String} {enabled : Bool} {t : Table} (ht : s.table table = some t) :
      Planned E s (.alterTable table (.setRls enabled)) (.setRls table enabled)
  | createView {st : CreateViewStmt} (hfresh : s.hasTable st.name = false)
      (hacyclic : viewWouldCycle s st.name st.query = false) :
      Planned E s (.createView st) (.createView st.name st.sql)
  | dropView {name : String} {ifExists : Bool} (hthere : s.hasView name = true) :
      Planned E s (.dropView name ifExists) (.dropView name)
  | createPolicy {table : String} {policy : Policy} {t : Table} (ht : s.table table = some t) :
      Planned E s (.createPolicy table policy) (.createPolicy table policy)
  | dropPolicy {name table : String} {ifExists : Bool} {t : Table} (ht : s.table table = some t) :
      Planned E s (.dropPolicy name table ifExists) (.dropPolicy table name)

theorem planDrop_eq_ok {there ifExists : Bool} {missing : String} {op op' : WalOp}
    (h : planDrop there ifExists missing op = .ok (some op')) : there = true ∧ op' = op := by
  unfold planDrop at h
  cases there with
  | true => exact ⟨rfl, by simpa using h.symm⟩
  | false => cases ifExists <;> simp at h

theorem planned_createTable {E : Env} {s : Store} {st : CreateTableStmt} {op : WalOp}
    (h : planCreateTable s st = .ok (some op)) : Planned E s (.createTable st) op := by
  simp only [planCreateTable, Store.hasTable] at h
  cases ht : s.table st.name with
  | some t => cases hif : st.ifNotExists <;> simp [ht, hif] at h
  | none =>
    simp only [ht, Option.isSome_none, Bool.false_eq_true, if_false, Except.pure_eq] at h
    obtain ⟨cols, hcols, h⟩ := Except.bind_eq_ok.1 h
    obtain ⟨fks, hfks, h⟩ := Except.bind_eq_ok.1 h
    obtain rfl : _ = op := by simpa using h
    exact .createTable ht hcols hfks

theorem planned_createIndex {E : Env} {s : Store} {d : IndexDef} {ifNotExists : Bool} {op : WalOp}
    (h : planCreateIndex s d ifNotExists = .ok (some op)) : Planned E s (.createIndex d ifNotExists) op := by
  simp only [planCreateIndex] at h
  cases hthere : s.hasIndex d.name with
  | true => cases ifNotExists <;> simp [hthere] at h
  | false =>
    simp only [hthere, Bool.false_eq_true, if_false] at h
    cases ht : s.table d.table with
    | none => simp [ht] at h
    | some t =>
      cases hcol : t.schema.columnIndex d.column with
      | none => simp [ht, hcol] at h
      | some col =>
        simp only [ht, hcol] at h
        split at h
        · simp at h
        · obtain rfl : _ = op := by simpa using h
          exact .createIndex hthere ht hcol

theorem planned_alter {E : Env} {s : Store} {table : String} {action : AlterAction} {op : WalOp}
    (h : planAlter s table action = .ok (some op)) : Planned E s (.alterTable table action) op := by
  unfold planAlter at h
  cases ht : s.table table with
  | none => simp [ht] at h
  | some t =>
    rw [ht] at h
    cases action with
    | addColumn spec =>
      dsimp only at h
      split at h
      · simp at h
      · next hnone =>
        obtain rfl : _ = op := by simpa using h
        exact .addColumn ht (by simpa using hnone)
    | dropColumn name ifExists =>
      obtain ⟨hsome, rfl⟩ := planDrop_eq_ok h
      obtain ⟨idx, hidx⟩ := Option.isSome_iff_exists.1 hsome
      exact .dropColumn ht hidx
    | renameColumn source target =>
      obtain rfl : _ = op := by simpa using h
      exact .renameColumn ht
    | renameTable target =>
      obtain rfl : _ = op := by simpa using h
      exact .renameTable ht
    | setRls enabled =>
      obtain rfl : _ = op := by simpa using h
      exact .setRls ht

theorem planned_createView {E : Env} {s : Store} {st : CreateViewStmt} {op : WalOp}
    (h : planCreateView s st = .ok (some op)) : Planned E s (.createView st) op := by
  simp only [planCreateView] at h
  cases ht : s.hasTable st.name with
  | true => simp [ht] at h
  | false =>
    simp only [ht, Bool.false_eq_true, if_false, Except.pure_eq] at h
    cases hc : viewWouldCycle s st.name st.query with
    | true =>
      simp only [hc, if_true, Except.throw_eq] at h
      split at h
      · cases hif : st.ifNotExists <;> simp [hif] at h
      · simp at h
    | false =>
      simp only [hc, Bool.false_eq_true, if_false] at h
      split at h
      · cases hif : st.ifNotExists <;> simp [hif] at h
      · obtain rfl : _ = op := by simpa using h
        exact .createView ht hc

/-- **Every accepted statement is one of the listed ones.** -/
theorem planned_of_plan {E : Env} {s : Store} {st : DdlStmt} {op : WalOp} (h : planDdl E s st = .ok (some op)) :
    Planned E s st op := by
  cases st with
  | createTable st => exact planned_createTable h
  | dropTable name ifExists =>
    obtain ⟨hthere, rfl⟩ := planDrop_eq_ok h
    exact .dropTable hthere
  | createIndex d ifNotExists => exact planned_createIndex h
  | dropIndex name ifExists =>
    obtain ⟨hthere, rfl⟩ := planDrop_eq_ok h
    exact .dropIndex hthere
  | alterTable table action => exact planned_alter h
  | createView st => exact planned_createView h
  | dropView name ifExists =>
    obtain ⟨hthere, rfl⟩ := planDrop_eq_ok h
    exact .dropView hthere
  | createPolicy table policy =>
    simp only [planDdl, planCreatePolicy] at h
    cases ht : s.table table with
    | none => simp [ht] at h
    | some t =>
      simp only [ht] at h
      split at h
      · simp at h
      · obtain ⟨_, -, h⟩ := Except.bind_eq_ok.1 h
        obtain ⟨_, -, h⟩ := Except.bind_eq_ok.1 h
        obtain rfl : _ = op := by simpa using h
        exact .createPolicy ht
  | dropPolicy name table ifExists =>
    obtain ⟨hthere, rfl⟩ := planDrop_eq_ok h
    cases ht : s.table table with
    | none => simp [ht] at hthere
    | some t => exact .dropPolicy ht

namespace Store

/-- The versions of `t'` are those of `t` with their images rewritten. -/
def Reshaped (t t' : Table) : Prop :=
  t'.nextVid = t.nextVid ∧ ∃ f : Row → Row, t'.rows = t.rows.map fun r => { r with values := f r.values }

theorem Reshaped.same {t t' : Table} (hvid : t'.nextVid = t.nextVid) (hrows : t'.rows = t.rows) : Reshaped t t' :=
  ⟨hvid, id, by simp [hrows]⟩

/-- Every table of `s'` is new and empty, or a reshaped table of `s`. -/
structure Reshapes (s s' : Store) : Prop where
  committedLsn : s'.committedLsn = s.committedLsn
  tables : ∀ k t', s'.tables.lookup k = some t' →
    (t'.rows = [] ∧ t'.nextVid = 1) ∨ ∃ k₀ t, s.tables.lookup k₀ = some t ∧ Reshaped t t'

variable {s s' : Store}

theorem SameButIndexes.reshapes (h : SameButIndexes s s') : Reshapes s s' := by
  refine ⟨h.committedLsn, fun k t' ht' => .inr ⟨k, t', ?_, .same rfl rfl⟩⟩
  rwa [h.tables] at ht'

theorem reshapes_modifyTable {name : String} {f : Table → Table} (hf : ∀ t, Reshaped t (f t)) :
    Reshapes s (s.modifyTable name f) := by
  refine ⟨rfl, fun k t' ht' => ?_⟩
  rw [lookup_modifyTable] at ht'
  obtain ⟨t, ht, rfl⟩ := Option.map_eq_some_iff.1 ht'
  refine .inr ⟨k, t, ht, ?_⟩
  split
  · exact hf t
  · exact .same rfl rfl

theorem reshapes_insertTable (schema : TableSchema) : Reshapes s (s.insertTable schema) := by
  refine ⟨rfl, fun k t' ht' => ?_⟩
  by_cases hk : k = key schema.name
  · subst hk
    rw [insertTable, AList.lookup_insert, Option.some.injEq] at ht'
    subst ht'
    exact .inl ⟨rfl, rfl⟩
  · rw [insertTable, AList.lookup_insert_ne hk] at ht'
    exact .inr ⟨k, t', ht', .same rfl rfl⟩

theorem lookup_of_lookup_erase {k k' : String} {t : Table}
    (h : (s.tables.erase k).lookup k' = some t) : s.tables.lookup k' = some t := by
  by_cases hk : k' = k
  · subst hk
    simp at h
  · rwa [AList.lookup_erase_ne hk] at h

theorem reshapes_dropTable (name : String) : Reshapes s (s.dropTable name) :=
  ⟨rfl, fun k t' ht' => .inr ⟨k, t', lookup_of_lookup_erase ht', .same rfl rfl⟩⟩

theorem reshapes_renameTable (source target : String) : Reshapes s (s.renameTable source target) := by
  unfold renameTable
  split
  · exact SameButIndexes.refl.reshapes
  · next t ht =>
    refine ⟨rfl, fun k t' ht' => .inr ?_⟩
    dsimp only at ht'
    by_cases hk : k = key target
    · subst hk
      rw [AList.lookup_insert, Option.some.injEq] at ht'
      subst ht'
      exact ⟨key source, t, ht, .same rfl rfl⟩
    · rw [AList.lookup_insert_ne hk] at ht'
      exact ⟨k, t', lookup_of_lookup_erase ht', .same rfl rfl⟩

theorem reshapes_dropColumn (table name : String) : Reshapes s (s.dropColumn table name) := by
  refine reshapes_modifyTable fun t => ?_
  split
  · exact .same rfl rfl
  · next idx _ => exact ⟨rfl, fun vals => vals.eraseIdx idx, rfl⟩

theorem reshapes_renameColumn (table source target : String) :
    Reshapes s (s.renameColumn table source target) := by
  refine reshapes_modifyTable fun t => ?_
  split
  · exact .same rfl rfl
  · exact .same rfl rfl

theorem reshapes_applyAlter (E : Env) (op : WalOp) : Reshapes s (applyAlter E s op) := by
  cases op with
  | alterAddColumn table column => exact reshapes_modifyTable fun t =>
      ⟨rfl, fun vals => vals ++ [columnFill E column], rfl⟩
  | alterDropColumn table column => exact reshapes_dropColumn table column
  | alterRenameColumn table source target => exact reshapes_renameColumn table source target
  | alterRenameTable table target => exact reshapes_renameTable table target
  | setRls table enabled => exact reshapes_modifyTable fun t => .same rfl rfl
  | _ => exact SameButIndexes.refl.reshapes

/-- **Live DDL keeps every stamp and id.** -/
theorem reshapes_applyDdl (E : Env) (st : DdlStmt) (op : WalOp) : Reshapes s (applyDdl E st s op) := by
  unfold applyDdl
  split
  · exact (sameButIndexes_createIndex _).reshapes
  · exact ⟨rfl, fun k t' ht' => .inr ⟨k, t', ht', .same rfl rfl⟩⟩
  · exact reshapes_insertTable _
  · exact reshapes_dropTable _
  · exact ⟨rfl, fun k t' ht' => .inr ⟨k, t', ht', .same rfl rfl⟩⟩
  · exact ⟨rfl, fun k t' ht' => .inr ⟨k, t', ht', .same rfl rfl⟩⟩
  · exact reshapes_modifyTable fun t => .same rfl rfl
  · exact reshapes_modifyTable fun t => .same rfl rfl
  · exact reshapes_applyAlter E _

end Store

end Twill
