/-
Rows against their schema (`store.rs`: `replay_insert`, `add_column`, `drop_column`,
`rename_table`; `conn.rs`: `do_alter`; `db.rs`: `apply_replay`).

A row is positional: it has as many values as its table has columns. Two schema
operations reshape every version in place, three statements write new versions, and
recovery writes logged versions without looking at them. A statement whose append
reports an error although its records are durable is in the log but not in the live
store, so what is logged after it was made under another schema than the one it is
replayed under.
-/
import Twill.Autoincrement

namespace Twill

open Mvcc (PENDING Op)
open Mvcc.Rows

/-! ## Rows of a width -/

/-- A row of `n` values. -/
def Wide (n : Nat) (vals : Row) : Prop := vals.length = n

/-- The columns, by the name a statement finds them under. -/
def TableSchema.names (S : TableSchema) : List String := S.columns.map fun c => Store.key c.name

theorem TableSchema.length_names (S : TableSchema) : S.names.length = S.columns.length := List.length_map _

theorem TableSchema.columnIndex_eq (S : TableSchema) (name : String) :
    S.columnIndex name = S.names.findIdx? fun n => n == Store.key name := by
  rw [columnIndex, names, List.findIdx?_map]
  rfl

/-- Every version of every table has a value for each column of its table. -/
def Store.Fits (s : Store) : Prop :=
  ∀ k t, s.tables.lookup k = some t → ∀ r ∈ t.rows, r.values.length = t.schema.columns.length

/-- A column that is found is a position in every row. -/
theorem Store.Fits.inRange {s : Store} (h : s.Fits) {table name : String} {t : Table} (ht : s.table table = some t)
    {i : Nat} (hi : t.schema.columnIndex name = some i) : ∀ r ∈ t.rows, i < r.values.length := by
  intro r hr
  rw [h _ t ht r hr]
  exact (List.findIdx?_eq_some_iff_getElem.1 hi).1

/-! ## What a statement writes -/

section Writes

variable {E : Env} {s : Store} {t : Table} {wc : WriteCtx} {n : Nat}

theorem length_fillSlot (ncols : Nat) (cells : List (Nat × Option Value)) : (fillSlot ncols cells).length = ncols := by
  suffices h : ∀ slot : Slot, (cells.foldl (fun slot c => slot.set c.1 c.2) slot).length = slot.length by
    rw [fillSlot, h, List.length_replicate]
  intro slot
  induction cells generalizing slot with
  | nil => rfl
  | cons c cells ih => rw [List.foldl_cons, ih, List.length_set]

theorem length_buildInsertSlots {schema : TableSchema} {columns : Option (List String)} {source : InsertSource}
    {slots : List Slot} (h : buildInsertSlots E s schema columns source wc = .ok slots) :
    ∀ slot ∈ slots, slot.length = schema.columns.length := by
  obtain ⟨targets, -, h⟩ := Except.bind_eq_ok.1 h
  cases source with
  | values rows =>
    intro slot hslot
    obtain ⟨exprs, -, hexprs⟩ := Except.exists_of_forall₂ (Except.mapM_eq_ok.1 h) slot hslot
    unfold valuesSlot at hexprs
    split_ifs at hexprs
    · obtain rfl := Except.ok.inj hexprs
      exact length_fillSlot _ _
    · obtain ⟨cells, -, hcells⟩ := Except.bind_eq_ok.1 hexprs
      obtain rfl := Except.ok.inj hcells
      exact length_fillSlot _ _
  | select sel =>
    obtain ⟨rs, -, h⟩ := Except.bind_eq_ok.1 h
    intro slot hslot
    obtain ⟨r, -, hr⟩ := Except.exists_of_forall₂ (Except.mapM_eq_ok.1 h) slot hslot
    unfold selectSlot at hr
    split_ifs at hr
    obtain rfl := Except.ok.inj hr
    exact length_fillSlot _ _

theorem length_finalizeRows {checks : List Expr} {schema : TableSchema} {table : String} {slots : List Slot}
    {autoinc autoinc' : Int64} {rows : List Row} (hslots : ∀ slot ∈ slots, slot.length = schema.columns.length)
    (h : finalizeRows E checks schema table slots autoinc = .ok (rows, autoinc')) :
    ∀ vals ∈ rows, Wide schema.columns.length vals := by
  induction slots generalizing autoinc rows with
  | nil =>
    cases h
    exact fun _ hv => by cases hv
  | cons slot slots ih =>
    simp only [finalizeRows] at h
    obtain ⟨⟨vals, n₁⟩, hcells, h⟩ := Except.bind_eq_ok.1 h
    obtain ⟨-, -, h⟩ := Except.bind_eq_ok.1 h
    obtain ⟨⟨rest, n₂⟩, hrest, h⟩ := Except.bind_eq_ok.1 h
    cases h
    intro vals' hmem
    rcases List.mem_cons.1 hmem with rfl | hmem
    · have hlen := (finalizeCells_spec hcells).2.1
      rw [List.length_zip, hslots slot List.mem_cons_self, min_self] at hlen
      exact hlen
    · exact ih (fun slot' h' => hslots slot' (List.mem_cons_of_mem _ h')) hrest vals' hmem

/-- A loop that sets cells leaves the width. -/
theorem length_foldlM_set {α : Type} {f : Row → α → Res Row}
    (hf : ∀ nv a nv', f nv a = .ok nv' → nv'.length = nv.length) {sets : List α} {row nv : Row}
    (h : sets.foldlM f row = .ok nv) : nv.length = row.length := by
  induction sets generalizing row with
  | nil =>
    obtain rfl := Except.ok.inj h
    rfl
  | cons a sets ih =>
    rw [List.foldlM_cons] at h
    obtain ⟨row', hrow', h⟩ := Except.bind_eq_ok.1 h
    exact (ih h).trans (hf _ _ _ hrow')

theorem length_upsertImage {schema : TableSchema} {table : String} {params : List Value}
    {existing excluded nv : Row} {sets : List (String × Expr)} {filter : Option Expr}
    (h : upsertImage E schema table params existing excluded sets filter = .ok (some nv)) :
    nv.length = existing.length := by
  obtain ⟨pass, -, h⟩ := Except.bind_eq_ok.1 h
  split at h
  · cases h
  · obtain ⟨nv', hfold, h⟩ := Except.bind_eq_ok.1 h
    obtain ⟨_, -, h⟩ := Except.bind_eq_ok.1 h
    obtain ⟨_, -, h⟩ := Except.bind_eq_ok.1 h
    cases h
    refine length_foldlM_set (fun nv a nv' hset => ?_) hfold
    obtain ⟨idx, -, hset⟩ := Except.bind_eq_ok.1 hset
    obtain ⟨v, -, hset⟩ := Except.bind_eq_ok.1 hset
    cases hset
    exact List.length_set

theorem length_updateImage {schema : TableSchema} {table : String} {targets : List (Nat × Expr)} {checks : List Expr}
    {withCheck : RlsDecision} {v : RowVersion} {ctx : EvalCtx} {a : Nat × Row}
    (h : updateImage E schema table targets checks withCheck v ctx = .ok a) : a.2.length = v.values.length := by
  obtain ⟨nv, hfold, h⟩ := Except.bind_eq_ok.1 h
  obtain ⟨_, -, h⟩ := Except.bind_eq_ok.1 h
  obtain ⟨_, -, h⟩ := Except.bind_eq_ok.1 h
  cases h
  refine length_foldlM_set (fun nv a nv' hset => ?_) hfold
  obtain ⟨val, -, hset⟩ := Except.bind_eq_ok.1 hset
  cases hset
  exact List.length_set

theorem planRows_wide {schema : TableSchema} {table : String} {params : List Value} {onConflict : OnConflict}
    {pending : List String} : ∀ {staged : List Row} {live : AList fun _ : String => Nat} {images : List (Nat × Row)}
      {next : Nat}, (∀ vals ∈ staged, Wide n vals) → (∀ p ∈ images, Wide n p.2) →
      ∀ w ∈ (planRows E schema table params onConflict pending staged live images next).1, Wide n w.vals
  | [], _, _, _, _, _, w, h => by simp [planRows] at h
  | v :: staged, live, images, next, hstaged, himages, w, h => by
    have hrest (vals : Row) (hv : vals ∈ staged) : Wide n vals := hstaged vals (List.mem_cons_of_mem _ hv)
    simp only [planRows] at h
    split at h
    · cases h
    · split at h
      · cases h
      · exact planRows_wide hrest himages w h
      · next rw hrow =>
        -- the row written: the staged one, or an image of `DO UPDATE` over a row of the width
        have hw : Wide n rw.vals := by
          rcases planRow_cases hrow with ⟨-, rfl⟩ | ⟨_, -, -, rfl⟩ | ⟨old, _, _, existing, nv, -, -, himage, hnv, rfl⟩
          · exact hstaged v List.mem_cons_self
          · exact hstaged v List.mem_cons_self
          · obtain ⟨p, hp, rfl⟩ := Option.map_eq_some_iff.1 himage
            exact (length_upsertImage hnv).trans (himages p (List.mem_of_find?_eq_some hp))
        rcases List.mem_cons.1 h with rfl | h
        · exact hw
        · refine planRows_wide hrest (fun p hp => ?_) w h
          rcases List.mem_append.1 hp with hp | hp
          · exact himages p hp
          · obtain rfl := List.mem_singleton.1 hp
            exact hw

/-- **What a statement writes has the width of its table**, if the versions there have it. -/
theorem dmlPlan_wide (st : DmlStmt) (ht : s.table st.table = some t) (hrows : Each (Wide t.schema.columns.length) t.rows) :
    ∀ w ∈ (dmlPlan E st wc s).1, ∀ vals, w.created = some vals → Wide t.schema.columns.length vals := by
  intro w hw vals hvals
  cases st with
  | insert st =>
    have ht' : s.table st.table = some t := ht
    simp only [dmlPlan, DmlStmt.table, ht'] at hw
    rcases insertPlan_writes (E := E) (s := s) (t := t) st wc with hnil | ⟨staged, autoinc, hstaged, hws⟩
    · rw [hnil] at hw
      cases hw
    · rw [hws] at hw
      obtain ⟨⟨staged', autoinc'⟩, hstage, hrest⟩ := Except.bind_eq_ok.1 hstaged
      obtain ⟨-, -, hpair⟩ := Except.bind_eq_ok.1 hrest
      cases hpair
      obtain ⟨slots, checks, hslots, hfinal⟩ := stageInsert_eq_ok ht' hstage
      have hwide := length_finalizeRows (length_buildInsertSlots hslots) hfinal
      have hw' : Wide t.schema.columns.length w.vals := by
        rw [insertWrites] at hw
        split at hw
        · obtain ⟨vals', hvals', rfl⟩ := List.mem_map.1 hw
          exact hwide vals' hvals'
        · refine planRows_wide hwide (fun p hp => ?_) w hw
          obtain ⟨r, hr, rfl⟩ := List.mem_map.1 hp
          exact hrows r hr
      cases w <;> cases hvals <;> exact hw'
  | update st =>
    have ht' : s.table st.table = some t := ht
    simp only [dmlPlan, DmlStmt.table, ht'] at hw
    rcases updatePlan_writes (E := E) (s := s) (t := t) st wc with hnil | ⟨updates, hupdates, hws⟩
    · rw [hnil] at hw
      cases hw
    · rw [hws] at hw
      obtain ⟨u, hu, rfl⟩ := List.mem_map.1 hw
      cases hvals
      obtain ⟨targets, checks, using_, withCheck, vs, -, -, -, hsub, hall⟩ :=
        computeUpdates_eq_ok (updateImages_eq_ok hupdates).1
      obtain ⟨v, hv, htarget⟩ := Except.exists_of_forall₂ hall u hu
      obtain ⟨ctx, hctx⟩ := htarget.acted
      exact (length_updateImage hctx).trans (hrows v (hsub.subset hv))
  | delete st =>
    have ht' : s.table st.table = some t := ht
    simp only [dmlPlan, DmlStmt.table, ht'] at hw
    rcases deletePlan_writes (E := E) (s := s) (t := t) st wc with hnil | ⟨victims, -, hws⟩
    · rw [hnil] at hw
      cases hw
    · rw [hws] at hw
      obtain ⟨u, -, rfl⟩ := List.mem_map.1 hw
      cases hvals

theorem dmlOps_wide (st : DmlStmt) (ht : s.table st.table = some t) (hrows : Each (Wide t.schema.columns.length) t.rows) :
    EachInsert (Wide t.schema.columns.length) (dmlOps E st wc s) := by
  intro vid vals hop
  rw [dmlOps_eq ht] at hop
  rcases created_of_insert hop with hadded | ⟨old, hold⟩
  · exact dmlPlan_wide st ht hrows _ hadded vals rfl
  · exact dmlPlan_wide st ht hrows _ hold vals rfl

end Writes

/-! ## Reshaping -/

/-- Tables that both stores have are found to have the same columns. -/
def Store.Alike (s s' : Store) : Prop :=
  ∀ k t t', s.tables.lookup k = some t → s'.tables.lookup k = some t' → t.schema.names = t'.schema.names

/-- If there are tables of these names in the two stores, they have the same columns. -/
def Store.SameColumns (s : Store) (name : String) (s' : Store) (name' : String) : Prop :=
  ∀ t t', s.table name = some t → s'.table name' = some t' → t.schema.names = t'.schema.names

def Table.Fits (t : Table) : Prop := ∀ r ∈ t.rows, r.values.length = t.schema.columns.length

section Reshape

variable {s s' : Store} {name : String} {f f' : Table → Table}

theorem Store.Fits.modify (h : s.Fits) (hf : ∀ t : Table, t.Fits → (f t).Fits) : (s.modifyTable name f).Fits := by
  intro k t ht
  rw [Store.lookup_modifyTable] at ht
  obtain ⟨t₀, ht₀, rfl⟩ := Option.map_eq_some_iff.1 ht
  split
  · exact hf t₀ (h k t₀ ht₀)
  · exact h k t₀ ht₀

theorem Store.Alike.modify (h : s.Alike s')
    (hf : ∀ t t' : Table, t.schema.names = t'.schema.names → (f t).schema.names = (f' t').schema.names) :
    (s.modifyTable name f).Alike (s'.modifyTable name f') := by
  intro k t t' ht ht'
  rw [Store.lookup_modifyTable] at ht ht'
  obtain ⟨t₀, ht₀, rfl⟩ := Option.map_eq_some_iff.1 ht
  obtain ⟨t₀', ht₀', rfl⟩ := Option.map_eq_some_iff.1 ht'
  split
  · exact hf t₀ t₀' (h k t₀ t₀' ht₀ ht₀')
  · exact h k t₀ t₀' ht₀ ht₀'

/-- Columns changed in the second store only. -/
theorem Store.Alike.modify_right (h : s.Alike s')
    (hf : ∀ t t' : Table, s.table name = some t → s'.table name = some t' → t.schema.names = t'.schema.names →
      t.schema.names = (f' t').schema.names) : s.Alike (s'.modifyTable name f') := by
  intro k t t' ht ht'
  rw [Store.lookup_modifyTable] at ht'
  obtain ⟨t₀', ht₀', rfl⟩ := Option.map_eq_some_iff.1 ht'
  split
  · next hk =>
    subst hk
    exact hf t t₀' ht ht₀' (h _ t t₀' ht ht₀')
  · exact h k t t₀' ht ht₀'

theorem names_modify (S : TableSchema) (i : Nat) (target : String) :
    TableSchema.names { S with columns := S.columns.modify i fun c => { c with name := target } } =
      S.names.modify i fun _ => Store.key target := by
  simp only [TableSchema.names]
  apply List.ext_getElem?
  intro j
  simp only [List.getElem?_map, List.getElem?_modify]
  cases S.columns[j]? with
  | none => rfl
  | some c =>
    by_cases hij : i = j
    · simp [hij]
    · simp [hij]

theorem names_eraseIdx (S : TableSchema) (i : Nat) :
    TableSchema.names { S with columns := S.columns.eraseIdx i } = S.names.eraseIdx i := by
  simp only [TableSchema.names, List.eraseIdx_map]

theorem lookup_renameTable (source target : String) (k : String) (t : Table)
    (h : (s.renameTable source target).tables.lookup k = some t) :
    (k = Store.key target ∧ ∃ t₀, s.table source = some t₀ ∧ t = { t₀ with schema := { t₀.schema with name := target } }) ∨
      (s.tables.lookup k = some t ∧ (k ≠ Store.key target ∨ s.table source = none)) := by
  rw [Store.renameTable] at h
  split at h
  · next hnone => exact .inr ⟨h, .inr hnone⟩
  · next t₀ ht₀ =>
    dsimp only at h
    by_cases hk : k = Store.key target
    · subst hk
      rw [AList.lookup_insert] at h
      exact .inl ⟨rfl, t₀, ht₀, (Option.some.inj h).symm⟩
    · rw [AList.lookup_insert_ne hk] at h
      exact .inr ⟨(Store.lookup_of_lookup_erase h), .inl hk⟩

theorem Store.Fits.of_tables (h : s.Fits) (hs : s'.tables = s.tables) : s'.Fits := fun k t ht => h k t (hs ▸ ht)

theorem Store.Alike.of_tables {s₁ s₁' : Store} (h : s.Alike s') (hs : s₁.tables = s.tables) (hs' : s₁'.tables = s'.tables) :
    s₁.Alike s₁' := fun k t t' ht ht' => h k t t' (hs ▸ ht) (hs' ▸ ht')

/-- **A schema operation reshapes the versions with the columns.** -/
theorem Store.Fits.reshape (h : s.Fits) (E : Env) (lsn : Nat) {op : WalOp} (hop : op.isRow = false) :
    (applyReplay E lsn s op).Fits := by
  cases op with
  | createTable schema =>
    intro k t ht
    by_cases hk : k = Store.key schema.name
    · subst hk
      have ht' : (s.tables.insert (Store.key schema.name) (Table.new schema)).lookup (Store.key schema.name) = some t := ht
      rw [AList.lookup_insert] at ht'
      obtain rfl := Option.some.inj ht'
      exact fun r hr => by cases hr
    · have ht' : (s.tables.insert (Store.key schema.name) (Table.new schema)).lookup k = some t := ht
      rw [AList.lookup_insert_ne hk] at ht'
      exact h k t ht'
  | dropTable name => exact fun k t ht => h k t (Store.lookup_of_lookup_erase ht)
  | insert | delete => cases hop
  | createIndex | dropIndex | dropView | commit => exact h
  | alterAddColumn table column =>
    refine h.modify fun t ht r hr => ?_
    obtain ⟨r₀, hr₀, rfl⟩ := List.mem_map.1 hr
    simp only [List.length_append, List.length_singleton, ht r₀ hr₀]
  | alterDropColumn table column =>
    refine h.modify fun t ht => ?_
    split
    · exact ht
    · next idx hidx =>
      intro r hr
      obtain ⟨r₀, hr₀, rfl⟩ := List.mem_map.1 hr
      simp only [List.length_eraseIdx, ht r₀ hr₀]
  | alterRenameColumn table source target =>
    refine h.modify fun t ht => ?_
    split
    · exact ht
    · next idx hidx =>
      intro r hr
      simp only [List.length_modify]
      exact ht r hr
  | alterRenameTable table target =>
    intro k t ht
    rcases lookup_renameTable table target k t ht with ⟨-, t₀, ht₀, rfl⟩ | ⟨ht, -⟩
    · exact h _ t₀ ht₀
    · exact h k t ht
  | createView name sql =>
    simp only [applyReplay]
    split <;> exact h
  | createPolicy | dropPolicy | setRls => exact h.modify fun t ht => ht

/-- Two stores stay alike under a schema operation, except that a table only the first has may
be renamed onto one of the second. -/
theorem Store.Alike.reshape (h : s.Alike s') (E E' : Env) (lsn lsn' : Nat) {op : WalOp} (hop : op.isRow = false)
    (hrename : ∀ table target, op = .alterRenameTable table target →
      s.hasTable table = true ∧ (s'.hasTable table = true ∨ s.SameColumns table s' target)) :
    (applyReplay E lsn s op).Alike (applyReplay E' lsn' s' op) := by
  cases op with
  | createTable schema =>
    intro k t t' ht ht'
    by_cases hk : k = Store.key schema.name
    · subst hk
      have hl : (s.tables.insert (Store.key schema.name) (Table.new schema)).lookup (Store.key schema.name) = some t := ht
      have hr : (s'.tables.insert (Store.key schema.name) (Table.new schema)).lookup (Store.key schema.name) = some t' := ht'
      rw [AList.lookup_insert] at hl hr
      obtain rfl := Option.some.inj hl
      obtain rfl := Option.some.inj hr
      rfl
    · have hl : (s.tables.insert (Store.key schema.name) (Table.new schema)).lookup k = some t := ht
      have hr : (s'.tables.insert (Store.key schema.name) (Table.new schema)).lookup k = some t' := ht'
      rw [AList.lookup_insert_ne hk] at hl hr
      exact h k t t' hl hr
  | dropTable name =>
    exact fun k t t' ht ht' => h k t t' (Store.lookup_of_lookup_erase ht) (Store.lookup_of_lookup_erase ht')
  | insert | delete => cases hop
  | createIndex | dropIndex | dropView | commit => exact h
  | alterAddColumn table column =>
    refine h.modify fun t t' heq => ?_
    simp only [TableSchema.names, List.map_append] at heq ⊢
    rw [heq]
  | alterDropColumn table column =>
    refine h.modify fun t t' heq => ?_
    rw [TableSchema.columnIndex_eq, TableSchema.columnIndex_eq, heq]
    cases t'.schema.names.findIdx? fun n => n == Store.key column with
    | none => exact heq
    | some idx => simp only [names_eraseIdx, heq]
  | alterRenameColumn table source target =>
    refine h.modify fun t t' heq => ?_
    rw [TableSchema.columnIndex_eq, TableSchema.columnIndex_eq, heq]
    cases t'.schema.names.findIdx? fun n => n == Store.key source with
    | none => exact heq
    | some idx => simp only [names_modify, heq]
  | alterRenameTable table target =>
    obtain ⟨hthere, hrename⟩ := hrename table target rfl
    obtain ⟨ts, hts⟩ := Option.isSome_iff_exists.1 hthere
    intro k t t' ht ht'
    rcases lookup_renameTable table target k t ht with ⟨hk, t₀, ht₀, rfl⟩ | ⟨ht, hk⟩
    · rcases lookup_renameTable table target k t' ht' with ⟨-, t₀', ht₀', rfl⟩ | ⟨ht', hk'⟩
      · exact h _ t₀ t₀' ht₀ ht₀'
      · -- only the first store has the table
        have hnone : s'.table table = none := hk'.resolve_left fun hne => hne hk
        rcases hrename with hthere' | hsame
        · rw [Store.hasTable, hnone] at hthere'
          cases hthere'
        · refine hsame t₀ t' ht₀ ?_
          rw [Store.table, ← hk]
          exact ht'
    · have hne : k ≠ Store.key target := hk.resolve_right fun hnone => by rw [hts] at hnone; cases hnone
      rcases lookup_renameTable table target k t' ht' with ⟨hk', -⟩ | ⟨ht', -⟩
      · exact absurd hk' hne
      · exact h k t t' ht ht'
  | createView name sql =>
    have hviews (E : Env) (lsn : Nat) (s : Store) : (applyReplay E lsn s (.createView name sql)).tables = s.tables := by
      simp only [applyReplay]
      split <;> rfl
    exact h.of_tables (hviews E lsn s) (hviews E' lsn' s')
  | createPolicy | dropPolicy | setRls => exact h.modify fun t t' heq => heq

/-- A statement that, recovered without having been applied, leaves the tables both stores have
with the same columns: it adds, drops and renames no column of one, and renames none onto a
table with other columns. -/
def DdlStmt.Aside (s s' : Store) : DdlStmt → Prop
  | .alterTable table (.addColumn _) => s'.hasTable table = false
  | .alterTable table (.dropColumn _ _) => s'.hasTable table = false
  | .alterTable table (.renameColumn source target) => s'.hasTable table = false ∨
      Store.key source = Store.key target ∨ ∀ t, s.table table = some t → t.schema.columnIndex source = none
  | .alterTable table (.renameTable target) => s'.hasTable table = false ∨ s.SameColumns table s target
  | _ => True

/-- A statement that, applied and recovered, does: a table that recovery does not have is not
renamed onto one it has with other columns. -/
def DdlStmt.Along (s s' : Store) : DdlStmt → Prop
  | .alterTable table (.renameTable target) => s'.hasTable table = true ∨ s.SameColumns table s' target
  | _ => True

theorem table_none_of_hasTable {table : String} (h : s.hasTable table = false) : s.table table = none := by
  rw [Store.hasTable] at h
  simpa using h

theorem Store.Alike.aside (h : s.Alike s') {E : Env} {st : DdlStmt} {op : WalOp} (hp : Planned E s st op)
    (hst : st.Aside s s') (E' : Env) (lsn : Nat) : s.Alike (applyReplay E' lsn s' op) := by
  cases hp with
  | @createTable st cols fks hfresh hcols hfks =>
    intro k t t' ht ht'
    by_cases hk : k = Store.key st.name
    · rw [Store.table, ← hk, ht] at hfresh
      cases hfresh
    · have hr : (s'.tables.insert (Store.key st.name) (Table.new ⟨st.name, cols, fks, st.checks, st.uniques, false, []⟩)).lookup
          k = some t' := ht'
      rw [AList.lookup_insert_ne hk] at hr
      exact h k t t' ht hr
  | dropTable => exact fun k t t' ht ht' => h k t t' ht (Store.lookup_of_lookup_erase ht')
  | createIndex | dropIndex | dropView => exact h
  | addColumn ht hfresh =>
    refine h.modify_right fun t t' _ ht' => ?_
    rw [table_none_of_hasTable hst] at ht'
    cases ht'
  | dropColumn ht hidx =>
    refine h.modify_right fun t t' _ ht' => ?_
    rw [table_none_of_hasTable hst] at ht'
    cases ht'
  | @renameColumn table source target t₀ ht₀ =>
    refine h.modify_right fun t t' ht ht' heq => ?_
    rw [TableSchema.columnIndex_eq, ← heq]
    cases hidx : t.schema.names.findIdx? fun n => n == Store.key source with
    | none => exact heq
    | some idx =>
      rcases hst with hnone | hsame | hmissing
      · rw [table_none_of_hasTable hnone] at ht'
        cases ht'
      · -- the name changes its case only
        simp only [names_modify]
        rw [← heq]
        apply List.ext_getElem?
        intro j
        rw [List.getElem?_modify]
        obtain ⟨hlt, hfound, -⟩ := List.findIdx?_eq_some_iff_getElem.1 hidx
        by_cases hj : idx = j
        · subst hj
          rw [List.getElem?_eq_getElem hlt]
          simp only [if_true, Option.map_some, Option.some.injEq]
          rw [← hsame]
          exact beq_iff_eq.1 hfound
        · simp [hj]
      · have hnone := hmissing t ht
        rw [TableSchema.columnIndex_eq, hidx] at hnone
        cases hnone
  | @renameTable table target ts hts =>
    intro k t t' ht ht'
    rcases lookup_renameTable table target k t' ht' with ⟨rfl, t₀, ht₀, rfl⟩ | ⟨ht', -⟩
    · rcases hst with hnone | hsame
      · rw [table_none_of_hasTable hnone] at ht₀
        cases ht₀
      · exact (hsame ts t hts ht).symm.trans (h _ ts t₀ hts ht₀)
    · exact h k t t' ht ht'
  | @createView st hfresh hacyclic =>
    have hviews : (applyReplay E' lsn s' (.createView st.name st.sql)).tables = s'.tables := by
      simp only [applyReplay]
      split <;> rfl
    exact h.of_tables rfl hviews
  | createPolicy | dropPolicy | setRls => exact h.modify_right fun t t' _ _ heq => heq

theorem not_isRow_of_planned {E : Env} {st : DdlStmt} {op : WalOp} (hp : Planned E s st op) : op.isRow = false := by
  cases hp <;> rfl

theorem tables_applyDdl {E : Env} {st : DdlStmt} {op : WalOp} (hp : Planned E s st op) (lsn : Nat) :
    (applyDdl E st s op).tables = (applyReplay E lsn s op).tables := by
  cases hp with
  | @createIndex d => exact (Store.sameButIndexes_createIndex d).tables
  | createView =>
    simp only [applyDdl, applyReplay]
    split <;> rfl
  | _ => rfl

theorem Store.Alike.along (h : s.Alike s') {E : Env} {st : DdlStmt} {op : WalOp} (hp : Planned E s st op)
    (hst : st.Along s s') (E' : Env) (lsn : Nat) : (applyDdl E st s op).Alike (applyReplay E' lsn s' op) := by
  refine (h.reshape E E' lsn lsn (not_isRow_of_planned hp) ?_).of_tables (tables_applyDdl hp lsn) rfl
  rintro table target rfl
  cases hp with
  | renameTable ht => exact ⟨by rw [Store.hasTable, ht]; rfl, hst⟩

end Reshape

/-! ## What is buffered, in flight and logged -/

/-- Row operations whose inserts have the width of their table. -/
structure Sized (s : Store) (ops : List WalOp) : Prop where
  isRow : ∀ op ∈ ops, op.isRow = true
  fits : ∀ table vid vals, WalOp.insert table vid vals ∈ ops →
    ∃ t, s.table table = some t ∧ Wide t.schema.columns.length vals

/-- The tables are there under the same schemas. -/
def Store.SameSchemas (s s' : Store) : Prop :=
  ∀ k, (s'.tables.lookup k).map (·.schema) = (s.tables.lookup k).map (·.schema)

section Logged

variable {E₀ : Env} {s s' : Store} {ops ops' : List WalOp} {log : List WalEntry}

theorem Sized.nil : Sized s [] := ⟨by simp, by simp⟩

theorem Sized.append (h : Sized s ops) (h' : Sized s ops') : Sized s (ops ++ ops') :=
  ⟨fun op hop => (List.mem_append.1 hop).elim (h.isRow op) (h'.isRow op),
    fun table vid vals hop => (List.mem_append.1 hop).elim (h.fits table vid vals) (h'.fits table vid vals)⟩

theorem Sized.take (h : Sized s ops) (n : Nat) : Sized s (ops.take n) :=
  ⟨fun op hop => h.isRow op (List.mem_of_mem_take hop), fun table vid vals hop => h.fits table vid vals (List.mem_of_mem_take hop)⟩

theorem Sized.no_commit (h : Sized s ops) : ∀ op ∈ ops, op ≠ .commit := fun op hop heq => by
  have hrow := h.isRow op hop
  rw [heq] at hrow
  cases hrow

theorem Store.SameSchemas.exists (h : s.SameSchemas s') {k : String} {t : Table} (ht : s.tables.lookup k = some t) :
    ∃ t', s'.tables.lookup k = some t' ∧ t'.schema = t.schema := by
  have hk := h k
  rw [ht] at hk
  exact Option.map_eq_some_iff.1 hk

theorem Store.SameSchemas.symm (h : s.SameSchemas s') : s'.SameSchemas s := fun k => (h k).symm

theorem Sized.congr (h : Sized s ops) (hs : s.SameSchemas s') : Sized s' ops := by
  refine ⟨h.isRow, fun table vid vals hop => ?_⟩
  obtain ⟨t, ht, hwide⟩ := h.fits table vid vals hop
  obtain ⟨t', ht', hschema⟩ := hs.exists ht
  exact ⟨t', ht', hschema ▸ hwide⟩

theorem Store.Alike.congr {img : Store} (h : s.Alike img) (hs : s.SameSchemas s') : s'.Alike img := by
  intro k t t' ht ht'
  obtain ⟨t₀, ht₀, hschema⟩ := hs.symm.exists ht
  rw [← hschema]
  exact h k t₀ t' ht₀ ht'

/-- What the log replays to: rows that fit, under the columns of the live store. -/
def LogFits (E₀ : Env) (s : Store) (log : List WalEntry) : Prop :=
  ∃ img, image E₀ log = (img, []) ∧ img.Fits ∧ s.Alike img

theorem mem_opsAt_insert {k : String} {vid : Nat} {vals : Row} (h : Op.insert vid vals ∈ opsAt k ops) :
    ∃ table, Store.key table = k ∧ WalOp.insert table vid vals ∈ ops := by
  obtain ⟨op, hop, hat⟩ := List.mem_filterMap.1 h
  cases op with
  | insert table vid' vals' =>
    simp only [WalOp.at] at hat
    split at hat
    · next hk =>
      cases hat
      exact ⟨table, hk, hop⟩
    · cases hat
  | delete table vid' =>
    simp only [WalOp.at] at hat
    split at hat <;> cases hat
  | _ => cases hat

/-- A recovered member: the rows it inserted fit, since the table it inserted them into had
the columns of the recovered one. -/
theorem LogFits.member (h : LogFits E₀ s log) (first : Nat) {m : Member} (hm : Sized s m.ops) :
    LogFits E₀ s (log ++ Sys.numberFrom first m.records) := by
  obtain ⟨img, himg, hfits, halike⟩ := h
  have hmarked := Sys.foldl_replayEntry_marked E₀ hm.no_commit first img
  have himg' := (image_append E₀ log (Sys.numberFrom first m.records)).trans (himg ▸ hmarked)
  have hdata (k : String) : (m.ops.foldl (applyReplay E₀ (first + m.ops.length)) img).data k = _ :=
    (foldl_applyReplay E₀ (first + m.ops.length) hm.isRow img).1 k
  -- each table is there as before, with the member's operations committed
  have hthere (k : String) (t : Table)
      (ht : (m.ops.foldl (applyReplay E₀ (first + m.ops.length)) img).tables.lookup k = some t) :
      ∃ t₀, img.tables.lookup k = some t₀ ∧ t.schema = t₀.schema ∧
        t.rows = t₀.rows.commitAll (first + m.ops.length) (opsAt k m.ops) := by
    have hk := hdata k
    simp only [Store.data, ht, Option.map_some] at hk
    cases ht₀ : img.tables.lookup k with
    | none => simp [ht₀] at hk
    | some t₀ =>
      rw [ht₀] at hk
      obtain ⟨hschema, hrows⟩ := Prod.mk.inj (Option.some.inj hk)
      exact ⟨t₀, rfl, hschema, hrows⟩
  refine ⟨_, himg', fun k t ht => ?_, fun k t t' ht ht' => ?_⟩
  · obtain ⟨t₀, ht₀, hschema, hrows⟩ := hthere k t ht
    rw [hschema, hrows]
    refine Each.commitAll (p := Wide t₀.schema.columns.length) (hfits k t₀ ht₀) _ fun vid vals hop => ?_
    obtain ⟨table, rfl, hmem⟩ := mem_opsAt_insert hop
    obtain ⟨tl, htl, hwide⟩ := hm.fits table vid vals hmem
    have hnames := congrArg List.length (halike _ tl t₀ htl ht₀)
    rw [TableSchema.length_names, TableSchema.length_names] at hnames
    exact hnames ▸ hwide
  · obtain ⟨t₀, ht₀, hschema, -⟩ := hthere k t' ht'
    rw [hschema]
    exact halike k t t₀ ht ht₀

theorem LogFits.batch (h : LogFits E₀ s log) (first : Nat) {ms : List Member} (hms : ∀ m ∈ ms, Sized s m.ops) :
    LogFits E₀ s (log ++ Sys.numberFrom first (Sys.batchRecords ms)) := by
  induction ms generalizing log first with
  | nil => simpa [Sys.batchRecords, Sys.numberFrom] using h
  | cons m ms ih =>
    have hsplit : Sys.batchRecords (m :: ms) = m.records ++ Sys.batchRecords ms := rfl
    rw [hsplit, Sys.numberFrom_append, ← List.append_assoc]
    exact ih (h.member first (hms m List.mem_cons_self)) _ fun m' hm' => hms m' (List.mem_cons_of_mem _ hm')

/-- The records of a schema operation are applied at its marker. -/
theorem image_ddl {img : Store} (himg : image E₀ log = (img, [])) (first : Nat) {op : WalOp} (hop : op ≠ .commit) :
    ∃ img', image E₀ (log ++ Sys.numberFrom first [op, .commit]) = (img', []) ∧
      img'.tables = (applyReplay E₀ (first + 1) img op).tables := by
  have hops : ∀ op' ∈ [op], op' ≠ .commit := by simpa using hop
  have hmarked := Sys.foldl_replayEntry_marked E₀ hops first img
  have himg' := (image_append E₀ log (Sys.numberFrom first ([op] ++ [.commit]))).trans (himg ▸ hmarked)
  exact ⟨_, himg', rfl⟩

end Logged

/-! ## What happens to a database -/

inductive Event where
  /-- A step of the running database. -/
  | act (a : Act)
  /-- A DDL statement whose append reports an error although its records are durable. -/
  | ddlUnconfirmed (c : Nat) (E : Env) (st : DdlStmt) (first : Nat)
  /-- The same of the batch the leader has drained. -/
  | appendUnconfirmed (first : Nat)
  /-- The database is opened again from its log. -/
  | reopen

/-- One event; `none` when it cannot happen. -/
def happen (E₀ : Env) (σ : Sys) : Event → Option Sys
  | .act a => step σ a
  | .ddlUnconfirmed c E st first => match σ.conns c with
    | ⟨none, .idle⟩ =>
      if σ.lane.isNone && σ.quiesced then match planDdl E σ.store st with
        | .ok (some op) => σ.appendLog first [op, .commit]
        | _ => none
      else none
    | _ => none
  | .appendUnconfirmed first => match σ.flush with
    | .drained ms => (σ.appendLog first (Sys.batchRecords ms)).map fun τ => { τ with flush := .failed ms }
    | _ => none
  | .reopen => some (σ.reopened E₀)

/-- No schema change is in the log but not in the live store, nor is a table renamed that only
the live store has, so that a table of both has other columns. -/
def Confirmed (E₀ : Env) (σ : Sys) : Event → Prop
  | .act (.ddl _ _ st _) => st.Along σ.store (image E₀ σ.log).1
  | .ddlUnconfirmed _ _ st _ => st.Aside σ.store (image E₀ σ.log).1
  | _ => True

/-- What every database satisfies whose events were confirmed: its rows fit, what is buffered,
in flight or logged fits when it is recovered. -/
structure Matched (E₀ : Env) (σ : Sys) : Prop extends Sys.Owners σ where
  live : σ.store.Fits
  buffered : ∀ c t, (σ.conns c).txn = some t → Sized σ.store t.walOps
  queued : ∀ m ∈ σ.inFlight, Sized σ.store m.ops
  log : LogFits E₀ σ.store σ.log

section Events

variable {E₀ : Env} {σ τ : Sys} {a : Act}

/-- A step other than DDL keeps the schemas, and what it writes fits them. -/
theorem Store.Fits.step (h : σ.store.Fits) {s : Store} (hs : Sys.StoreStep σ a s)
    (hddl : ∀ c E st o, a ≠ .ddl c E st o) : s.Fits ∧ σ.store.SameSchemas s := by
  -- a row operation on every table that keeps what its rows hold
  have hmap {s' : Store} {f : Mvcc.Rows Row → Mvcc.Rows Row} (hs' : Store.SameButIndexes (σ.store.mapRows f) s')
      (hf : ∀ n rows, Each (Wide n) rows → Each (Wide n) (f rows)) : s'.Fits ∧ σ.store.SameSchemas s' := by
    have hlookup (k : String) : s'.tables.lookup k = (σ.store.tables.lookup k).map fun t => { t with rows := f t.rows } := by
      rw [hs'.tables, Store.lookup_mapRows]
    refine ⟨fun k t ht => ?_, fun k => ?_⟩
    · rw [hlookup] at ht
      obtain ⟨t₀, ht₀, rfl⟩ := Option.map_eq_some_iff.1 ht
      exact hf _ _ (h k t₀ ht₀)
    · rw [hlookup, Option.map_map]
      rfl
  cases hs with
  | same => exact ⟨h, fun k => rfl⟩
  | @dml c t E st params ht hlane =>
    obtain ⟨autoinc, hlookup⟩ := runDml_lookup E st ⟨t.snapshot, t.owner, params⟩ σ.store
    refine ⟨fun k tb htb => ?_, fun k => ?_⟩
    · rw [hlookup] at htb
      obtain ⟨t₀, ht₀, rfl⟩ := Option.map_eq_some_iff.1 htb
      split
      · next hk =>
        subst hk
        have hops : EachInsert (Wide t₀.schema.columns.length) (dmlOps E st ⟨t.snapshot, t.owner, params⟩ σ.store) :=
          dmlOps_wide st ht₀ (h _ t₀ ht₀)
        rw [dmlOps_eq ht₀] at hops
        exact Each.pendAll (p := Wide t₀.schema.columns.length) (h _ t₀ ht₀) t.owner hops
      · exact h k t₀ ht₀
    · rw [hlookup, Option.map_map]
      congr 1
      funext tb
      simp only [Function.comp_apply]
      split <;> rfl
  | @rollback c t ht hwriter =>
    exact hmap (Store.rollbackOwner_eq t.owner) fun n rows hrows => hrows.rollback t.owner
  | @rollbackTo c t name sp ht hwriter =>
    exact hmap (Store.rollbackToSavepoint_eq t.owner sp.inserted sp.deleted) fun n rows hrows =>
      hrows.rollbackTo t.owner sp.inserted sp.deleted
  | @publish ms first hflush =>
    refine ⟨fun k t ht => ?_, fun k => ?_⟩
    · rw [Sys.publish_eq] at ht
      obtain ⟨t₀, ht₀, rfl⟩ := Option.map_eq_some_iff.1 ht
      exact Each.finalizeAll (p := Wide t₀.schema.columns.length) (h k t₀ ht₀) _
    · rw [Sys.publish_eq, Option.map_map]
      rfl
  | @discard ms hflush =>
    exact hmap (Sys.discardMembers_eq σ.store ms) fun n rows hrows => hrows.rollbackAll _
  | ddl => exact absurd rfl (hddl _ _ _ _)

/-- The operations a transaction has buffered after a step. -/
theorem Matched.txn_step (h : Matched E₀ σ) (hs : Stepped σ a τ) (c : Nat) (t : Txn) (ht : (τ.conns c).txn = some t) :
    Sized σ.store t.walOps := by
  cases Sys.txnStep_of_stepped hs ht with
  | opened => exact .nil
  | @dml t₀ E st params m w ht₀ hact hrun hstore =>
    refine (h.buffered c t₀ ht₀).append ⟨fun op hop => ?_, fun table vid vals hop => ?_⟩
    · rw [runDml_wal hrun] at hop
      obtain ⟨op', -, rfl⟩ := List.mem_map.1 hop
      exact isRow_toWal _ _
    · rw [runDml_wal hrun] at hop
      obtain ⟨op', hop', heq⟩ := List.mem_map.1 hop
      cases op' with
      | delete vid' => cases heq
      | insert vid' vals' =>
        cases heq
        cases htb : σ.store.table st.table with
        | none =>
          rw [dmlOps, dmlPlan_of_none htb] at hop'
          cases hop'
        | some tb => exact ⟨tb, rfl, dmlOps_wide st htb (h.live _ tb htb) _ _ hop'⟩
  | @dmlFail t₀ E st params e w ht₀ => exact h.buffered c t₀ ht₀
  | @savepoint t₀ name ht₀ => exact h.buffered c t₀ ht₀
  | @release t₀ name i ht₀ => exact h.buffered c t₀ ht₀
  | @rollbackTo t₀ name i sp ht₀ => exact (h.buffered c t₀ ht₀).take _
  | kept ht₀ => exact h.buffered c t ht₀

theorem Matched.member_step (h : Matched E₀ σ) (hs : Stepped σ a τ) : ∀ m ∈ τ.inFlight, Sized σ.store m.ops := by
  have hsub (hin : τ.inFlight ⊆ σ.inFlight) : ∀ m ∈ τ.inFlight, Sized σ.store m.ops := fun m hm => h.queued m (hin hm)
  cases hs with
  | @enqueue c' t phase hconn hwriter hops =>
    intro m hm
    have hm' : m ∈ σ.inFlight ++ [⟨t.owner, t.walOps⟩] := by
      simpa [Sys.inFlight, Sys.setConn] using hm
    rcases List.mem_append.1 hm' with hm' | hm'
    · exact h.queued m hm'
    · obtain rfl := List.mem_singleton.1 hm'
      exact h.buffered c' t (by rw [hconn])
  | drain hflush hqueue => exact hsub (Sys.inFlight_drain hflush ▸ fun _ hm => hm)
  | append hflush => exact hsub (by simp [Sys.inFlight, Flush.members, hflush])
  | appendFail hflush => exact hsub (by simp [Sys.inFlight, Flush.members, hflush])
  | publish => exact hsub (by simp [Sys.inFlight, Flush.members, Sys.publish])
  | discard => exact hsub (by simp [Sys.inFlight, Flush.members, Sys.discard])
  | _ => exact hsub fun _ hm => hm

/-- With the lane free and nothing in flight there is nothing buffered. -/
theorem Matched.quiet (h : Matched E₀ σ) (hlane : σ.lane = none) (c : Nat) (t : Txn) (ht : (σ.conns c).txn = some t) :
    t.walOps = [] := by
  refine h.reader c t ht ?_
  cases hw : t.writer with
  | false => rfl
  | true =>
    have hl := (h.writer c t ht).1 hw
    rw [hlane] at hl
    cases hl

theorem Matched.act (h : Matched E₀ σ) (hconfirmed : Confirmed E₀ σ (.act a)) (hstep : Twill.step σ a = some τ) :
    Matched E₀ τ := by
  have hs := stepped_of_step hstep
  have howners := h.toOwners.step hs
  have hkeep (hddl : ∀ c E st o, a ≠ .ddl c E st o) (hlog : LogFits E₀ σ.store τ.log) : Matched E₀ τ := by
    obtain ⟨hlive, hschemas⟩ := h.live.step (Sys.storeStep_of_stepped hs) hddl
    obtain ⟨img, himg, hfits, halike⟩ := hlog
    exact ⟨howners, hlive, fun c t ht => (h.txn_step hs c t ht).congr hschemas,
      fun m hm => (h.member_step hs m hm).congr hschemas, img, himg, hfits, halike.congr hschemas⟩
  cases hs with
  | @append first ms hflush hfirst hlast =>
    refine hkeep (by simp) (h.log.batch first fun m hm => h.queued m ?_)
    simp [Sys.inFlight, Flush.members, hflush, hm]
  | ddlNothing => exact h
  | @ddl c E st op first hlane hflush hqueue hplan hfirst hlast =>
    have hp := planned_of_plan hplan
    have hnot : op ≠ .commit := by rintro rfl; cases hp
    obtain ⟨img, himg, hfits, halike⟩ := h.log
    have hst : st.Along σ.store img := by
      have hc : st.Along σ.store (image E₀ σ.log).1 := hconfirmed
      rwa [himg] at hc
    obtain ⟨img', himg', htables⟩ := image_ddl himg first hnot
    refine ⟨howners, ?_, fun c' t ht => ?_, fun m hm => ?_, img', himg', ?_, ?_⟩
    · exact (h.live.reshape E 0 (not_isRow_of_planned hp)).of_tables (tables_applyDdl hp 0)
    · rw [h.quiet hlane c' t ht]
      exact .nil
    · have hm' : m ∈ σ.inFlight := hm
      simp [Sys.inFlight, hflush, hqueue, Flush.members] at hm'
    · exact (hfits.reshape E₀ (first + 1) (not_isRow_of_planned hp)).of_tables htables
    · exact (halike.along hp hst E₀ (first + 1)).of_tables rfl htables
  | _ => exact hkeep (by simp) h.log

theorem appendLog_eq {first : Nat} {ops : List WalOp} (h : σ.appendLog first ops = some τ) :
    τ = { σ with log := σ.log ++ Sys.numberFrom first ops, nextLsn := first + ops.length } := by
  rw [Sys.appendLog] at h
  split at h
  · exact (Option.some.inj h).symm
  · cases h

/-- What an event of the log only keeps: the connections, the writers in flight and the store. -/
theorem Matched.logged (h : Matched E₀ σ) (hconns : τ.conns = σ.conns) (hlane : τ.lane = σ.lane)
    (hin : τ.inFlight = σ.inFlight) (hown : τ.nextOwner = σ.nextOwner) (hstore : τ.store = σ.store)
    (hlog : LogFits E₀ σ.store τ.log) : Matched E₀ τ := by
  refine ⟨h.toOwners.same (fun c => by rw [hconns]) hlane (by rw [hin]) hown.ge (by rw [hstore]), ?_, ?_, ?_, ?_⟩
  · rw [hstore]
    exact h.live
  · rw [hconns, hstore]
    exact h.buffered
  · rw [hin, hstore]
    exact h.queued
  · rw [hstore]
    exact hlog

theorem Matched.reopen (h : Matched E₀ σ) : Matched E₀ (σ.reopened E₀) := by
  obtain ⟨img, himg, hfits, halike⟩ := h.log
  have hreplay : replay E₀ Store.empty σ.log = img.rebuildAutoinc :=
    congrArg (fun p : Store × List WalOp => p.1.rebuildAutoinc) himg
  have hschema (t : Table) : (Store.rebuildAutoincTable t).schema = t.schema ∧
      (Store.rebuildAutoincTable t).rows = t.rows := by
    rw [Store.rebuildAutoincTable]
    split <;> exact ⟨rfl, rfl⟩
  have hlookup (k : String) (t : Table) (ht : (replay E₀ Store.empty σ.log).tables.lookup k = some t) :
      ∃ t₀, img.tables.lookup k = some t₀ ∧ t.schema = t₀.schema ∧ t.rows = t₀.rows := by
    rw [hreplay, Store.rebuildAutoinc, AList.lookup_mapVals] at ht
    obtain ⟨t₀, ht₀, rfl⟩ := Option.map_eq_some_iff.1 ht
    exact ⟨t₀, ht₀, hschema t₀⟩
  refine ⟨owners_reopened E₀ σ, fun k t ht => ?_, by simp [Sys.reopened, Sys.init],
    by simp [Sys.reopened, Sys.init, Sys.inFlight, Flush.members], img, himg, hfits, fun k t t' ht ht' => ?_⟩
  · obtain ⟨t₀, ht₀, hS, hrows⟩ := hlookup k t ht
    rw [hS, hrows]
    exact hfits k t₀ ht₀
  · obtain ⟨t₀, ht₀, hS, -⟩ := hlookup k t ht
    rw [ht₀] at ht'
    obtain rfl := Option.some.inj ht'
    rw [hS]

/-- **One event keeps the rows matched.** -/
theorem Matched.event (h : Matched E₀ σ) {e : Event} (hconfirmed : Confirmed E₀ σ e) (hstep : happen E₀ σ e = some τ) :
    Matched E₀ τ := by
  cases e with
  | act a => exact h.act hconfirmed hstep
  | ddlUnconfirmed c E st first =>
    simp only [happen] at hstep
    split at hstep
    case h_2 => cases hstep
    split at hstep
    case isFalse => cases hstep
    split at hstep
    case h_2 => cases hstep
    next op hplan =>
    have hp := planned_of_plan hplan
    have hnot : op ≠ .commit := by rintro rfl; cases hp
    obtain rfl := appendLog_eq hstep
    obtain ⟨img, himg, hfits, halike⟩ := h.log
    have hst : st.Aside σ.store img := by
      have hc : st.Aside σ.store (image E₀ σ.log).1 := hconfirmed
      rwa [himg] at hc
    obtain ⟨img', himg', htables⟩ := image_ddl himg first hnot
    exact h.logged rfl rfl rfl rfl rfl ⟨img', himg',
      (hfits.reshape E₀ (first + 1) (not_isRow_of_planned hp)).of_tables htables,
      (halike.aside hp hst E₀ (first + 1)).of_tables rfl htables⟩
  | appendUnconfirmed first =>
    simp only [happen] at hstep
    split at hstep
    case h_2 => cases hstep
    next ms hflush =>
    obtain ⟨σ', happend, rfl⟩ := Option.map_eq_some_iff.1 hstep
    obtain rfl := appendLog_eq happend
    refine h.logged rfl rfl ?_ rfl rfl (h.log.batch first fun m hm => h.queued m ?_)
    · simp [Sys.inFlight, hflush, Flush.members]
    · simp [Sys.inFlight, hflush, Flush.members, hm]
  | reopen =>
    obtain rfl := Option.some.inj hstep
    exact h.reopen

theorem Matched.init (E₀ : Env) : Matched E₀ Sys.init := by
  refine ⟨Sys.Owners.init, ?_, by simp [Sys.init], by simp [Sys.init, Sys.inFlight, Flush.members],
    Store.empty, rfl, ?_, ?_⟩
  · exact fun k t ht => by cases ht
  · exact fun k t ht => by cases ht
  · exact fun k t t' ht => by cases ht

end Events

/-- **Rows match their schema** in every run of statements, batches and reopenings whose schema
changes are confirmed: each version of each table has a value for each column, in the live
store and in the one the log replays to. -/
theorem rows_match_schema (E₀ : Env) {σ : Sys} (hrun : Transition.RunWhere (happen E₀) (Confirmed E₀) Sys.init σ) :
    σ.store.Fits ∧ (replay E₀ Store.empty σ.log).Fits := by
  have h : Matched E₀ σ := hrun.invariant (Matched.init E₀) fun _ _ _ h hconfirmed hstep => h.event hconfirmed hstep
  exact ⟨h.live, h.reopen.live⟩

/-- `ALTER TABLE items ADD COLUMN note TEXT`. -/
def addNote : DdlStmt := .alterTable "items" (.addColumn ⟨"note", .text, false, false, false, false, none⟩)

/-- `INSERT INTO items VALUES (1, 10)` or, with the column, `(1, 10, NULL)`, committed. -/
def insertedItem (first : Nat) (exprs : List Expr) : List Event :=
  [.act (.begin 1), .act (.dml 1 Env.bare (.insert ⟨"items", none, .values [exprs], .error, none⟩) []), .act (.commit 1),
    .act .drain, .act (.append first), .act .publish]

/-- A column added, a row inserted, a table created whose records alone are there, and the
database opened again. -/
def confirmedEvents : List Event :=
  [.act createItems, .act (.ddl 0 Env.bare addNote (some 3))] ++ insertedItem 5 [.int 1, .int 10, .null] ++
    [.ddlUnconfirmed 0 Env.bare (.createTable ⟨"other", [⟨"id", .integer, true, true, false, false, none⟩], [], [], [], [],
      false⟩) 7, .reopen]

theorem rows_match_schema_added :
    let σ := (Transition.play (happen Env.bare) Sys.init confirmedEvents).getD Sys.init
    σ.store.Fits ∧ (replay Env.bare Store.empty σ.log).Fits := by
  intro σ
  refine rows_match_schema Env.bare (Transition.RunWhere.nil.plays confirmedEvents ?_)
  exact ⟨trivial, _, rfl, trivial, _, rfl, trivial, _, rfl, trivial, _, rfl, trivial, _, rfl, trivial, _, rfl, trivial, _, rfl,
    trivial, _, rfl, trivial, _, rfl, trivial, _, rfl, rfl⟩

def unconfirmedEvents : List Event :=
  [.act createItems, .ddlUnconfirmed 0 Env.bare addNote 3] ++ insertedItem 5 [.int 1, .int 10]

/-- A column whose `ADD COLUMN` reported an error is in the log only: the row inserted after it
is recovered without a value for it. -/
theorem rows_of_unconfirmed_alter :
    ¬∀ (E₀ : Env) (σ : Sys), Transition.Reach (happen E₀) Sys.init σ →
      σ.store.Fits ∧ (replay E₀ Store.empty σ.log).Fits := by
  intro h
  obtain ⟨σ, hplay, hwidth⟩ : ∃ σ, Transition.play (happen Env.bare) Sys.init unconfirmedEvents = some σ ∧
      ∃ t, (replay Env.bare Store.empty σ.log).tables.lookup "items" = some t ∧
        ∃ r ∈ t.rows, r.values.length ≠ t.schema.columns.length :=
    ⟨_, rfl, _, rfl, _, List.mem_cons_self, by decide⟩
  obtain ⟨t, ht, r, hr, hne⟩ := hwidth
  exact hne ((h Env.bare σ (Transition.reach_of_play .nil unconfirmedEvents hplay)).2 "items" t ht r hr)

end Twill
