/-
Declared constraints after an upsert.

A row an `ON CONFLICT` statement inserts or replaces has passed every row
check; an image of `DO UPDATE` has passed NOT NULL and the vector dimensions.
Keys stay unique as long as the SET list leaves the key columns alone: the
live-key map then leads from every key to the one row that has it
(`LiveKeys`). Secondary UNIQUE sets are not looked at.
-/
import Twill.PlanFacts

namespace Twill

open Mvcc (PENDING Op)
open Mvcc.Rows

/-! ## The constraints -/

/-- Every CHECK text parses, evaluates on the row, and is not false of it. -/
def ChecksHold (E : Env) (schema : TableSchema) (vals : Row) : Prop :=
  ∀ sql ∈ schema.checks, ∃ e v, E.frontend.parseExpr sql = .ok e ∧
    eval E e (EvalCtx.ofRow vals schema []) = .ok v ∧ v.asBool ≠ some false

/-- Rows with the same key are one version. -/
def KeysDistinct (P : Prims) (pk : List Nat) (rows : List RowVersion) : Prop :=
  ∀ r₁ ∈ rows, ∀ r₂ ∈ rows, compositeKey P r₁.values pk = compositeKey P r₂.values pk → r₁ = r₂

/-- No two rows agree on a UNIQUE set none of whose columns is NULL. -/
def UniquesHold (P : Prims) (schema : TableSchema) (rows : List RowVersion) : Prop :=
  ∀ set ∈ schema.uniqueSets, ∀ r₁ ∈ rows, ∀ r₂ ∈ rows, uniqueKey P set r₁.values ≠ none →
    uniqueKey P set r₁.values = uniqueKey P set r₂.values → r₁ = r₂

/-- Every declared constraint, on the rows a reader at `lsn` sees. -/
structure Satisfies (E : Env) (schema : TableSchema) (table : String) (rows : List RowVersion) : Prop where
  notNull : ∀ r ∈ rows, checkNotNull schema r.values table = .ok ()
  vectorDims : ∀ r ∈ rows, checkVectorDims schema r.values table = .ok ()
  checks : ∀ r ∈ rows, ChecksHold E schema r.values
  primaryKey : schema.primaryKeyIndices ≠ [] → KeysDistinct E.prims schema.primaryKeyIndices rows
  uniques : UniquesHold E.prims schema rows

/-- The row is an image a `DO UPDATE` clause of the statement computes. -/
def UpsertImage (E : Env) (schema : TableSchema) (st : InsertStmt) (params : List Value) (vals : Row) : Prop :=
  ∃ sets filter existing excluded, st.onConflict = .update sets filter ∧
    upsertImage E schema st.table params existing excluded sets filter = .ok (some vals)

/-- The clause assigns no primary-key column. -/
def KeepsKeys (schema : TableSchema) : OnConflict → Prop
  | .update sets _ => ∀ set ∈ sets, ∀ i, schema.columnIndex set.1 = some i → i ∉ schema.primaryKeyIndices
  | _ => True

/-- What an upsert keeps: NOT NULL and vector dimensions always, CHECK except
on images of `DO UPDATE`, and the primary key unless SET assigns to it. -/
structure UpsertKeeps (E : Env) (schema : TableSchema) (st : InsertStmt) (params : List Value)
    (rows : List RowVersion) : Prop where
  notNull : ∀ r ∈ rows, checkNotNull schema r.values st.table = .ok ()
  vectorDims : ∀ r ∈ rows, checkVectorDims schema r.values st.table = .ok ()
  checks : ∀ r ∈ rows, ChecksHold E schema r.values ∨ UpsertImage E schema st params r.values
  primaryKey : schema.primaryKeyIndices ≠ [] → KeepsKeys schema st.onConflict →
    KeysDistinct E.prims schema.primaryKeyIndices rows

/-! ## Row checks -/

variable {E : Env} {s : Store} {t : Table} {wc : WriteCtx}

theorem checksHold_of_ok {schema : TableSchema} {checks : List Expr} {vals : Row}
    (hparse : checkExprs E schema = .ok checks) (h : checkRowConstraints E checks schema vals = .ok ()) :
    ChecksHold E schema vals := by
  intro sql hsql
  have hflip : List.Forall₂ (fun e sql => E.frontend.parseExpr sql = .ok e) checks schema.checks :=
    (Except.mapM_eq_ok.1 hparse).flip
  obtain ⟨e, he, hpe⟩ := Except.exists_of_forall₂ hflip sql hsql
  have hrow := Except.forM_eq_ok.1 h e he
  obtain ⟨v, hv, hrow⟩ := Except.bind_eq_ok.1 hrow
  refine ⟨e, v, hpe, hv, fun hfalse => ?_⟩
  simp [hfalse] at hrow

theorem finalizeRows_checked {checks : List Expr} {schema : TableSchema} {table : String} :
    ∀ {slots : List Slot} {autoinc : Int64} {rows : List Row} {autoinc' : Int64},
      finalizeRows E checks schema table slots autoinc = .ok (rows, autoinc') →
      ∀ vals ∈ rows, checkRow E checks schema table vals = .ok ()
  | [], _, rows, _, h => by
    simp only [finalizeRows, Except.ok.injEq, Prod.mk.injEq] at h
    simp [← h.1]
  | slot :: slots, autoinc, rows, autoinc', h => by
    obtain ⟨⟨vals, auto₁⟩, -, h⟩ := Except.bind_eq_ok.1 h
    obtain ⟨_, hcheck, h⟩ := Except.bind_eq_ok.1 h
    obtain ⟨⟨rows', auto₂⟩, hrest, h⟩ := Except.bind_eq_ok.1 h
    simp only [Except.pure_eq, Except.ok.injEq, Prod.mk.injEq] at h
    obtain ⟨rfl, rfl⟩ := h
    intro vals' hvals'
    rcases List.mem_cons.1 hvals' with rfl | hvals'
    · exact hcheck
    · exact finalizeRows_checked hrest vals' hvals'

/-- Staged rows have passed NOT NULL, the vector dimensions and CHECK. -/
theorem stagedRows_checked {st : InsertStmt} {staged : List Row} {autoinc : Int64}
    (h : stagedRows E s t st wc = .ok (staged, autoinc)) : ∀ vals ∈ staged,
      checkNotNull t.schema vals st.table = .ok () ∧ checkVectorDims t.schema vals st.table = .ok () ∧
      ChecksHold E t.schema vals := by
  obtain ⟨⟨staged', autoinc'⟩, hstage, h⟩ := Except.bind_eq_ok.1 h
  obtain ⟨_, -, h⟩ := Except.bind_eq_ok.1 h
  simp only [Except.pure_eq, Except.ok.injEq, Prod.mk.injEq] at h
  obtain ⟨rfl, rfl⟩ := h
  obtain ⟨slots, -, hrows⟩ := Except.bind_eq_ok.1 hstage
  obtain ⟨checks, hparse, hrows⟩ := Except.bind_eq_ok.1 hrows
  intro vals hvals
  have hcheck := finalizeRows_checked hrows vals hvals
  obtain ⟨_, hnull, hcheck⟩ := Except.bind_eq_ok.1 hcheck
  obtain ⟨_, hdims, hcheck⟩ := Except.bind_eq_ok.1 hcheck
  exact ⟨hnull, hdims, checksHold_of_ok hparse hcheck⟩

theorem upsertImage_checked {schema : TableSchema} {table : String} {params : List Value}
    {existing excluded nv : Row} {sets : List (String × Expr)} {filter : Option Expr}
    (h : upsertImage E schema table params existing excluded sets filter = .ok (some nv)) :
    checkNotNull schema nv table = .ok () ∧ checkVectorDims schema nv table = .ok () := by
  obtain ⟨pass, -, h⟩ := Except.bind_eq_ok.1 h
  split at h
  · simp at h
  · obtain ⟨nv', -, h⟩ := Except.bind_eq_ok.1 h
    obtain ⟨_, hnull, h⟩ := Except.bind_eq_ok.1 h
    obtain ⟨_, hdims, h⟩ := Except.bind_eq_ok.1 h
    simp only [Except.pure_eq, Except.ok.injEq, Option.some.injEq] at h
    subst h
    exact ⟨hnull, hdims⟩

/-! ## What a plan writes -/

/-- Every image a plan stores is a staged row or an image of `DO UPDATE`. -/
theorem planRows_images {st : InsertStmt} {schema : TableSchema} {params : List Value}
    {pending : List String} : ∀ {staged : List Row} {live : AList fun _ : String => Nat}
      {images : List (Nat × Row)} {next : Nat},
      ∀ w ∈ (planRows E schema st.table params st.onConflict pending staged live images next).1,
        w.vals ∈ staged ∨ UpsertImage E schema st params w.vals
  | [], _, _, _, w, h => by simp [planRows] at h
  | v :: staged, live, images, next, w, h => by
    have hrest : ∀ {live images next},
        w ∈ (planRows E schema st.table params st.onConflict pending staged live images next).1 →
        w.vals ∈ v :: staged ∨ UpsertImage E schema st params w.vals := fun h =>
      (planRows_images w h).imp_left (List.mem_cons_of_mem _)
    simp only [planRows] at h
    split at h
    · simp at h
    · split at h
      · simp at h
      · exact hrest h
      · next rw hrow =>
        rcases List.mem_cons.1 h with rfl | h
        · rcases planRow_cases hrow with
            ⟨-, rfl⟩ | ⟨old, -, -, rfl⟩ | ⟨old, sets, filter, existing, nv, -, hoc, -, himg, rfl⟩
          · exact .inl List.mem_cons_self
          · exact .inl List.mem_cons_self
          · exact .inr ⟨sets, filter, existing, v, hoc, himg⟩
        · exact hrest h

theorem insert_mem_opsFrom {vid next : Nat} {vals : Row} {ws : List RowWrite} :
    Op.insert vid vals ∈ opsFrom next ws → ∃ w ∈ ws, w.vals = vals := by
  induction ws generalizing next with
  | nil => simp [opsFrom]
  | cons w ws ih =>
    intro h
    have hrest : ∀ {next}, Op.insert vid vals ∈ opsFrom next ws → ∃ w' ∈ w :: ws, w'.vals = vals := by
      intro next h
      obtain ⟨w', hw', heq⟩ := ih h
      exact ⟨w', List.mem_cons_of_mem _ hw', heq⟩
    cases w with
    | added v =>
      rcases List.mem_cons.1 h with h | h
      · cases h
        exact ⟨_, List.mem_cons_self, rfl⟩
      · exact hrest h
    | rewrote old v =>
      rcases List.mem_cons.1 h with h | h
      · cases h
      · rcases List.mem_cons.1 h with h | h
        · cases h
          exact ⟨_, List.mem_cons_self, rfl⟩
        · exact hrest h
    | removed old v =>
      rcases List.mem_cons.1 h with h | h
      · cases h
      · exact hrest h

theorem insertWrites_images {st : InsertStmt} {staged : List Row} {committed : Nat} {w : RowWrite}
    (h : w ∈ (insertWrites E t committed st wc staged).1) :
    w.vals ∈ staged ∨ UpsertImage E t.schema st wc.params w.vals := by
  rw [insertWrites] at h
  split at h
  · obtain ⟨vals, hvals, rfl⟩ := List.mem_map.1 h
    exact .inl hvals
  · exact planRows_images w h

/-! ## Keys -/

theorem compositeKey_congr {P : Prims} {a b : Row} {cols : List Nat} (h : ∀ i ∈ cols, a.cell i = b.cell i) :
    compositeKey P a cols = compositeKey P b cols := by
  have : ∀ (k : String), cols.foldl (fun k c => k ++ valueKey P (a.cell c) ++ "\x01") k =
      cols.foldl (fun k c => k ++ valueKey P (b.cell c) ++ "\x01") k := by
    induction cols with
    | nil => exact fun _ => rfl
    | cons c cols ih =>
      intro k
      simp only [List.foldl_cons, h c List.mem_cons_self]
      exact ih (fun i hi => h i (List.mem_cons_of_mem _ hi)) _
  exact this ""

theorem cell_set_ne {vals : Row} {i j : Nat} {v : Value} (h : i ≠ j) : Row.cell (vals.set i v) j = vals.cell j := by
  simp [Row.cell, List.getD_eq_getElem?_getD, List.getElem?_set_ne h]

theorem foldlM_sets_cell {schema : TableSchema} {ctx : EvalCtx} {i : Nat} :
    ∀ {sets : List (String × Expr)} {row nv : Row},
      (∀ set ∈ sets, ∀ j, schema.columnIndex set.1 = some j → j ≠ i) →
      sets.foldlM (fun (nv : Row) (s : String × Expr) => do
        let idx ← columnIndexOr schema s.1
        return nv.set idx ((schema.column idx).ty.coerce E.prims (← eval E s.2 ctx))) row = Except.ok nv →
      nv.cell i = row.cell i
  | [], row, nv, _, h => by
    obtain rfl : row = nv := by simpa [List.foldlM] using h
    rfl
  | set :: sets, row, nv, hne, h => by
    rw [List.foldlM_cons] at h
    obtain ⟨row', hrow', h⟩ := Except.bind_eq_ok.1 h
    obtain ⟨idx, hidx, hrow'⟩ := Except.bind_eq_ok.1 hrow'
    obtain ⟨v, -, hrow'⟩ := Except.bind_eq_ok.1 hrow'
    simp only [Except.pure_eq, Except.ok.injEq] at hrow'
    subst hrow'
    have hidx : schema.columnIndex set.1 = some idx := by
      simp only [columnIndexOr] at hidx
      split at hidx <;> simp_all
    rw [foldlM_sets_cell (fun set' h' => hne set' (List.mem_cons_of_mem _ h')) h,
      cell_set_ne (hne set List.mem_cons_self idx hidx)]

/-- A SET list that leaves the key columns alone leaves the key alone. -/
theorem upsertImage_key {schema : TableSchema} {table : String} {params : List Value}
    {existing excluded nv : Row} {sets : List (String × Expr)} {filter : Option Expr}
    (hkeep : KeepsKeys schema (.update sets filter))
    (h : upsertImage E schema table params existing excluded sets filter = .ok (some nv)) :
    compositeKey E.prims nv schema.primaryKeyIndices = compositeKey E.prims existing schema.primaryKeyIndices := by
  obtain ⟨pass, -, h⟩ := Except.bind_eq_ok.1 h
  split at h
  · simp at h
  · obtain ⟨nv', hfold, h⟩ := Except.bind_eq_ok.1 h
    obtain ⟨_, -, h⟩ := Except.bind_eq_ok.1 h
    obtain ⟨_, -, h⟩ := Except.bind_eq_ok.1 h
    simp only [Except.pure_eq, Except.ok.injEq, Option.some.injEq] at h
    subst h
    refine compositeKey_congr fun i hi => foldlM_sets_cell ?_ hfold
    rintro set hset j hj rfl
    exact hkeep set hset j hj hi

/-- The live-key map is complete: it leads from the key of every row the writer
sees to that row. -/
structure LiveKeys (P : Prims) (pk : List Nat) (committed me : Nat) (rows : Mvcc.Rows Row)
    (live : AList fun _ : String => Nat) : Prop extends Live committed me rows live where
  complete : ∀ r ∈ rows, r.visibleToWriter committed me = true →
    live.lookup (compositeKey P r.values pk) = some r.vid

section LiveKeys

variable {P : Prims} {pk : List Nat} {top next me : Nat} {rows : Mvcc.Rows Row}
  {live : AList fun _ : String => Nat}

theorem LiveKeys.init (h : Mvcc.Rows.WF top next rows)
    (hkeys : KeysDistinct P pk (rows.filter fun r => r.visibleToWriter top me)) :
    LiveKeys P pk top me rows (liveVids P rows top pk me) := by
  refine ⟨Live.init h, fun r hr hvis => ?_⟩
  obtain ⟨vid, hvid⟩ := Option.isSome_iff_exists.1 (liveVids_isSome (P := P) hr hvis)
  obtain ⟨r', hr', hvis', hkey, hv⟩ := liveVids_lookup hvid
  obtain rfl := hkeys r' (List.mem_filter.2 ⟨hr', hvis'⟩) r (List.mem_filter.2 ⟨hr, hvis⟩) hkey
  rw [hvid, hv]

/-- Distinct keys follow from completeness. -/
theorem LiveKeys.keysDistinct (h : Mvcc.Rows.WF top next rows) (hl : LiveKeys P pk top me rows live) :
    KeysDistinct P pk (rows.filter fun r => r.visibleToWriter top me) := by
  intro r₁ h₁ r₂ h₂ hkey
  obtain ⟨h₁, hvis₁⟩ := List.mem_filter.1 h₁
  obtain ⟨h₂, hvis₂⟩ := List.mem_filter.1 h₂
  have hl₁ := hl.complete r₁ h₁ hvis₁
  have hl₂ := hl.complete r₂ h₂ hvis₂
  rw [hkey, hl₂] at hl₁
  exact h.eq_of_vid h₁ h₂ (by simpa using hl₁.symm)

/-- The map after a new version took over the key `k`. -/
theorem LiveKeys.put {rows' : Mvcc.Rows Row} (h : Mvcc.Rows.WF top next rows)
    (hl : LiveKeys P pk top me rows live) {k : String} {new : RowVersion}
    (hnew : new ∈ rows' ∧ new.vid = next ∧ new.visibleToWriter top me = true)
    (hkey : compositeKey P new.values pk = k)
    (hkeep : ∀ r ∈ rows, live.lookup k ≠ some r.vid → r ∈ rows')
    (honly : ∀ r ∈ rows', r.visibleToWriter top me = true → r = new ∨ (r ∈ rows ∧ live.lookup k ≠ some r.vid)) :
    LiveKeys P pk top me rows' (live.insert k next) := by
  refine ⟨hl.toLive.put h k ⟨new, hnew⟩ hkeep, fun r hr hvis => ?_⟩
  rcases honly r hr hvis with rfl | ⟨hr', hne⟩
  · rw [hkey, AList.lookup_insert, hnew.2.1]
  · have hcomplete := hl.complete r hr' hvis
    have hk : compositeKey P r.values pk ≠ k := by
      rintro rfl
      exact hne hcomplete
    rw [AList.lookup_insert_ne hk, hcomplete]

theorem imageOf_mem {vid : Nat} {vals : Row} (h : imageOf (storedImages rows) vid = some vals) :
    ∃ r ∈ rows, r.vid = vid ∧ r.values = vals := by
  obtain ⟨p, hp, rfl⟩ := Option.map_eq_some_iff.1 h
  obtain ⟨r, hr, rfl⟩ := List.mem_map.1 (List.mem_of_find?_eq_some hp)
  exact ⟨r, hr, by simpa using List.find?_some hp, rfl⟩

theorem not_visible_pendDelete (r : RowVersion) : (r.pendDelete me).visibleToWriter top me = false := by
  simp [Mvcc.Version.visibleToWriter, Mvcc.Version.pendDelete]

/-- A row added under a key no row has. -/
theorem LiveKeys.added (h : Mvcc.Rows.WF top next rows) (hl : LiveKeys P pk top me rows live) {vals : Row}
    (hnone : live.lookup (compositeKey P vals pk) = none) :
    LiveKeys P pk top me (rows.pend me (.insert next vals)) (live.insert (compositeKey P vals pk) next) := by
  refine hl.put h
    ⟨List.mem_append_right _ List.mem_cons_self, rfl, visible_own_insert _ _ _⟩ rfl
    (fun r hr _ => List.mem_append_left _ hr) fun r hr _ => ?_
  rcases List.mem_append.1 hr with hr | hr
  · exact .inr ⟨hr, by simp [hnone]⟩
  · exact .inl (List.mem_singleton.1 hr)

/-- A row rewritten by an image with its key. -/
theorem LiveKeys.rewrote (h : Mvcc.Rows.WF top next rows) (hl : LiveKeys P pk top me rows live) {k : String}
    {old : Nat} {vals : Row} (hold : live.lookup k = some old) (hkey : compositeKey P vals pk = k) :
    LiveKeys P pk top me ((rows.pend me (.delete old)).pend me (.insert next vals)) (live.insert k next) := by
  refine hl.put h
    ⟨List.mem_append_right _ List.mem_cons_self, rfl, visible_own_insert _ _ _⟩ hkey ?_ ?_
  · intro r hr hne
    refine List.mem_append_left _ (mem_pend_delete_of_ne ?_ hr)
    rintro rfl
    exact hne hold
  · intro r hr hvis
    rcases List.mem_append.1 hr with hr | hr
    · right
      rw [pend_delete_eq h.nodup] at hr
      obtain ⟨r', hr', rfl⟩ := List.mem_map.1 hr
      split at hvis
      · rw [not_visible_pendDelete] at hvis
        simp at hvis
      · next hv =>
        rw [if_neg hv]
        exact ⟨hr', by simpa [hold] using Ne.symm hv⟩
    · exact .inl (List.mem_singleton.1 hr)

/-- The map stays complete through an upsert that keeps the keys. -/
theorem planRows_liveKeys {schema : TableSchema} {table : String} {params : List Value}
    {onConflict : OnConflict} {pending : List String} (hme : me ≠ 0) (hkeep : KeepsKeys schema onConflict) :
    ∀ (staged : List Row) {rows : Mvcc.Rows Row} {live : AList fun _ : String => Nat} {next : Nat},
      Mvcc.Rows.WF top next rows → LiveKeys E.prims schema.primaryKeyIndices top me rows live →
      ∃ live', LiveKeys E.prims schema.primaryKeyIndices top me (rows.pendAll me (opsFrom next
        (planRows E schema table params onConflict pending staged live (storedImages rows) next).1)) live'
  | [], rows, live, next, _, hl => ⟨live, hl⟩
  | vals :: staged, rows, live, next, h, hl => by
    simp only [planRows]
    split
    · exact ⟨live, hl⟩
    · split
      · exact ⟨live, hl⟩
      · exact planRows_liveKeys hme hkeep staged h hl
      · next rw hrow =>
        have himages : storedImages rows ++ [(next, rw.vals)] =
            storedImages (rows.pendAll me (opsFrom next [rw])) := by
          refine (storedImages_pendAll rw ?_).symm
          rcases planRow_created hrow with ⟨-, rfl⟩ | ⟨old, -, hrw⟩
          · exact .inl rfl
          · exact .inr ⟨old, hrw⟩
        rw [himages]
        rcases planRow_cases hrow with
          ⟨hnone, rfl⟩ | ⟨old, hold, -, rfl⟩ | ⟨old, sets, filter, existing, nv, hold, rfl, himg, hnv, rfl⟩
        · exact planRows_liveKeys hme hkeep staged (h.pend_insert hme) (hl.added h hnone)
        · exact planRows_liveKeys hme hkeep staged ((h.pend_delete hme).pend_insert hme) (hl.rewrote h hold rfl)
        · -- the row rewritten has the key of the staged row
          have hkey : compositeKey E.prims existing schema.primaryKeyIndices =
              compositeKey E.prims vals schema.primaryKeyIndices := by
            obtain ⟨r, hr, hv, hvis⟩ := hl.sees _ _ hold
            obtain ⟨r', hr', hv', rfl⟩ := imageOf_mem himg
            obtain rfl := h.eq_of_vid hr hr' (hv.trans hv'.symm)
            exact hl.inj _ _ old ((hl.complete r hr hvis).trans (by rw [hv])) hold
          exact planRows_liveKeys hme hkeep staged ((h.pend_delete hme).pend_insert hme)
            (hl.rewrote h hold ((upsertImage_key hkeep hnv).trans hkey))

end LiveKeys

/-! ## The statement -/

/-- The rows a reader at `lsn` sees under a table's key. -/
def Store.visibleAt (s : Store) (k : String) (lsn : Nat) : List RowVersion :=
  (s.rowsAt k).filter fun r => r.visibleToReader lsn

theorem mem_visibleAt_published {k : String} {top next me c : Nat} {r' : RowVersion}
    (h : Mvcc.Rows.WF top next (s.rowsAt k)) (hown : ∀ r ∈ s.rowsAt k, r.owner = 0 ∨ r.owner = me)
    (htop : top < c) (hc : c < PENDING) (hr' : r' ∈ (s.finalizeOwner me c).visibleAt k c) :
    ∃ r ∈ s.rowsAt k, r.visibleToWriter top me = true ∧ r' = r.finalize me c := by
  obtain ⟨hr', hvis⟩ := List.mem_filter.1 hr'
  rw [Store.rowsAt_finalizeOwner] at hr'
  obtain ⟨r, hr, rfl⟩ := List.mem_map.1 hr'
  rw [(h.version r hr).visible_published (hown r hr) htop hc] at hvis
  exact ⟨r, hr, hvis, rfl⟩

/-- A version with no owner is seen by a writer as by a reader. -/
theorem visibleToWriter_of_durable {top me : Nat} {r : RowVersion} (h : r.WF top) (h0 : r.owner = 0) :
    r.visibleToWriter top me = r.visibleToReader top := by
  have hne : r.createLsn ≠ PENDING ∧ r.deleteLsn ≠ PENDING := by
    rw [← not_or, ← h.owner]
    simpa using h0
  rw [Bool.eq_iff_iff]
  simp only [Mvcc.Version.visibleToReader, Mvcc.Version.visibleToWriter, if_neg hne.1, if_neg hne.2]
  simp

section Statement

variable {st : InsertStmt} {k : String} {top next me : Nat} {rows : Mvcc.Rows Row}

/-- A row the writer sees after its statement: one it saw before, or an image
the statement stored. -/
theorem seen_after {ws : List RowWrite} {r : RowVersion} (hr : r ∈ rows.pendAll me (opsFrom next ws)) (hvis : r.visibleToWriter top me = true) :
    r ∈ rows ∨ ∃ w ∈ ws, w.vals = r.values := by
  rcases mem_pendAll hr with hmem | ⟨hdel, hown⟩ | ⟨vid, vals, hmem, rfl⟩
  · exact .inl hmem
  · simp [Mvcc.Version.visibleToWriter, hdel, hown] at hvis
  · exact .inr (insert_mem_opsFrom hmem)

theorem owner_pendAll {ops : List (Op Row)} (hseen : ∀ r ∈ rows, r.owner = 0) {r : RowVersion}
    (hr : r ∈ rows.pendAll me ops) : r.owner = 0 ∨ r.owner = me := by
  rcases mem_pendAll hr with hmem | ⟨-, hown⟩ | ⟨vid, vals, -, rfl⟩
  · exact .inl (hseen r hmem)
  · exact .inr hown
  · exact .inr rfl

/-- Every image an INSERT stores passes NOT NULL and the vector dimensions, and
CHECK unless `DO UPDATE` computed it. -/
theorem insertPlan_checked {w : RowWrite} (hw : w ∈ (insertPlan E s t st wc).1) :
    checkNotNull t.schema w.vals st.table = .ok () ∧ checkVectorDims t.schema w.vals st.table = .ok () ∧
      (ChecksHold E t.schema w.vals ∨ UpsertImage E t.schema st wc.params w.vals) := by
  rcases insertPlan_writes (E := E) (s := s) (t := t) st wc with
    hnil | ⟨staged, autoinc, hstaged, hws⟩
  · simp [hnil] at hw
  · rw [hws] at hw
    rcases insertWrites_images hw with hvals | himg
    · obtain ⟨hnull, hdims, hchecks⟩ := stagedRows_checked hstaged _ hvals
      exact ⟨hnull, hdims, .inl hchecks⟩
    · obtain ⟨sets, filter, existing, excluded, -, h⟩ := id himg
      obtain ⟨hnull, hdims⟩ := upsertImage_checked h
      exact ⟨hnull, hdims, .inr himg⟩

/-- Keys the writer sees stay distinct. -/
theorem insertPlan_keysDistinct (hwf : Mvcc.Rows.WF s.committedLsn t.nextVid t.rows) (hme : wc.owner ≠ 0)
    (hpk : t.schema.primaryKeyIndices ≠ []) (hkeep : KeepsKeys t.schema st.onConflict)
    (hkeys : KeysDistinct E.prims t.schema.primaryKeyIndices
      (t.rows.filter fun r => r.visibleToWriter s.committedLsn wc.owner)) :
    KeysDistinct E.prims t.schema.primaryKeyIndices
      ((t.rows.pendAll wc.owner (opsFrom t.nextVid (insertPlan E s t st wc).1)).filter fun r =>
        r.visibleToWriter s.committedLsn wc.owner) := by
  rcases insertPlan_writes (E := E) (s := s) (t := t) st wc with
    hnil | ⟨staged, autoinc, -, hws⟩
  · rw [hnil]
    exact hkeys
  · have hne : t.schema.primaryKeyIndices.isEmpty = false := by simpa using hpk
    rw [hws, insertWrites, hne]
    obtain ⟨live', hlive⟩ := planRows_liveKeys (E := E) hme hkeep staged hwf (LiveKeys.init hwf hkeys)
    exact hlive.keysDistinct (wf_pendAll_opsFrom hwf hme)

end Statement

/-- Users with a key and a unique mail address; one committed row. -/
def usersTable : Table :=
  ⟨⟨"users", [⟨"id", .integer, true, true, false, false, none⟩,
    ⟨"mail", .text, false, false, true, false, none⟩], [], [], [], false, []⟩,
    [⟨1, [.int 1, .text "a"], 1, 0, 0⟩], 2, 1⟩

def usersStore : Store := ⟨(∅ : AList fun _ : String => Table).insert "users" usersTable, ∅, ∅, 1⟩

theorem usersStore_satisfies :
    Satisfies Env.bare usersTable.schema "users" (usersStore.visibleAt "users" usersStore.committedLsn) := by
  have hrows : usersStore.visibleAt "users" usersStore.committedLsn = [⟨1, [.int 1, .text "a"], 1, 0, 0⟩] := rfl
  rw [hrows]
  refine ⟨?_, ?_, ?_, ?_, ?_⟩
  · simp only [List.mem_singleton, forall_eq]
    rfl
  · simp only [List.mem_singleton, forall_eq]
    rfl
  · intro r _ sql hsql
    simp [usersTable] at hsql
  · intro _ r₁ h₁ r₂ h₂ _
    rw [List.mem_singleton.1 h₁, List.mem_singleton.1 h₂]
  · intro set _ r₁ h₁ r₂ h₂ _ _
    rw [List.mem_singleton.1 h₁, List.mem_singleton.1 h₂]

/-- `INSERT INTO users VALUES (1, 'b') ON CONFLICT DO UPDATE SET mail = excluded.mail`. -/
def changeMail : InsertStmt :=
  ⟨"users", none, .values [[.int 1, .str "b"]], .update [("mail", .excluded "mail")] none, none⟩

/-- `INSERT INTO users VALUES (2, 'a') ON CONFLICT DO NOTHING`. -/
def addUser : InsertStmt := ⟨"users", none, .values [[.int 2, .str "a"]], .nothing, none⟩

end Twill
