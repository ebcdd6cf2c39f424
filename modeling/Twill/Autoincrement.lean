/-
The autoincrement counter over the life of a table: INSERT, UPDATE, DELETE, their
transactions, and reopening, which rebuilds the counter from the recovered rows.

Staging an INSERT moves the counter past every value it stores (`finalizeRows_spec`);
no other statement moves it, so a version that UPDATE or DO UPDATE rewrites can get
ahead of it. While none does (`KeepsAhead`), the counter is beyond every version there
is, and so is what the engine generates (`autoincrement_ahead`).
-/
import Twill.Mirror
import Twill.Lib.MvccValues
import Twill.Lib.Transition

namespace Twill

open Mvcc (Op)
open Mvcc.Rows

/-! ## Staging -/

/-- The row's integer in the column, if it has one, is below the counter. -/
def Behind (c : Nat) (n : Int64) (vals : Row) : Prop := ∀ i, vals.cell c = .int i → i.toInt < n.toInt

theorem Behind.mono {c : Nat} {n n' : Int64} {vals : Row} (h : Behind c n vals) (hle : n.toInt ≤ n'.toInt) :
    Behind c n' vals :=
  fun i hi => (h i hi).trans_le hle

theorem toInt_succ {n : Int64} (h : n ≠ Int64.maxValue) : (n + 1).toInt = n.toInt + 1 := by
  have hlt : n.toInt < 2 ^ 63 - 1 := by
    have hle := n.toInt_lt
    have hne : n.toInt ≠ 2 ^ 63 - 1 := fun heq => h (Int64.toInt_inj.1 (heq.trans Int64.toInt_maxValue.symm))
    omega
  have hge := n.le_toInt
  have hone : (1 : Int64).toInt = 1 := rfl
  rw [Int64.toInt_add, hone, Int.bmod_def]
  omega

theorem toInt_max (a b : Int64) : (max a b).toInt = max a.toInt b.toInt := by
  show (if a ≤ b then b else a).toInt = _
  by_cases h : a ≤ b
  · rw [if_pos h, max_eq_right (Int64.le_iff_toInt_le.1 h)]
  · have hlt : b.toInt < a.toInt := Int.not_le.1 fun hle => h (Int64.le_iff_toInt_le.2 hle)
    rw [if_neg h, max_eq_left hlt.le]

section Staging

variable {E : Env} {checks : List Expr} {schema : TableSchema} {table : String}

/-- The counter after a cell, without bound. -/
def movedPast (E : Env) (n : ℤ) (cell : Column × Option Value) : ℤ :=
  if cell.1.autoincrement then
    match cell.2 with
    | some v => match cell.1.ty.coerce E.prims v with
      | .int i => max n (i.toInt + 1)
      | _ => n
    | none => n + 1
  else n

theorem le_movedPast (n : ℤ) (cell : Column × Option Value) : n ≤ movedPast E n cell := by
  unfold movedPast
  split
  · split
    · split
      · exact le_max_left _ _
      · exact le_rfl
    · omega
  · exact le_rfl

/-- A cell's value, and the counter past it. -/
theorem finalizeCell_eq_ok {c : Column} {slot : Option Value} {n n' : Int64} {v : Value}
    (h : finalizeCell E c slot n = .ok (v, n')) :
    n'.toInt = movedPast E n.toInt (c, slot) ∧
      (c.autoincrement = true → v = slot.elim (.int n) fun given => c.ty.coerce E.prims given) := by
  cases slot with
  | some given =>
    simp only [finalizeCell] at h
    split at h
    · next i hauto hv =>
      split at h
      · cases h
      · next hne =>
        cases h
        rw [toInt_max, toInt_succ hne]
        simp [movedPast, hauto, hv]
    · next hnot =>
      cases h
      refine ⟨?_, fun _ => rfl⟩
      unfold movedPast
      split
      · next hauto =>
        dsimp only
        split
        · next i hi => exact (hnot i hauto hi).elim
        · rfl
      · rfl
  | none =>
    simp only [finalizeCell] at h
    by_cases hauto : c.autoincrement = true
    · rw [if_pos hauto] at h
      split at h
      · cases h
      · next hne =>
        cases h
        rw [toInt_succ hne]
        simp [movedPast, hauto]
    · rw [if_neg hauto] at h
      refine ⟨?_, fun h => absurd h hauto⟩
      have hmoved : movedPast E n.toInt (c, none) = n.toInt := by simp [movedPast, hauto]
      rw [hmoved]
      split at h
      · obtain ⟨u, -, h⟩ := Except.bind_eq_ok.1 h
        cases h
        rfl
      · cases h
        rfl

/-- The counter does not go back, and is beyond the cell's integer; a generated one is the counter as it was. -/
theorem finalizeCell_spec {c : Column} {slot : Option Value} {n n' : Int64} {v : Value}
    (h : finalizeCell E c slot n = .ok (v, n')) :
    n.toInt ≤ n'.toInt ∧
      (c.autoincrement = true → (∀ i, v = .int i → i.toInt < n'.toInt) ∧ (slot = none → v = .int n)) := by
  obtain ⟨hcounter, hvalue⟩ := finalizeCell_eq_ok h
  refine ⟨hcounter ▸ le_movedPast _ _, fun hauto => ⟨fun i hi => ?_, fun hnone => ?_⟩⟩
  · rw [hcounter, movedPast, if_pos hauto]
    cases slot with
    | some given =>
      have hgiven : c.ty.coerce E.prims given = .int i := (hvalue hauto).symm.trans hi
      dsimp only
      rw [hgiven]
      dsimp only
      omega
    | none =>
      obtain rfl : n = i := by simpa [hi] using (hvalue hauto).symm
      dsimp only
      omega
  · rw [hvalue hauto, hnone]
    rfl

theorem finalizeCells_spec {cells : List (Column × Option Value)} {n n' : Int64} {vals : Row}
    (h : finalizeCells E cells n = .ok (vals, n')) :
    n.toInt ≤ n'.toInt ∧ vals.length = cells.length ∧ ∀ j col slot, cells[j]? = some (col, slot) → col.autoincrement = true →
      Behind j n' vals ∧ (slot = none → ∃ i, vals.cell j = .int i ∧ n.toInt ≤ i.toInt) := by
  induction cells generalizing n vals with
  | nil =>
    cases h
    exact ⟨le_rfl, rfl, by simp⟩
  | cons cell cells ih =>
    obtain ⟨c, slot⟩ := cell
    simp only [finalizeCells] at h
    obtain ⟨⟨v, n₁⟩, hcell, h⟩ := Except.bind_eq_ok.1 h
    obtain ⟨⟨rest, n₂⟩, hrest, h⟩ := Except.bind_eq_ok.1 h
    cases h
    obtain ⟨hle, hv⟩ := finalizeCell_spec hcell
    obtain ⟨hle', hlen, hcells⟩ := ih hrest
    refine ⟨hle.trans hle', congrArg (· + 1) hlen, fun j col slot' hj hauto => ?_⟩
    cases j with
    | zero =>
      obtain ⟨rfl, rfl⟩ : c = col ∧ slot = slot' := by simpa using hj
      obtain ⟨hbehind, hgenerated⟩ := hv hauto
      exact ⟨fun i hi => (hbehind i hi).trans_le hle', fun hnone => ⟨n, hgenerated hnone, le_rfl⟩⟩
    | succ j =>
      obtain ⟨hbehind, hgenerated⟩ := hcells j col slot' hj hauto
      refine ⟨hbehind, fun hnone => ?_⟩
      obtain ⟨i, hi, hge⟩ := hgenerated hnone
      exact ⟨i, hi, hle.trans hge⟩

/-- What staging says of a row and the slot it was made from: its integer in an
autoincrement column is below the counter left, and at least the counter found if generated. -/
def Staged (schema : TableSchema) (n n' : Int64) (slot : Slot) (vals : Row) : Prop :=
  ∀ c col, schema.columns[c]? = some col → col.autoincrement = true →
    Behind c n' vals ∧ (slot[c]? = some none → ∃ i, vals.cell c = .int i ∧ n.toInt ≤ i.toInt)

theorem finalizeRows_spec {slots : List Slot} {n n' : Int64} {rows : List Row}
    (h : finalizeRows E checks schema table slots n = .ok (rows, n')) :
    n.toInt ≤ n'.toInt ∧ List.Forall₂ (Staged schema n n') slots rows := by
  induction slots generalizing n rows with
  | nil =>
    cases h
    exact ⟨le_rfl, .nil⟩
  | cons slot slots ih =>
    simp only [finalizeRows] at h
    obtain ⟨⟨vals, n₁⟩, hcells, h⟩ := Except.bind_eq_ok.1 h
    obtain ⟨-, -, h⟩ := Except.bind_eq_ok.1 h
    obtain ⟨⟨rest, n₂⟩, hrest, h⟩ := Except.bind_eq_ok.1 h
    cases h
    obtain ⟨hle, hlen, hv⟩ := finalizeCells_spec hcells
    obtain ⟨hle', hrows⟩ := ih hrest
    refine ⟨hle.trans hle', .cons ?_ (hrows.imp fun slot' vals' hstaged c col hc hauto => ?_)⟩
    · intro c col hc hauto
      have hcell (slot' : Option Value) (hs : slot[c]? = some slot') : (schema.columns.zip slot)[c]? = some (col, slot') := by
        rw [List.getElem?_zip_eq_some]
        exact ⟨hc, hs⟩
      refine ⟨?_, fun hnone => (hv c col none (hcell none hnone) hauto).2 rfl⟩
      by_cases hlt : c < slot.length
      · exact ((hv c col _ (hcell _ (List.getElem?_eq_getElem hlt)) hauto).1).mono hle'
      · -- a slot that is too short leaves the row too short
        have hshort : vals.length ≤ c := by
          rw [hlen, List.length_zip]
          omega
        have hnull : vals.cell c = .null := by
          rw [Row.cell, List.getD_eq_getElem?_getD, List.getElem?_eq_none hshort]
          rfl
        intro i hi
        rw [hnull] at hi
        cases hi
    · obtain ⟨hbehind, hgenerated⟩ := hstaged c col hc hauto
      refine ⟨hbehind, fun hnone => ?_⟩
      obtain ⟨i, hi, hge⟩ := hgenerated hnone
      exact ⟨i, hi, hle.trans hge⟩

/-- A generated value is beyond the rows staged before it. -/
theorem finalizeRows_pairwise {slots : List Slot} {n n' : Int64} {rows : List Row} {c : Nat} {col : Column}
    (hcol : schema.columns[c]? = some col) (hauto : col.autoincrement = true)
    (h : finalizeRows E checks schema table slots n = .ok (rows, n')) :
    (slots.zip rows).Pairwise fun a b => b.1[c]? = some none → ∃ i, b.2.cell c = .int i ∧ Behind c i a.2 := by
  induction slots generalizing n rows with
  | nil => exact .nil
  | cons slot slots ih =>
    simp only [finalizeRows] at h
    obtain ⟨⟨vals, n₁⟩, hcells, h⟩ := Except.bind_eq_ok.1 h
    obtain ⟨u, hcheck, h⟩ := Except.bind_eq_ok.1 h
    obtain ⟨⟨rest, n₂⟩, hrest, h⟩ := Except.bind_eq_ok.1 h
    cases h
    refine .cons (fun b hb hnone => ?_) (ih hrest)
    -- the row itself, as staging one slot
    have hone : finalizeRows E checks schema table [slot] n = .ok ([vals], n₁) := by
      simp only [finalizeRows]
      rw [hcells]
      dsimp only [bind, Except.bind]
      rw [hcheck]
      rfl
    obtain ⟨-, hrow⟩ := finalizeRows_spec hone
    obtain ⟨hbehind, -⟩ := (List.forall₂_cons.1 hrow).1 c col hcol hauto
    obtain ⟨i, hi, hge⟩ := (List.forall₂_zip (finalizeRows_spec hrest).2 hb c col hcol hauto).2 hnone
    exact ⟨i, hi, hbehind.mono hge⟩

/-! ## Overflow -/

/-- Moving the counter past this cell overflows. -/
def CellOverflows (E : Env) (c : Column) (slot : Option Value) (n : Int64) : Prop :=
  c.autoincrement = true ∧ match slot with
    | some v => c.ty.coerce E.prims v = .int Int64.maxValue
    | none => n = Int64.maxValue

/-- Some cell overflows where its turn comes. -/
def CellsOverflow (E : Env) : List (Column × Option Value) → Int64 → Prop
  | [], _ => False
  | (c, slot) :: cells, n =>
    CellOverflows E c slot n ∨ ∃ v n', finalizeCell E c slot n = .ok (v, n') ∧ CellsOverflow E cells n'

def RowsOverflow (E : Env) (checks : List Expr) (schema : TableSchema) (table : String) : List Slot → Int64 → Prop
  | [], _ => False
  | slot :: slots, n => CellsOverflow E (schema.columns.zip slot) n ∨
      ∃ vals n', finalizeCells E (schema.columns.zip slot) n = .ok (vals, n') ∧
        checkRow E checks schema table vals = .ok () ∧ RowsOverflow E checks schema table slots n'

theorem finalizeCell_panics {c : Column} {slot : Option Value} {n : Int64} (h : CellOverflows E c slot n) :
    finalizeCell E c slot n = .error .panic := by
  obtain ⟨hauto, hslot⟩ := h
  cases slot with
  | some v =>
    have hv : c.ty.coerce E.prims v = .int Int64.maxValue := hslot
    rw [finalizeCell, hv, hauto]
    rfl
  | none =>
    have hn : n = Int64.maxValue := hslot
    rw [finalizeCell, if_pos hauto, if_pos hn]

theorem finalizeCells_panics {cells : List (Column × Option Value)} {n : Int64} (h : CellsOverflow E cells n) :
    finalizeCells E cells n = .error .panic := by
  induction cells generalizing n with
  | nil => exact h.elim
  | cons cell cells ih =>
    obtain ⟨c, slot⟩ := cell
    rcases h with hcell | ⟨v, n', hok, hrest⟩
    · simp only [finalizeCells, finalizeCell_panics hcell]
      rfl
    · simp only [finalizeCells, hok]
      dsimp only [bind, Except.bind]
      rw [ih hrest]

/-- An overflow is a panic of the statement. -/
theorem finalizeRows_panics {slots : List Slot} {n : Int64} (h : RowsOverflow E checks schema table slots n) :
    finalizeRows E checks schema table slots n = .error .panic := by
  induction slots generalizing n with
  | nil => exact h.elim
  | cons slot slots ih =>
    rcases h with hcells | ⟨vals, n', hok, hcheck, hrest⟩
    · simp only [finalizeRows, finalizeCells_panics hcells]
      rfl
    · simp only [finalizeRows, hok]
      dsimp only [bind, Except.bind]
      rw [hcheck]
      dsimp only
      rw [ih hrest]

/-- The counter the slots leave, without bound, is an `i64`. -/
def Fits (E : Env) (schema : TableSchema) (slots : List Slot) (n : Int64) : Prop :=
  (slots.flatMap fun slot => schema.columns.zip slot).foldl (movedPast E) n.toInt ≤ 2 ^ 63 - 1

theorem le_foldl_movedPast (cells : List (Column × Option Value)) (n : ℤ) : n ≤ cells.foldl (movedPast E) n := by
  induction cells generalizing n with
  | nil => exact le_rfl
  | cons cell cells ih => exact (le_movedPast n cell).trans (ih _)

theorem not_cellOverflows {c : Column} {slot : Option Value} {n : Int64}
    (h : movedPast E n.toInt (c, slot) ≤ 2 ^ 63 - 1) : ¬CellOverflows E c slot n := by
  rintro ⟨hauto, hslot⟩
  have hmax : Int64.maxValue.toInt = 2 ^ 63 - 1 := Int64.toInt_maxValue
  cases slot with
  | some v =>
    simp only [movedPast, hauto, if_true, hslot, hmax] at h
    omega
  | none =>
    simp only [movedPast, hauto, if_true, hslot, hmax] at h
    omega

theorem not_cellsOverflow {cells : List (Column × Option Value)} {n : Int64}
    (h : cells.foldl (movedPast E) n.toInt ≤ 2 ^ 63 - 1) : ¬CellsOverflow E cells n := by
  induction cells generalizing n with
  | nil => exact id
  | cons cell cells ih =>
    rintro (hcell | ⟨v, n', hok, hrest⟩)
    · exact not_cellOverflows ((le_foldl_movedPast cells _).trans h) hcell
    · refine ih ?_ hrest
      rw [(finalizeCell_eq_ok hok).1]
      exact h

theorem toInt_finalizeCells {cells : List (Column × Option Value)} {n n' : Int64} {vals : Row}
    (h : finalizeCells E cells n = .ok (vals, n')) : n'.toInt = cells.foldl (movedPast E) n.toInt := by
  induction cells generalizing n vals with
  | nil =>
    cases h
    rfl
  | cons cell cells ih =>
    obtain ⟨c, slot⟩ := cell
    simp only [finalizeCells] at h
    obtain ⟨⟨v, n₁⟩, hcell, h⟩ := Except.bind_eq_ok.1 h
    obtain ⟨⟨rest, n₂⟩, hrest, h⟩ := Except.bind_eq_ok.1 h
    cases h
    rw [ih hrest, (finalizeCell_eq_ok hcell).1]
    rfl

/-- While the counter stays an `i64`, no step of it overflows. -/
theorem Fits.not_overflow {slots : List Slot} {n : Int64} (h : Fits E schema slots n) :
    ¬RowsOverflow E checks schema table slots n := by
  induction slots generalizing n with
  | nil => exact id
  | cons slot slots ih =>
    rw [Fits, List.flatMap_cons, List.foldl_append] at h
    rintro (hcells | ⟨vals, n', hok, -, hrest⟩)
    · exact not_cellsOverflow ((le_foldl_movedPast _ _).trans h) hcells
    · refine ih ?_ hrest
      rw [Fits, toInt_finalizeCells hok]
      exact h

end Staging

/-! ## The counter after a statement -/

/-- The counter of the table under a key. -/
def Store.counterAt (s : Store) (k : String) : Option Int64 := (s.tables.lookup k).map (·.nextAutoinc)

theorem Store.SameButIndexes.counterAt {s s' : Store} (h : Store.SameButIndexes s s') (k : String) :
    s'.counterAt k = s.counterAt k := by
  rw [Store.counterAt, Store.counterAt, h.tables]

theorem counterAt_modifyTable (s : Store) (name : String) {f : Table → Table}
    (hf : ∀ t, (f t).nextAutoinc = t.nextAutoinc) (k : String) :
    (s.modifyTable name f).counterAt k = s.counterAt k := by
  rw [Store.counterAt, Store.counterAt, Store.lookup_modifyTable, Option.map_map]
  congr 1
  funext t
  by_cases hk : k = Store.key name
  · simp only [Function.comp_apply, if_pos hk, hf]
  · simp only [Function.comp_apply, if_neg hk]

section Statement

variable {E : Env} {table : String} {owner : Nat} (k : String)

theorem counterAt_append (w : Write) (vals : Row) : (w.append table vals owner).store.counterAt k = w.store.counterAt k := by
  rw [Write.append]
  exact counterAt_modifyTable w.store table (by intro t; rfl) k

theorem counterAt_supersede (w : Write) (vid : Nat) : (w.supersede table vid owner).store.counterAt k = w.store.counterAt k := by
  rw [Write.supersede]
  exact counterAt_modifyTable w.store table (by intro t; rfl) k

theorem counterAt_indexRows (w : Write) (rows : List (Nat × Row)) :
    (w.indexRows table rows).store.counterAt k = w.store.counterAt k :=
  Store.SameButIndexes.counterAt (Store.SameButIndexes.foldl
    (fun _ (r : Nat × Row) => Store.sameButIndexes_indexRowInserted table r.1 r.2) rows w.store) k

theorem counterAt_appendRows (staged : List Row) (acc : Applied) (w : Write) :
    (appendRows table owner staged acc w).2.store.counterAt k = w.store.counterAt k := by
  induction staged generalizing acc w with
  | nil => rfl
  | cons vals staged ih => rw [appendRows, ih, counterAt_append]

theorem counterAt_applyInsertRow (schema : TableSchema) (wc : WriteCtx) (onConflict : OnConflict) (vals : Row)
    (clash : Option Nat) (w : Write) :
    (applyInsertRow E schema table wc onConflict vals clash w).2.store.counterAt k = w.store.counterAt k := by
  cases clash with
  | none => exact counterAt_append k w vals
  | some old =>
    cases onConflict with
    | error => rfl
    | nothing => rfl
    | replace => exact (counterAt_append k _ vals).trans (counterAt_supersede k w old)
    | update sets filter =>
      simp only [applyInsertRow, upsertUpdate]
      split
      · rfl
      · split
        · rfl
        · rfl
        · exact (counterAt_append k _ _).trans (counterAt_supersede k w old)

theorem counterAt_applyRows (schema : TableSchema) (wc : WriteCtx) (onConflict : OnConflict) (pending : List String)
    (staged : List Row) (live : AList fun _ : String => Nat) (acc : Applied) (w : Write) :
    (applyRows E schema table wc onConflict pending staged live acc w).2.store.counterAt k = w.store.counterAt k := by
  induction staged generalizing live acc w with
  | nil => rfl
  | cons vals staged ih =>
    simp only [applyRows]
    split
    · rfl
    · have hrow := @counterAt_applyInsertRow E table k schema wc onConflict vals
        (live.lookup (compositeKey E.prims vals schema.primaryKeyIndices)) w
      split
      · next heq => rw [heq] at hrow; exact hrow
      · next heq => rw [heq] at hrow; rw [ih]; exact hrow
      · next heq => rw [heq] at hrow; rw [ih]; exact hrow

theorem finishWrite_write (schema : TableSchema) (returning : Option (List SelItem)) (affected : List Row)
    (changes : Nat) (params : List Value) (w : Write) :
    (finishWrite E schema returning affected changes params w).2 = w := by
  rw [finishWrite]
  split <;> rfl

theorem counterAt_applyInsert (schema : TableSchema) (staged : List Row) (onConflict : OnConflict)
    (returning : Option (List SelItem)) (wc : WriteCtx) (w : Write) :
    (applyInsert E schema table staged onConflict returning wc w).2.store.counterAt k = w.store.counterAt k := by
  have hmaintain (acc : Applied) (w' : Write) (hw : w'.store.counterAt k = w.store.counterAt k) :
      (finishWrite E schema returning acc.affected acc.affected.length wc.params
        (if w.store.tableHasIndex table then w'.indexRows table acc.newRows else w')).2.store.counterAt k =
        w.store.counterAt k := by
    rw [finishWrite_write]
    split
    · rw [counterAt_indexRows, hw]
    · exact hw
  simp only [applyInsert]
  by_cases hpk : schema.primaryKeyIndices.isEmpty = true
  · simp only [hpk, if_true]
    exact hmaintain _ _ (counterAt_appendRows k staged _ w)
  · simp only [hpk, Bool.false_eq_true, if_false]
    split
    · next e w' heq =>
      have hrows := congrArg (fun r : Outcome Applied => r.2.store.counterAt k) heq
      exact hrows.symm.trans (counterAt_applyRows k schema wc onConflict _ staged _ _ w)
    · next acc w' heq =>
      have hrows := congrArg (fun r : Outcome Applied => r.2.store.counterAt k) heq
      exact hmaintain acc w' (hrows.symm.trans (counterAt_applyRows k schema wc onConflict _ staged _ _ w))

theorem counterAt_applyUpdateRows (updates : List (Nat × Row)) (acc : Applied) (w : Write) :
    (applyUpdateRows table owner updates acc w).2.store.counterAt k = w.store.counterAt k := by
  induction updates generalizing acc w with
  | nil => rfl
  | cons u updates ih => rw [applyUpdateRows, ih, counterAt_append, counterAt_supersede]

theorem counterAt_supersedeAll (victims : List (Nat × Row)) (w : Write) :
    (victims.foldl (fun w v => w.supersede table v.1 owner) w).store.counterAt k = w.store.counterAt k := by
  induction victims generalizing w with
  | nil => rfl
  | cons v victims ih => rw [List.foldl_cons, ih, counterAt_supersede]

end Statement

/-- The counter a statement leaves its table with: only the staging of an INSERT moves it. -/
def counterAfter (E : Env) (st : DmlStmt) (wc : WriteCtx) (s : Store) (t : Table) : Int64 :=
  match st with
  | .insert st => match stageInsert E s t.schema st wc with
    | .ok (_, n) => n
    | .error _ => t.nextAutoinc
  | _ => t.nextAutoinc

theorem runDml_counterAt (E : Env) (st : DmlStmt) (wc : WriteCtx) (s : Store) {t : Table} (ht : s.table st.table = some t) :
    (runDml E st wc s).2.store.counterAt (Store.key st.table) = some (counterAfter E st wc s t) := by
  have hsame : s.counterAt (Store.key st.table) = some t.nextAutoinc := congrArg (Option.map Table.nextAutoinc) ht
  cases st with
  | insert st =>
    have ht' : s.table st.table = some t := ht
    simp only [runDml, runInsert, ht', counterAfter]
    cases stageInsert E s t.schema st wc with
    | error e => exact hsame
    | ok p =>
      obtain ⟨staged, n⟩ := p
      have hset : ((⟨s, []⟩ : Write).setAutoinc st.table n).store.counterAt (Store.key st.table) = some n := by
        rw [Store.counterAt, Write.setAutoinc]
        show Option.map _ ((s.modifyTable st.table fun t => { t with nextAutoinc := n }).table st.table) = _
        rw [Store.table_modifyTable_self, ht']
        rfl
      dsimp only
      split
      · exact hset
      · rw [counterAt_applyInsert]
        exact hset
  | update st =>
    have ht' : s.table st.table = some t := ht
    simp only [runDml, runUpdate, ht', counterAfter]
    split
    · exact hsame
    · rw [finishWrite_write]
      split
      · rw [counterAt_indexRows, counterAt_applyUpdateRows]
        exact hsame
      · rw [counterAt_applyUpdateRows]
        exact hsame
  | delete st =>
    have ht' : s.table st.table = some t := ht
    simp only [runDml, runDelete, ht', counterAfter]
    split
    · exact hsame
    · rw [finishWrite_write, counterAt_supersedeAll]
      exact hsame

/-! ## What a statement writes -/

section Writes

variable {E : Env} {s : Store} {t : Table} {wc : WriteCtx} {c : Nat}

/-- The engine's autoincrement column is the first that is declared so. -/
def AutoColumn (S : TableSchema) (c : Nat) : Prop := S.columns.findIdx? (·.autoincrement) = some c

theorem AutoColumn.column {S : TableSchema} (h : AutoColumn S c) :
    ∃ col, S.columns[c]? = some col ∧ col.autoincrement = true := by
  obtain ⟨hlt, hauto, -⟩ := List.findIdx?_eq_some_iff_getElem.1 h
  exact ⟨_, List.getElem?_eq_getElem hlt, hauto⟩

theorem stageInsert_eq_ok {st : InsertStmt} {staged : List Row} {n : Int64} (ht : s.table st.table = some t)
    (h : stageInsert E s t.schema st wc = .ok (staged, n)) :
    ∃ slots checks, buildInsertSlots E s t.schema st.columns st.source wc = .ok slots ∧
      finalizeRows E checks t.schema st.table slots t.nextAutoinc = .ok (staged, n) := by
  obtain ⟨slots, hslots, h⟩ := Except.bind_eq_ok.1 h
  obtain ⟨checks, -, h⟩ := Except.bind_eq_ok.1 h
  rw [ht] at h
  exact ⟨slots, checks, hslots, h⟩

theorem le_counterAfter (st : DmlStmt) (ht : s.table st.table = some t) :
    t.nextAutoinc.toInt ≤ (counterAfter E st wc s t).toInt := by
  cases st with
  | insert st =>
    rw [counterAfter]
    split
    · next staged n hstage =>
      obtain ⟨slots, checks, -, hrows⟩ := stageInsert_eq_ok ht hstage
      exact (finalizeRows_spec hrows).1
    · exact le_rfl
  | update => exact le_rfl
  | delete => exact le_rfl

/-- A row added as such is one that staging moved the counter past. -/
theorem behind_added (st : DmlStmt) (ht : s.table st.table = some t) (hauto : AutoColumn t.schema c) {vals : Row}
    (hw : RowWrite.added vals ∈ (dmlPlan E st wc s).1) : Behind c (counterAfter E st wc s t) vals := by
  cases st with
  | insert st =>
    have ht' : s.table st.table = some t := ht
    simp only [dmlPlan, DmlStmt.table, ht'] at hw
    rcases insertPlan_writes (E := E) (s := s) (t := t) st wc with hnil | ⟨staged, n, hstaged, hws⟩
    · rw [hnil] at hw
      cases hw
    · rw [hws] at hw
      obtain ⟨⟨staged', n'⟩, hstage, hrest⟩ := Except.bind_eq_ok.1 hstaged
      obtain ⟨-, -, hpair⟩ := Except.bind_eq_ok.1 hrest
      obtain ⟨rfl, rfl⟩ : staged' = staged ∧ n' = n := by
        cases hpair
        exact ⟨rfl, rfl⟩
      rcases insertWrites_writes hw with ⟨vals', hvals, heq⟩ | ⟨old, heq⟩
      · cases heq
        obtain ⟨slots, checks, -, hrows⟩ := stageInsert_eq_ok ht' hstage
        obtain ⟨slot, -, hslot⟩ := Except.exists_of_forall₂ (finalizeRows_spec hrows).2 vals hvals
        obtain ⟨col, hcol, hcolauto⟩ := hauto.column
        rw [counterAfter, hstage]
        exact (hslot c col hcol hcolauto).1
      · cases heq
  | update st =>
    have ht' : s.table st.table = some t := ht
    simp only [dmlPlan, DmlStmt.table, ht'] at hw
    rcases updatePlan_writes (E := E) (s := s) (t := t) st wc with hnil | ⟨updates, -, hws⟩
    · rw [hnil] at hw
      cases hw
    · rw [hws] at hw
      obtain ⟨u, -, heq⟩ := List.mem_map.1 hw
      cases heq
  | delete st =>
    have ht' : s.table st.table = some t := ht
    simp only [dmlPlan, DmlStmt.table, ht'] at hw
    rcases deletePlan_writes (E := E) (s := s) (t := t) st wc with hnil | ⟨victims, -, hws⟩
    · rw [hnil] at hw
      cases hw
    · rw [hws] at hw
      obtain ⟨u, -, heq⟩ := List.mem_map.1 hw
      cases heq

theorem created_of_insert {next vid : Nat} {ws : List RowWrite} {vals : Row} (h : Op.insert vid vals ∈ opsFrom next ws) :
    RowWrite.added vals ∈ ws ∨ ∃ old, RowWrite.rewrote old vals ∈ ws := by
  induction ws generalizing next with
  | nil => cases h
  | cons w ws ih =>
    have hrest {next : Nat} (h : Op.insert vid vals ∈ opsFrom next ws) :
        RowWrite.added vals ∈ w :: ws ∨ ∃ old, RowWrite.rewrote old vals ∈ w :: ws :=
      (ih h).imp (List.mem_cons_of_mem _) fun ⟨old, hold⟩ => ⟨old, List.mem_cons_of_mem _ hold⟩
    cases w with
    | added vals' =>
      rcases List.mem_cons.1 h with heq | h
      · cases heq
        exact .inl List.mem_cons_self
      · exact hrest h
    | rewrote old vals' =>
      rcases List.mem_cons.1 h with heq | h
      · cases heq
      · rcases List.mem_cons.1 h with heq | h
        · cases heq
          exact .inr ⟨old, List.mem_cons_self⟩
        · exact hrest h
    | removed old vals' =>
      rcases List.mem_cons.1 h with heq | h
      · cases heq
      · exact hrest h

/-- No version that is rewritten gets its integer at or beyond the counter. -/
def RewritesBehind (E : Env) (st : DmlStmt) (wc : WriteCtx) (s : Store) (t : Table) (c : Nat) : Prop :=
  ∀ old vals, RowWrite.rewrote old vals ∈ (dmlPlan E st wc s).1 → Behind c (counterAfter E st wc s t) vals

theorem RewritesBehind.inserts {st : DmlStmt} (h : RewritesBehind E st wc s t c) (ht : s.table st.table = some t)
    (hauto : AutoColumn t.schema c) : EachInsert (Behind c (counterAfter E st wc s t)) (dmlOps E st wc s) := by
  intro vid vals hop
  rcases created_of_insert hop with hadded | ⟨old, hold⟩
  · exact behind_added st ht hauto hadded
  · exact h old vals hold

/-- Neither a DELETE nor an INSERT without ON CONFLICT rewrites. -/
theorem rewritesBehind_of_insert {st : InsertStmt} (hconf : st.onConflict = .error) (ht : s.table st.table = some t) :
    RewritesBehind E (.insert st) wc s t c := by
  intro old vals hw
  simp only [dmlPlan, DmlStmt.table, ht] at hw
  obtain ⟨vals', heq⟩ := insertPlan_added hconf hw
  cases heq

end Writes

/-! ## Reopening -/

/-- The database reopened: what the log replays to, without a connection. -/
def Sys.reopened (E₀ : Env) (σ : Sys) : Sys :=
  { Sys.init with store := replay E₀ Store.empty σ.log, log := σ.log, nextLsn := σ.nextLsn }

/-- A step of the running database, or (`none`) reopening it. -/
def lifeStep (E₀ : Env) (σ : Sys) : Option Act → Option Sys
  | some a => step σ a
  | none => some (σ.reopened E₀)

/-- The largest integer of the column so far, with one more row. -/
def topWith (c : Nat) (m : Int64) (r : RowVersion) : Int64 :=
  match r.values.cell c with
  | .int i => max m i
  | _ => m

theorem le_topWith (c : Nat) (m : Int64) (r : RowVersion) : m.toInt ≤ (topWith c m r).toInt ∧
    ∀ i, r.values.cell c = .int i → i.toInt ≤ (topWith c m r).toInt := by
  rw [topWith]
  split
  · next i hi =>
    rw [toInt_max]
    refine ⟨le_max_left _ _, fun j hj => ?_⟩
    obtain rfl : i = j := Value.int.inj (hi.symm.trans hj)
    exact le_max_right _ _
  · next hnot => exact ⟨le_rfl, fun i hi => (hnot i hi).elim⟩

theorem le_foldl_topWith {c : Nat} (rows : Mvcc.Rows Row) (m : Int64) : m.toInt ≤ (rows.foldl (topWith c) m).toInt ∧
    ∀ r ∈ rows, ∀ i, r.values.cell c = .int i → i.toInt ≤ (rows.foldl (topWith c) m).toInt := by
  induction rows generalizing m with
  | nil => exact ⟨le_rfl, by simp⟩
  | cons r rows ih =>
    obtain ⟨hle, hrows⟩ := ih (topWith c m r)
    obtain ⟨hstart, hrow⟩ := le_topWith c m r
    refine ⟨hstart.trans hle, fun r' hr' i hi => ?_⟩
    rcases List.mem_cons.1 hr' with rfl | hr'
    · exact (hrow i hi).trans hle
    · exact hrows r' hr' i hi

theorem foldl_topWith_lt {c : Nat} {rows : Mvcc.Rows Row} (h : Each (Behind c Int64.maxValue) rows) {m : Int64}
    (hm : m.toInt < Int64.maxValue.toInt) : (rows.foldl (topWith c) m).toInt < Int64.maxValue.toInt := by
  induction rows generalizing m with
  | nil => exact hm
  | cons r rows ih =>
    refine ih (fun r' hr' => h r' (List.mem_cons_of_mem _ hr')) ?_
    rw [topWith]
    split
    · next i hi =>
      rw [toInt_max]
      exact max_lt hm (h r List.mem_cons_self i hi)
    · exact hm

/-- A rebuilt counter is beyond every version, if the largest `i64` is. -/
theorem each_rebuildAutoincTable {t : Table} {c : Nat} (hauto : AutoColumn t.schema c)
    (h : Each (Behind c Int64.maxValue) t.rows) :
    Each (Behind c (Store.rebuildAutoincTable t).nextAutoinc) (Store.rebuildAutoincTable t).rows := by
  have hcol : t.schema.columns.findIdx? (·.autoincrement) = some c := hauto
  have hrebuilt : Store.rebuildAutoincTable t = { t with nextAutoinc := t.rows.foldl (topWith c) 0 + 1 } := by
    rw [Store.rebuildAutoincTable, hcol]
    rfl
  rw [hrebuilt]
  have hlt := foldl_topWith_lt h (m := 0) (by decide)
  have hne : t.rows.foldl (topWith c) 0 ≠ Int64.maxValue := fun heq => by
    rw [heq] at hlt
    exact hlt.false
  intro r hr i hi
  rw [toInt_succ hne]
  have hle := (le_foldl_topWith t.rows 0).2 r hr i hi
  omega

/-! ## Runs -/

/-- Row operations whose inserts keep the column's integers below the largest `i64`. -/
structure Bounded (k : String) (c : Nat) (ops : List WalOp) : Prop where
  isRow : ∀ op ∈ ops, op.isRow = true
  inserts : EachInsert (Behind c Int64.maxValue) (opsAt k ops)

theorem Bounded.nil {k : String} {c : Nat} : Bounded k c [] := ⟨by simp, fun _ _ h => by cases h⟩

theorem Bounded.append {k : String} {c : Nat} {ops ops' : List WalOp} (h : Bounded k c ops) (h' : Bounded k c ops') :
    Bounded k c (ops ++ ops') := by
  refine ⟨fun op hop => (List.mem_append.1 hop).elim (h.isRow op) (h'.isRow op), fun vid vals hop => ?_⟩
  rw [opsAt_append] at hop
  exact (List.mem_append.1 hop).elim (h.inserts vid vals) (h'.inserts vid vals)

theorem Bounded.take {k : String} {c : Nat} {ops : List WalOp} (h : Bounded k c ops) (n : Nat) :
    Bounded k c (ops.take n) :=
  ⟨fun op hop => h.isRow op (List.mem_of_mem_take hop), fun vid vals hop => h.inserts vid vals (mem_opsAt_take hop)⟩

theorem Bounded.no_commit {k : String} {c : Nat} {ops : List WalOp} (h : Bounded k c ops) :
    ∀ op ∈ ops, op ≠ .commit := fun op hop heq => by
  have hrow := h.isRow op hop
  rw [heq] at hrow
  cases hrow

/-- What the log says of the table, its column behind the largest `i64`. -/
def LogAhead (E₀ : Env) (k : String) (S : TableSchema) (c : Nat) (log : List WalEntry) : Prop :=
  ∃ img rows, image E₀ log = (img, []) ∧ img.data k = some (S, rows) ∧ Each (Behind c Int64.maxValue) rows

/-- The table is there, its counter beyond every version, and what is buffered, in
flight or logged would rebuild it so. -/
structure Ahead (E₀ : Env) (k : String) (S : TableSchema) (c : Nat) (σ : Sys) : Prop where
  table : ∃ t, σ.store.tables.lookup k = some t ∧ t.schema = S ∧ Each (Behind c t.nextAutoinc) t.rows
  txn : ∀ c' t, (σ.conns c').txn = some t → Bounded k c t.walOps
  member : ∀ m ∈ σ.inFlight, Bounded k c m.ops
  log : LogAhead E₀ k S c σ.log

/-- A step of the table's life: no DDL, and a statement on it rewrites no version so that
its integer is at or beyond the counter. -/
def KeepsAhead (k : String) (c : Nat) (σ : Sys) : Option Act → Prop
  | some (.ddl ..) => False
  | some (.dml c' E st params) => ∀ t tb, (σ.conns c').txn = some t → Store.key st.table = k →
      σ.store.table st.table = some tb → RewritesBehind E st ⟨t.snapshot, t.owner, params⟩ σ.store tb c
  | _ => True

theorem Behind.bounded {c : Nat} {n : Int64} {vals : Row} (h : Behind c n vals) : Behind c Int64.maxValue vals :=
  h.mono <| by
    have hmax : Int64.maxValue.toInt = 2 ^ 63 - 1 := Int64.toInt_maxValue
    have hlt := n.toInt_lt
    omega

section Step

variable {E₀ : Env} {k : String} {S : TableSchema} {c : Nat} {σ τ : Sys} {a : Act}

/-- The changes of a statement on the table stay behind the counter it leaves. -/
theorem KeepsAhead.inserts (hauto : AutoColumn S c) {c' : Nat} {E : Env} {st : DmlStmt} {params : List Value} {t : Txn}
    {tb : Table} (hkeep : KeepsAhead k c σ (some (.dml c' E st params))) (ht : (σ.conns c').txn = some t)
    (hk : Store.key st.table = k) (htb : σ.store.table st.table = some tb) (hS : tb.schema = S) :
    EachInsert (Behind c (counterAfter E st ⟨t.snapshot, t.owner, params⟩ σ.store tb))
      (dmlOps E st ⟨t.snapshot, t.owner, params⟩ σ.store) :=
  (hkeep t tb ht hk htb).inserts htb (hS ▸ hauto)

theorem Ahead.rows_step (hauto : AutoColumn S c) (h : Ahead E₀ k S c σ) (hkeep : KeepsAhead k c σ (some a)) {s : Store}
    (hs : Sys.StoreStep σ a s) :
    ∃ t, s.tables.lookup k = some t ∧ t.schema = S ∧ Each (Behind c t.nextAutoinc) t.rows := by
  obtain ⟨tb, htb, hS, hrows⟩ := h.table
  -- a row operation on every table, that keeps what its rows hold
  have hmap {s' : Store} {f : Mvcc.Rows Row → Mvcc.Rows Row} (hs' : Store.SameButIndexes (σ.store.mapRows f) s')
      (hf : Each (Behind c tb.nextAutoinc) (f tb.rows)) :
      ∃ t, s'.tables.lookup k = some t ∧ t.schema = S ∧ Each (Behind c t.nextAutoinc) t.rows := by
    refine ⟨{ tb with rows := f tb.rows }, ?_, hS, hf⟩
    rw [hs'.tables, Store.lookup_mapRows, htb]
    rfl
  cases hs with
  | same => exact ⟨tb, htb, hS, hrows⟩
  | @dml c' t E st params ht hlane =>
    obtain ⟨autoinc, hlookup⟩ := runDml_lookup E st ⟨t.snapshot, t.owner, params⟩ σ.store
    by_cases hk : Store.key st.table = k
    · have htb' : σ.store.table st.table = some tb := by rw [Store.table, hk, htb]
      have hcounter := runDml_counterAt E st ⟨t.snapshot, t.owner, params⟩ σ.store htb'
      have hins := hkeep.inserts hauto ht hk htb' hS
      have hle := @le_counterAfter E _ _ ⟨t.snapshot, t.owner, params⟩ st htb'
      rw [dmlOps_eq htb'] at hins
      have hk' := hlookup k
      rw [htb, Option.map_some, if_pos hk.symm] at hk'
      refine ⟨_, hk', hS, ?_⟩
      rw [hk, Store.counterAt, hk', Option.map_some] at hcounter
      have heq : autoinc tb = _ := Option.some.inj hcounter
      dsimp only
      rw [heq]
      exact (hrows.mono fun vals hv => hv.mono hle).pendAll t.owner hins
    · refine ⟨tb, ?_, hS, hrows⟩
      rw [hlookup, htb, Option.map_some, if_neg (Ne.symm hk)]
  | @rollback c' t ht hwriter => exact hmap (Store.rollbackOwner_eq t.owner) (hrows.rollback t.owner)
  | @rollbackTo c' t name sp ht hwriter =>
    exact hmap (Store.rollbackToSavepoint_eq t.owner sp.inserted sp.deleted) (hrows.rollbackTo t.owner _ _)
  | @publish ms first hflush =>
    refine ⟨{ tb with rows := tb.rows.finalizeAll (Sys.commitLsns first ms) }, ?_, hS, hrows.finalizeAll _⟩
    rw [Sys.publish_eq, htb]
    rfl
  | @discard ms hflush => exact hmap (Sys.discardMembers_eq σ.store ms) (hrows.rollbackAll _)
  | ddl => exact hkeep.elim

theorem Ahead.txn_step (hauto : AutoColumn S c) (h : Ahead E₀ k S c σ) (hkeep : KeepsAhead k c σ (some a))
    (hs : Stepped σ a τ) (c' : Nat) (t : Txn) (ht : (τ.conns c').txn = some t) : Bounded k c t.walOps := by
  cases Sys.txnStep_of_stepped hs ht with
  | opened => exact .nil
  | @dml t₀ E st params m w ht₀ hact hrun hstore =>
    subst hact
    refine (h.txn c' t₀ ht₀).append ⟨fun op hop => ?_, ?_⟩
    · rw [runDml_wal hrun] at hop
      obtain ⟨op', -, rfl⟩ := List.mem_map.1 hop
      exact isRow_toWal _ _
    · rw [runDml_wal hrun, opsAt_toWal]
      split
      · next hk =>
        obtain ⟨tb, htb, hS, -⟩ := h.table
        have htb' : σ.store.table st.table = some tb := by rw [Store.table, ← hk, htb]
        exact fun vid vals hop => (hkeep.inserts hauto ht₀ hk.symm htb' hS vid vals hop).bounded
      · exact fun _ _ hop => by cases hop
  | @dmlFail t₀ E st params e w ht₀ => exact h.txn c' t₀ ht₀
  | @savepoint t₀ name ht₀ => exact h.txn c' t₀ ht₀
  | @release t₀ name i ht₀ => exact h.txn c' t₀ ht₀
  | @rollbackTo t₀ name i sp ht₀ => exact (h.txn c' t₀ ht₀).take _
  | kept ht₀ => exact h.txn c' t ht₀

theorem Ahead.member_step (h : Ahead E₀ k S c σ) (hs : Stepped σ a τ) : ∀ m ∈ τ.inFlight, Bounded k c m.ops := by
  have hsub (hin : τ.inFlight ⊆ σ.inFlight) : ∀ m ∈ τ.inFlight, Bounded k c m.ops := fun m hm => h.member m (hin hm)
  cases hs with
  | @enqueue c' t phase hconn hwriter hops =>
    intro m hm
    have hm' : m ∈ σ.inFlight ++ [⟨t.owner, t.walOps⟩] := by
      simpa [Sys.inFlight, Sys.setConn] using hm
    rcases List.mem_append.1 hm' with hm' | hm'
    · exact h.member m hm'
    · obtain rfl := List.mem_singleton.1 hm'
      exact h.txn c' t (by rw [hconn])
  | drain hflush hqueue => exact hsub (Sys.inFlight_drain hflush ▸ fun _ hm => hm)
  | append hflush => exact hsub (by simp [Sys.inFlight, Flush.members, hflush])
  | appendFail hflush => exact hsub (by simp [Sys.inFlight, Flush.members, hflush])
  | publish => exact hsub (by simp [Sys.inFlight, Flush.members, Sys.publish])
  | discard => exact hsub (by simp [Sys.inFlight, Flush.members, Sys.discard])
  | _ => exact hsub fun _ hm => hm

/-- A batch in the log is applied on reopening, its inserts behind the largest `i64`. -/
theorem LogAhead.batch {log : List WalEntry} (h : LogAhead E₀ k S c log) (first : Nat) {ms : List Member}
    (hms : ∀ m ∈ ms, Bounded k c m.ops) :
    LogAhead E₀ k S c (log ++ Sys.numberFrom first (Sys.batchRecords ms)) := by
  induction ms generalizing log first with
  | nil => simpa [Sys.batchRecords, Sys.numberFrom] using h
  | cons m ms ih =>
    have hm := hms m List.mem_cons_self
    have hsplit : Sys.batchRecords (m :: ms) = m.records ++ Sys.batchRecords ms := rfl
    rw [hsplit, Sys.numberFrom_append, ← List.append_assoc]
    refine ih ?_ _ fun m' hm' => hms m' (List.mem_cons_of_mem _ hm')
    obtain ⟨img, rows, himg, hdata, hrows⟩ := h
    have happly := (foldl_applyReplay E₀ (first + m.ops.length) hm.isRow img).1 k
    have hmarked := Sys.foldl_replayEntry_marked E₀ hm.no_commit first img
    have himg' := (image_append E₀ log (Sys.numberFrom first m.records)).trans (himg ▸ hmarked)
    refine ⟨_, rows.commitAll (first + m.ops.length) (opsAt k m.ops), himg', ?_, hrows.commitAll _ hm.inserts⟩
    show (m.ops.foldl (applyReplay E₀ (first + m.ops.length)) img).data k = _
    rw [happly, hdata]
    rfl

theorem Ahead.log_step (h : Ahead E₀ k S c σ) (hkeep : KeepsAhead k c σ (some a)) (hs : Stepped σ a τ) :
    LogAhead E₀ k S c τ.log := by
  cases hs with
  | @append first ms hflush hfirst hlast =>
    refine h.log.batch first fun m hm => h.member m ?_
    simp [Sys.inFlight, Flush.members, hflush, hm]
  | ddl => exact hkeep.elim
  | _ => exact h.log

/-- **One step keeps the counter ahead.** -/
theorem Ahead.step (hauto : AutoColumn S c) (h : Ahead E₀ k S c σ) {a : Option Act} (hkeep : KeepsAhead k c σ a)
    (hstep : lifeStep E₀ σ a = some τ) : Ahead E₀ k S c τ := by
  cases a with
  | some a =>
    have hs := stepped_of_step hstep
    exact ⟨h.rows_step hauto hkeep (Sys.storeStep_of_stepped hs), h.txn_step hauto hkeep hs, h.member_step hs,
      h.log_step hkeep hs⟩
  | none =>
    obtain rfl := Option.some.inj hstep
    obtain ⟨img, rows, himg, hdata, hrows⟩ := h.log
    refine ⟨?_, by simp [Sys.reopened, Sys.init], by simp [Sys.reopened, Sys.init, Sys.inFlight, Flush.members], h.log⟩
    have hreplay : replay E₀ Store.empty σ.log = img.rebuildAutoinc :=
      congrArg (fun p : Store × List WalOp => p.1.rebuildAutoinc) himg
    obtain ⟨tb, htb, heq⟩ := Option.map_eq_some_iff.1 hdata
    obtain ⟨hS, rfl⟩ := Prod.mk.inj heq
    refine ⟨Store.rebuildAutoincTable tb, ?_, ?_, each_rebuildAutoincTable (hS ▸ hauto) hrows⟩
    · show (replay E₀ Store.empty σ.log).tables.lookup k = _
      rw [hreplay, Store.rebuildAutoinc, AList.lookup_mapVals, htb]
      rfl
    · rw [← hS, Store.rebuildAutoincTable]
      split <;> rfl

end Step

/-! ## From the creation of the table -/

/-- Whatever a log was appended in, its last record is a marker: nothing is kept back. -/
def Closed (E₀ : Env) (log : List WalEntry) : Prop := (image E₀ log).2 = []

theorem Closed.append {E₀ : Env} {log : List WalEntry} (first : Nat) (ops : List WalOp) :
    Closed E₀ (log ++ Sys.numberFrom first (ops ++ [.commit])) := by
  rw [Closed, image_append, Sys.numberFrom_append, List.foldl_append]
  rfl

theorem batchRecords_closed (ms : List Member) :
    Sys.batchRecords ms = [] ∨ ∃ ops, Sys.batchRecords ms = ops ++ [.commit] := by
  cases ms using List.reverseRecOn with
  | nil => exact .inl rfl
  | append_singleton ms m =>
    refine .inr ⟨Sys.batchRecords ms ++ m.ops, ?_⟩
    simp [Sys.batchRecords, Member.records]

theorem Closed.step {E₀ : Env} {σ τ : Sys} {a : Act} (h : Closed E₀ σ.log) (hs : Stepped σ a τ) : Closed E₀ τ.log := by
  cases hs with
  | @append first ms hflush hfirst hlast =>
    rcases batchRecords_closed ms with hnil | ⟨ops, hops⟩
    · have hlog : σ.log ++ Sys.numberFrom first (Sys.batchRecords ms) = σ.log := by
        rw [hnil]
        exact List.append_nil _
      exact hlog.symm ▸ h
    · dsimp only
      rw [hops]
      exact .append first ops
  | @ddl c E st op first hlane hflush hqueue hplan hfirst hlast => exact .append first [op]
  | _ => exact h

theorem owners_reopened (E₀ : Env) (σ : Sys) : Sys.Owners (σ.reopened E₀) := by
  refine ⟨by simp [Sys.reopened, Sys.init], ?_, ?_, ?_, ?_, ?_, ?_, ?_, ?_⟩ <;>
    simp [Sys.reopened, Sys.init, Sys.inFlight, Flush.members]

theorem life_invariant {E₀ : Env} {σ : Sys} (h : Transition.Reach (lifeStep E₀) Sys.init σ) :
    Sys.Owners σ ∧ Closed E₀ σ.log := by
  refine h.invariant (I := fun σ => Sys.Owners σ ∧ Closed E₀ σ.log) ⟨Sys.Owners.init, rfl⟩ fun τ υ a hτ _ hstep => ?_
  cases a with
  | some a =>
    have hs := stepped_of_step hstep
    exact ⟨hτ.1.step hs, hτ.2.step hs⟩
  | none =>
    obtain rfl := Option.some.inj hstep
    exact ⟨owners_reopened E₀ τ, hτ.2⟩

/-- The table just created. -/
theorem Ahead.created {E₀ E : Env} {σ σ₀ : Sys} {c₀ first : Nat} {st : DdlStmt} {S : TableSchema} {c : Nat}
    (howners : Sys.Owners σ) (hclosed : Closed E₀ σ.log)
    (hplan : planDdl E σ.store st = .ok (some (.createTable S)))
    (hcreate : Twill.step σ (.ddl c₀ E st (some first)) = some σ₀) : Ahead E₀ (Store.key S.name) S c σ₀ := by
  simp only [Twill.step] at hcreate
  split at hcreate
  case h_2 => cases hcreate
  split at hcreate
  case isFalse => cases hcreate
  next hquiet =>
  obtain ⟨hlane, hq⟩ : σ.lane = none ∧ σ.quiesced = true := by simpa using hquiet
  have hin : σ.inFlight = [] := by
    rw [Sys.quiesced] at hq
    split at hq
    · next hflush => simpa [Sys.inFlight, hflush, Flush.members] using hq
    · cases hq
  simp only [Sys.execDdl, hplan] at hcreate
  obtain ⟨τ, happend, rfl⟩ := Option.map_eq_some_iff.1 hcreate
  rw [Sys.appendLog] at happend
  split at happend
  case isFalse => cases happend
  obtain rfl := Option.some.inj happend
  have happly : applyDdl E st σ.store (.createTable S) = σ.store.insertTable S := by
    cases planned_of_plan hplan
    rfl
  refine ⟨⟨Table.new S, ?_, rfl, ?_⟩, fun c' t ht => ?_, ?_, ?_⟩
  · dsimp only
    rw [happly]
    simp [Store.insertTable]
  · exact fun r hr => by cases hr
  · -- nobody holds the lane, so every open transaction is a reader
    have hnot : t.writer = false := by
      cases hw : t.writer with
      | false => rfl
      | true =>
        have hl := (howners.writer c' t ht).1 hw
        rw [hlane] at hl
        cases hl
    rw [howners.reader c' t ht hnot]
    exact .nil
  · intro m hm
    have hm' : m ∈ σ.inFlight := hm
    rw [hin] at hm'
    cases hm'
  · obtain ⟨img, himg⟩ : ∃ img, image E₀ σ.log = (img, []) := ⟨_, Prod.ext rfl hclosed⟩
    have hops : ∀ op ∈ [WalOp.createTable S], op ≠ .commit := by simp
    have hmarked := Sys.foldl_replayEntry_marked E₀ hops first img
    refine ⟨_, [], (image_append E₀ σ.log _).trans (himg ▸ hmarked), ?_, fun r hr => by cases hr⟩
    show (img.insertTable S).data _ = _
    rw [Store.data_insertTable, if_pos rfl]

/-- What an INSERT generates for the column: beyond every version of the table, and beyond
the rows staged before it. -/
def GeneratesAhead (c : Nat) (rows : Mvcc.Rows Row) (slots : List Slot) (staged : List Row) : Prop :=
  List.Forall₂ (fun slot vals => slot[c]? = some none →
    ∃ i, vals.cell c = .int i ∧ Each (Behind c i) rows) slots staged ∧
  (slots.zip staged).Pairwise fun a b => b.1[c]? = some none → ∃ i, b.2.cell c = .int i ∧ Behind c i a.2

/-- `CREATE TABLE items (id INTEGER PRIMARY KEY AUTOINCREMENT, n INTEGER)`. -/
def createCounted : DdlStmt :=
  .createTable ⟨"items", [⟨"id", .integer, true, true, false, true, none⟩,
    ⟨"n", .integer, false, false, false, false, none⟩], [], [], [], [], false⟩

/-- `INSERT INTO items (n) VALUES (n)`. -/
def insertCounted (n : Int64) : InsertStmt := ⟨"items", some ["n"], .values [[.int n]], .error, none⟩

/-- `UPDATE items SET column = value`. -/
def setCounted (column : String) (value : Int64) : DmlStmt := .update ⟨"items", [(column, .int value)], none, none, none⟩

/-- A row counted 1, its `n` updated, committed and read back from the log. -/
def countedActs : List (Option Act) :=
  [some (.begin 1), some (.dml 1 Env.bare (.insert (insertCounted 10)) []),
    some (.dml 1 Env.bare (setCounted "n" 11) []), some (.commit 1), some .drain, some (.append 3), some .publish, none]

def created : Sys := Sys.init.after [.ddl 0 Env.bare createCounted (some 1)]

def counted : Sys := (Transition.play (lifeStep Env.bare) created countedActs).getD created

theorem keepsAhead_counted : Transition.RunWhere (lifeStep Env.bare) (KeepsAhead "items" 0) created counted := by
  refine Transition.RunWhere.nil.plays countedActs ?_
  refine ⟨trivial, _, rfl, ?_, _, rfl, ?_, _, rfl, trivial, _, rfl, trivial, _, rfl, trivial, _, rfl, trivial, _, rfl,
    trivial, _, rfl, rfl⟩
  · intro t tb ht hk htb
    exact rewritesBehind_of_insert rfl htb
  · intro t tb ht hk htb old vals hw
    obtain rfl := Option.some.inj ht
    have hmem : RowWrite.rewrote old vals ∈ [RowWrite.rewrote 1 [.int 1, .int 11]] := hw
    obtain ⟨rfl, rfl⟩ := RowWrite.rewrote.inj (List.mem_singleton.1 hmem)
    have hcounter : tb.nextAutoinc = 2 := (Option.some.inj (congrArg (Option.map Table.nextAutoinc) htb)).symm
    intro i hi
    obtain rfl : 1 = i := Value.int.inj hi
    show (1 : Int64).toInt < tb.nextAutoinc.toInt
    rw [hcounter]
    decide

def countedSchema : TableSchema :=
  ⟨"items", [⟨"id", .integer, true, true, false, true, none⟩, ⟨"n", .integer, false, false, false, false, none⟩], [], [],
    [], false, []⟩

end Twill
