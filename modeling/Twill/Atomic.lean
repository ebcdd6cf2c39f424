/-
Statements that fail.

Every check of an UPDATE or a DELETE comes before its first write, but RETURNING
is evaluated after the last; the rows of an INSERT into a table with a primary
key are checked one by one, each after the ones before it have been written. So
a statement that fails leaves the store as it was exactly when it stops before
its first write (`StopsInTime`). In runs whose failing statements do, the
pending stamps of a writer are the operations it has buffered (`Exact`).
-/
import Twill.Pending
import Twill.Snapshot

namespace Twill

open Mvcc (PENDING Op)
open Mvcc.Rows

/-! ## When a statement stops -/

section Insert

variable (E : Env) (schema : TableSchema) (table : String) (params : List Value) (onConflict : OnConflict)
  (pending : List String)

/-- No staged row from here on makes the statement fail. -/
def RowsPass : List Row → (AList fun _ : String => Nat) → List (Nat × Row) → Nat → Prop
  | [], _, _, _ => True
  | vals :: staged, live, images, next =>
    let key := compositeKey E.prims vals schema.primaryKeyIndices
    pending.contains key = false ∧
      match planRow E schema table params onConflict images vals (live.lookup key) with
      | .error (.err _) => False
      | .error _ => True
      | .ok none => RowsPass staged live images next
      | .ok (some w) => RowsPass staged (live.insert key next) (images ++ [(next, w.vals)]) (next + 1)

/-- Once a staged row has been written, none of the rows after it makes the
statement fail. -/
def RowsStopFirst : List Row → (AList fun _ : String => Nat) → List (Nat × Row) → Nat → Prop
  | [], _, _, _ => True
  | vals :: staged, live, images, next =>
    let key := compositeKey E.prims vals schema.primaryKeyIndices
    pending.contains key = true ∨
      match planRow E schema table params onConflict images vals (live.lookup key) with
      | .error _ => True
      | .ok none => RowsStopFirst staged live images next
      | .ok (some w) =>
        RowsPass E schema table params onConflict pending staged (live.insert key next)
          (images ++ [(next, w.vals)]) (next + 1)

variable {E schema table params onConflict pending}

theorem rowsPass_iff {staged : List Row} {live : AList fun _ : String => Nat} {images : List (Nat × Row)}
    {next : Nat} :
    RowsPass E schema table params onConflict pending staged live images next ↔
      ∀ e, (planRows E schema table params onConflict pending staged live images next).2 ≠ .error (.err e) := by
  induction staged generalizing live images next with
  | nil => simp [RowsPass, planRows]
  | cons vals staged ih =>
    simp only [RowsPass, planRows]
    cases hp : pending.contains (compositeKey E.prims vals schema.primaryKeyIndices) with
    | true => simp [pkPending, EngineError.conflict]
    | false =>
      simp only [true_and, Bool.false_eq_true, if_false]
      cases planRow E schema table params onConflict images vals
          (live.lookup (compositeKey E.prims vals schema.primaryKeyIndices)) with
      | error e => cases e <;> simp
      | ok o => cases o <;> exact ih

theorem rowsStopFirst_iff {staged : List Row} {live : AList fun _ : String => Nat} {images : List (Nat × Row)}
    {next : Nat} :
    RowsStopFirst E schema table params onConflict pending staged live images next ↔
      ((planRows E schema table params onConflict pending staged live images next).1 ≠ [] →
        ∀ e, (planRows E schema table params onConflict pending staged live images next).2 ≠ .error (.err e)) := by
  induction staged generalizing live images next with
  | nil => simp [RowsStopFirst, planRows]
  | cons vals staged ih =>
    simp only [RowsStopFirst, planRows]
    cases hp : pending.contains (compositeKey E.prims vals schema.primaryKeyIndices) with
    | true => simp
    | false =>
      simp only [Bool.false_eq_true, false_or, if_false]
      cases planRow E schema table params onConflict images vals
          (live.lookup (compositeKey E.prims vals schema.primaryKeyIndices)) with
      | error e => simp
      | ok o =>
        cases o with
        | none => exact ih
        | some w => simpa using rowsPass_iff

end Insert

/-- If there are rows to return, RETURNING does not fail on them. -/
def ReturningPasses (E : Env) (schema : TableSchema) (returning : Option (List SelItem)) (affected : List Row)
    (params : List Value) : Prop :=
  affected ≠ [] → ∀ e, returningRows E schema returning affected params ≠ .error (.err e)

/-- A statement that fails does so before its first write. -/
def StopsInTime (E : Env) (st : DmlStmt) (wc : WriteCtx) (s : Store) : Prop :=
  match s.table st.table with
  | none => True
  | some t => match st with
    | .insert st => ∀ staged autoinc, stagedRows E s t st wc = .ok (staged, autoinc) →
      (t.schema.primaryKeyIndices ≠ [] →
        RowsStopFirst E t.schema st.table wc.params st.onConflict
          (pendingKeys E.prims t.rows s.committedLsn t.schema.primaryKeyIndices wc.owner) staged
          (liveVids E.prims t.rows s.committedLsn t.schema.primaryKeyIndices wc.owner) (storedImages t.rows)
          t.nextVid) ∧
      ((insertWrites E t s.committedLsn st wc staged).2 = .ok () →
        ReturningPasses E t.schema st.returning
          ((insertWrites E t s.committedLsn st wc staged).1.map RowWrite.vals) wc.params)
    | .update st => ∀ updates, updateImages E s t st wc = .ok updates →
      ReturningPasses E t.schema st.returning (updates.map (·.2)) wc.params
    | .delete st => ∀ victims, collectDeleteVictims E s t st wc = .ok victims →
      ReturningPasses E t.schema st.returning (victims.map (·.2)) wc.params

theorem returningPasses_iff {E : Env} {schema : TableSchema} {returning : Option (List SelItem)}
    {params : List Value} {ws : List RowWrite} :
    ReturningPasses E schema returning (ws.map RowWrite.vals) params ↔
      (ws ≠ [] → ∀ e, (returningPlan E schema returning params ws).2 ≠ .error (.err e)) := by
  simp [ReturningPasses, returningPlan]

theorem insertPlan_of_error {E : Env} {s : Store} {t : Table} {st : InsertStmt} {wc : WriteCtx}
    {staged : List Row} {autoinc : Int64} {ws : List RowWrite} {e : Stop}
    (hstaged : stagedRows E s t st wc = .ok (staged, autoinc))
    (hws : insertWrites E t s.committedLsn st wc staged = (ws, .error e)) :
    insertPlan E s t st wc = (ws, .error e) := by
  simp only [insertPlan, hstaged, hws]

theorem insertPlan_of_ok {E : Env} {s : Store} {t : Table} {st : InsertStmt} {wc : WriteCtx}
    {staged : List Row} {autoinc : Int64} {ws : List RowWrite}
    (hstaged : stagedRows E s t st wc = .ok (staged, autoinc))
    (hws : insertWrites E t s.committedLsn st wc staged = (ws, .ok ())) :
    insertPlan E s t st wc = returningPlan E t.schema st.returning wc.params ws := by
  simp only [insertPlan, hstaged, hws]

theorem insertStops_iff {E : Env} {s : Store} {t : Table} {st : InsertStmt} {wc : WriteCtx} :
    (∀ staged autoinc, stagedRows E s t st wc = .ok (staged, autoinc) →
      (t.schema.primaryKeyIndices ≠ [] →
        RowsStopFirst E t.schema st.table wc.params st.onConflict
          (pendingKeys E.prims t.rows s.committedLsn t.schema.primaryKeyIndices wc.owner) staged
          (liveVids E.prims t.rows s.committedLsn t.schema.primaryKeyIndices wc.owner) (storedImages t.rows)
          t.nextVid) ∧
      ((insertWrites E t s.committedLsn st wc staged).2 = .ok () →
        ReturningPasses E t.schema st.returning
          ((insertWrites E t s.committedLsn st wc staged).1.map RowWrite.vals) wc.params)) ↔
      ((insertPlan E s t st wc).1 ≠ [] → ∀ e, (insertPlan E s t st wc).2 ≠ .error (.err e)) := by
  cases hstaged : stagedRows E s t st wc with
  | error e => simp [insertPlan, hstaged]
  | ok p =>
    obtain ⟨staged, autoinc⟩ := p
    have hloop : (t.schema.primaryKeyIndices ≠ [] →
        RowsStopFirst E t.schema st.table wc.params st.onConflict
          (pendingKeys E.prims t.rows s.committedLsn t.schema.primaryKeyIndices wc.owner) staged
          (liveVids E.prims t.rows s.committedLsn t.schema.primaryKeyIndices wc.owner) (storedImages t.rows)
          t.nextVid) ↔
        ((insertWrites E t s.committedLsn st wc staged).1 ≠ [] →
          ∀ e, (insertWrites E t s.committedLsn st wc staged).2 ≠ .error (.err e)) := by
      rw [rowsStopFirst_iff, insertWrites]
      cases hpk : t.schema.primaryKeyIndices with
      | nil => simp
      | cons i pk => simp
    cases hws : insertWrites E t s.committedLsn st wc staged with
    | mk ws res =>
      rw [hws] at hloop
      constructor
      · intro h
        obtain ⟨hrows, hreturning⟩ := h staged autoinc rfl
        rw [hws] at hreturning
        cases res with
        | error e =>
          rw [insertPlan_of_error hstaged hws]
          simpa using hloop.1 hrows
        | ok u =>
          rw [insertPlan_of_ok hstaged hws]
          exact returningPasses_iff.1 (hreturning rfl)
      · intro h staged' autoinc' heq
        obtain ⟨rfl, -⟩ := Prod.mk.inj (Except.ok.inj heq)
        rw [hloop, hws]
        cases res with
        | error e =>
          rw [insertPlan_of_error hstaged hws] at h
          exact ⟨by simpa using h, by simp⟩
        | ok u =>
          rw [insertPlan_of_ok hstaged hws] at h
          exact ⟨by simp, fun _ => returningPasses_iff.2 h⟩

/-- A statement stops in time when its plan fails only before any write. -/
theorem stopsInTime_iff {E : Env} {st : DmlStmt} {wc : WriteCtx} {s : Store} :
    StopsInTime E st wc s ↔
      ((dmlPlan E st wc s).1 ≠ [] → ∀ e, (dmlPlan E st wc s).2 ≠ .error (.err e)) := by
  simp only [StopsInTime, dmlPlan]
  cases s.table st.table with
  | none => simp
  | some t =>
    cases st with
    | insert st => exact insertStops_iff
    | update st =>
      simp only [updatePlan]
      cases updateImages E s t st wc with
      | error e => simp
      | ok updates =>
        have hvals : updates.map (·.2) = (updates.map fun u => RowWrite.rewrote u.1 u.2).map RowWrite.vals := by
          simp [RowWrite.vals]
        simp only [Except.ok.injEq, forall_eq', hvals]
        exact returningPasses_iff
    | delete st =>
      simp only [deletePlan]
      cases collectDeleteVictims E s t st wc with
      | error e => simp
      | ok victims =>
        have hvals : victims.map (·.2) = (victims.map fun v => RowWrite.removed v.1 v.2).map RowWrite.vals := by
          simp [RowWrite.vals]
        simp only [Except.ok.injEq, forall_eq', hvals]
        exact returningPasses_iff

/-! ## The statement -/

/-- A statement that fails leaves the rows of every table and the indexes as
they were. -/
def Atomic (E : Env) (st : DmlStmt) (wc : WriteCtx) (s : Store) : Prop :=
  ∀ e, (runDml E st wc s).1 = .error (.err e) →
    (∀ k, (runDml E st wc s).2.store.rowsAt k = s.rowsAt k) ∧ (runDml E st wc s).2.store.indexes = s.indexes

theorem runDml_err_iff {E : Env} {st : DmlStmt} {wc : WriteCtx} {s : Store} {e : EngineError} :
    (runDml E st wc s).1 = .error (.err e) ↔ (dmlPlan E st wc s).2 = .error (.err e) := by
  rw [(runDml_plan E st wc s).1, Plan.answer]
  cases (dmlPlan E st wc s).2 <;> simp [Except.map]

theorem atomic_of_stopsInTime {E : Env} {st : DmlStmt} {wc : WriteCtx} {s : Store}
    (h : StopsInTime E st wc s) : Atomic E st wc s := by
  intro e he
  have hplan := runDml_err_iff.1 he
  have hnil : (dmlPlan E st wc s).1 = [] := by
    by_contra hne
    exact stopsInTime_iff.1 h hne e hplan
  refine ⟨fun k => ?_, ?_⟩
  · rw [runDml_rowsAt, dmlOps, hnil]
    split <;> rfl
  · obtain ⟨-, -, -, hindexes⟩ := runDml_plan E st wc s
    exact hindexes hnil

theorem stopsInTime_of_atomic {E : Env} {st : DmlStmt} {wc : WriteCtx} {s : Store}
    (hwf : ∀ t, s.table st.table = some t → Mvcc.Rows.WF s.committedLsn t.nextVid t.rows)
    (hme : wc.owner ≠ 0) (h : Atomic E st wc s) : StopsInTime E st wc s := by
  refine stopsInTime_iff.2 fun hne e he => ?_
  obtain ⟨hrows, -⟩ := h e (runDml_err_iff.2 he)
  cases ht : s.table st.table with
  | none => exact hne (by rw [dmlPlan_of_none ht])
  | some t =>
    have hwf := hwf t ht
    have hallows := dmlPlan_allows E st wc ht hwf hme
    have hkept := hrows (Store.key st.table)
    rw [runDml_rowsAt, if_pos rfl, dmlOps_eq ht, Store.rowsAt_of_lookup ht] at hkept
    cases hops : opsFrom t.nextVid (dmlPlan E st wc s).1 with
    | nil =>
      cases hws : (dmlPlan E st wc s).1 with
      | nil => exact hne hws
      | cons w ws =>
        rw [hws] at hops
        cases w <;> simp [opsFrom] at hops
    | cons op ops =>
      rw [hops] at hkept hallows
      exact pendAll_ne hwf.nodup hallows hkept

/-! ## Runs -/

/-- If the step is a statement of an explicit transaction, it fails only before
its first write. -/
def AtomicStep (σ : Sys) (a : Act) : Prop :=
  ∀ c E st params t, a = .dml c E st params → σ.conns c = ⟨some t, .idle⟩ →
    StopsInTime E st ⟨t.snapshot, t.owner, params⟩ σ.store

/-- If the step goes back to a savepoint, then no version id saved with it, for
whatever table, is that of a version inserted since, and one that is that of a
version deleted since belongs to a version also inserted since. -/
def BacksCleanly (σ : Sys) (a : Act) : Prop :=
  ∀ c name t i sp, a = .rollbackTo c name → (σ.conns c).txn = some t → Sys.savepointAt t name = some i →
    t.savepoints[i]? = some sp → ∀ k v,
      ((∃ values, Op.insert v values ∈ opsAt k (t.walOps.drop sp.walLen)) → v ∉ sp.inserted) ∧
      (Op.delete v ∈ opsAt k (t.walOps.drop sp.walLen) → v ∈ sp.deleted →
        ∃ values, Op.insert v values ∈ opsAt k (t.walOps.drop sp.walLen))

namespace Sys

variable {σ τ : Sys}

/-- A connection undoing a failed statement goes on to nothing but ending its
transaction. -/
theorem undoing_of_stepped {a : Act} {c : Nat} {t : Txn} (hs : Stepped σ a τ) (ht : (τ.conns c).txn = some t)
    (hopen : (σ.conns c).txn ≠ none) (h : (σ.conns c).phase = .undoing) : (τ.conns c).phase = .undoing := by
  have hset : ∀ {c' : Nat} {conn : Connection}, (Function.update σ.conns c' conn c).txn = some t →
      (σ.conns c').txn = none ∨ (σ.conns c').phase ≠ .undoing ∨ conn.txn = none →
      (Function.update σ.conns c' conn c).phase = .undoing := by
    intro c' conn ht hcase
    by_cases hc : c = c'
    · subst hc
      rw [Function.update_self] at ht
      rcases hcase with hnone | hne | hnone
      · exact absurd hnone hopen
      · exact absurd h hne
      · simp [hnone] at ht
    · rw [Function.update_of_ne hc]
      exact h
  cases hs with
  | begin hconn | startImplicit hconn | resume hconn => exact hset ht (.inl (by rw [hconn]))
  | dml hconn hphase | dmlFail hconn hphase =>
    refine hset ht (.inr (.inl ?_))
    rw [hconn]
    rcases hphase with rfl | rfl <;> simp
  | commitIdle hconn | commitEmpty hconn | enqueue hconn | rollbackIdle hconn | rollback hconn =>
    exact hset ht (.inr (.inr rfl))
  | savepoint hconn | release hconn | rollbackTo hconn => exact hset ht (.inr (.inl (by simp [hconn])))
  | drain | append | appendFail | publish | discard | ddlNothing | ddl | otherOwner => exact h

/-- What a transaction commits is not being undone. -/
theorem phase_of_commit {c : Nat} (hstep : Twill.step σ (.commit c) = some τ) :
    (σ.conns c).phase ≠ .undoing := by
  simp only [Twill.step] at hstep
  split at hstep
  · next hconn => simp [hconn]
  · next hconn => simp [hconn]
  · simp at hstep

/-- Every pending stamp of a writer comes from an operation it has buffered,
unless the writer is about to undo a failed autocommit statement. -/
structure Sourced (σ : Sys) : Prop where
  txn : ∀ c t, (σ.conns c).txn = some t → (σ.conns c).phase ≠ .undoing → ∀ k,
    inserted t.owner (σ.store.rowsAt k) ⊆ insertsOf (opsAt k t.walOps) ∧
      deleted t.owner (σ.store.rowsAt k) ⊆ deletesOf (opsAt k t.walOps)
  member : ∀ m ∈ σ.inFlight, ∀ k,
    inserted m.owner (σ.store.rowsAt k) ⊆ insertsOf (opsAt k m.ops) ∧
      deleted m.owner (σ.store.rowsAt k) ⊆ deletesOf (opsAt k m.ops)

theorem Sourced.init : Sourced Sys.init := by
  refine ⟨?_, ?_⟩ <;> simp [Sys.init, inFlight, Flush.members]

/-- A statement that fails in an explicit transaction changes no stamp. -/
theorem ops_of_dmlFail {c : Nat} {t : Txn} {E : Env} {st : DmlStmt} {params : List Value} {e : EngineError}
    {w : Write} (hs : Stepped σ (.dml c E st params) τ) (hatomic : AtomicStep σ (.dml c E st params))
    (ht : (σ.conns c).txn = some t) (hrun : runDml E st ⟨t.snapshot, t.owner, params⟩ σ.store = (.error (.err e), w))
    (hphase : (τ.conns c).phase ≠ .undoing) : dmlOps E st ⟨t.snapshot, t.owner, params⟩ σ.store = [] := by
  cases hs with
  | @dml _ t₁ phase _ _ _ m w' hconn _ _ hok =>
    obtain rfl : t₁ = t := by simpa [hconn] using ht
    simp [hrun] at hok
  | @dmlFail _ t₁ phase _ _ _ e' w' hconn hph hlane hfail =>
    obtain rfl : t₁ = t := by simpa [hconn] using ht
    rcases hph with rfl | rfl
    · have hstop := stopsInTime_iff.1 (hatomic c E st params t₁ rfl hconn)
      have hplan : (dmlPlan E st ⟨t₁.snapshot, t₁.owner, params⟩ σ.store).2 = .error (.err e) :=
        runDml_err_iff.1 (by rw [hrun])
      have hnil : (dmlPlan E st ⟨t₁.snapshot, t₁.owner, params⟩ σ.store).1 = [] := by
        by_contra hne
        exact hstop hne e hplan
      rw [dmlOps, hnil]
      rfl
    · simp [phaseAfter] at hphase

/-- **One step keeps every pending stamp accounted for.** -/
theorem Sourced.step {F : Prop} {a : Act} (h : Inv σ) (hc : Complete F σ) (hsrc : Sourced σ)
    (hstep : Twill.step σ a = some τ) (hatomic : AtomicStep σ a) (hback : BacksCleanly σ a) : Sourced τ := by
  have hs := stepped_of_step hstep
  have hinv' := h.step hs
  refine ⟨fun c t ht hphase k => ?_, fun m hm k => ?_⟩
  · -- the connection was not undoing before, if its transaction was open
    have hbefore : ∀ t₀, (σ.conns c).txn = some t₀ → (σ.conns c).phase ≠ .undoing := fun t₀ ht₀ hu =>
      hphase (undoing_of_stepped hs ht (by simp [ht₀]) hu)
    cases txnStep_of_stepped hs ht with
    | opened =>
      have hun := hinv'.unwritten c _ ht rfl k
      rw [inserted_untouched hun, deleted_untouched hun]
      exact ⟨Set.empty_subset _, Set.empty_subset _⟩
    | @dml t₀ E st params m w ht₀ hact hrun hstore =>
      obtain ⟨hins, hdel⟩ := hsrc.txn c t₀ ht₀ (hbefore t₀ ht₀) k
      obtain ⟨hi, hd⟩ := stamps_dml h ht₀ E st params k
      rw [hrun] at hi hd
      rw [hstore, hi, hd, runDml_wal hrun, opsAt_append, insertsOf_append, deletesOf_append]
      exact ⟨Set.union_subset_union_left _ hins, Set.union_subset_union_left _ hdel⟩
    | @dmlFail t₀ E st params e w ht₀ hact hrun hstore =>
      subst hact
      obtain ⟨hins, hdel⟩ := hsrc.txn c t₀ ht₀ (hbefore t₀ ht₀) k
      obtain ⟨hi, hd⟩ := stamps_dml h ht₀ E st params k
      rw [hrun, ops_of_dmlFail hs hatomic ht₀ hrun hphase, List.map_nil, opsAt_nil] at hi hd
      rw [hstore, hi, hd, insertsOf_nil, deletesOf_nil, Set.union_empty, Set.union_empty]
      exact ⟨hins, hdel⟩
    | @savepoint t₀ name ht₀ hact hstore =>
      rw [hstore]
      exact hsrc.txn c t₀ ht₀ (hbefore t₀ ht₀) k
    | @release t₀ name i ht₀ hact hstore =>
      rw [hstore]
      exact hsrc.txn c t₀ ht₀ (hbefore t₀ ht₀) k
    | @rollbackTo t₀ name i sp ht₀ hact hat hsp hstore =>
      obtain ⟨hins, hdel⟩ := hsrc.txn c t₀ ht₀ (hbefore t₀ ht₀) k
      by_cases hw : t₀.writer = true
      · rw [if_pos hw] at hstore
        have hsplit : opsAt k t₀.walOps = opsAt k (t₀.walOps.take sp.walLen) ++ opsAt k (t₀.walOps.drop sp.walLen) := by
          rw [← opsAt_append, List.take_append_drop]
        rw [hsplit, insertsOf_append] at hins
        rw [hsplit, deletesOf_append] at hdel
        have hclean := hback c name t₀ i sp hact ht₀ hat hsp k
        rw [hstore, Store.rowsAt_rollbackToSavepoint, inserted_rollbackTo_self,
          deleted_rollbackTo_self (h.sound k).nodup]
        refine ⟨?_, ?_⟩
        · rintro ⟨v, values⟩ ⟨hmem, hlisted⟩
          rcases hins hmem with hkept | hsince
          · exact hkept
          · exact absurd hlisted ((hclean v).1 ⟨values, hsince⟩)
        · rintro v ⟨hmem, hlisted, hown⟩
          rcases hdel hmem with hkept | hsince
          · exact hkept
          · -- a version deleted since under a saved id was inserted since, and is gone
            obtain ⟨values, hnew⟩ := (hclean v).2 hsince hlisted
            have hbuffered : (v, values) ∈ inserted t₀.owner (σ.store.rowsAt k) := by
              refine ((hc.txn c t₀ ht₀).1 k).1 ?_
              rw [hsplit, insertsOf_append]
              exact .inr hnew
            exact absurd (hown values hbuffered) ((hclean v).1 ⟨values, hnew⟩)
      · rw [if_neg hw] at hstore
        have hnil := h.reader c t₀ ht₀ (by simpa using hw)
        rw [hnil] at hins hdel
        rw [hstore, hnil, List.take_nil]
        exact ⟨hins, hdel⟩
    | kept ht₀ hact =>
      cases hw : t.writer with
      | true =>
        obtain ⟨hi, hd⟩ := stamps_kept_writer h hs ht₀ hw hact k
        rw [hi, hd]
        exact hsrc.txn c t ht₀ (hbefore t ht₀) k
      | false =>
        have hun := hinv'.unwritten c t ht hw k
        rw [inserted_untouched hun, deleted_untouched hun]
        exact ⟨Set.empty_subset _, Set.empty_subset _⟩
  · rcases inFlight_of_stepped h.toOwners hs hm with ⟨hold, hbatch⟩ | ⟨c, t, hact, ht, hstore, rfl⟩
    · obtain ⟨hi, -, hd⟩ := stamps_member h hs hold hbatch k
      rw [hi]
      exact ⟨(hsrc.member m hold k).1, hd.trans (hsrc.member m hold k).2⟩
    · subst hact
      rw [hstore]
      exact hsrc.txn c t ht (phase_of_commit hstep) k

/-- A step whose statement, if it is one of an explicit transaction, stops in
time, and whose savepoint, if it goes back to one, hides nothing. -/
def Faultless (σ : Sys) (a : Act) : Prop := AtomicStep σ a ∧ BacksCleanly σ a

theorem Sourced.runWhere (h : Inv σ) (hc : Complete False σ) (hsrc : Sourced σ)
    (hrun : RunWhere Faultless σ τ) : Sourced τ := by
  induction hrun with
  | nil => exact hsrc
  | @snoc υ τ a hrun hsat hstep ih =>
    have hcomplete := hc.runWhere (fun _ _ _ => False.elim) h hrun
    exact ih.step (h.runWhere hrun) hcomplete hstep hsat.1 hsat.2

/-- The records of an appended batch end the log. -/
theorem log_appended {P : Sys → Act → Prop} (hrun : RunWhere P Sys.init σ) {ms : List Member} {first : Nat}
    (hflush : σ.flush = .appended ms first) : numberFrom first (batchRecords ms) <:+ σ.log := by
  induction hrun with
  | nil => simp [Sys.init] at hflush
  | @snoc υ τ a hrun hsat hstep ih =>
    cases stepped_of_step hstep with
    | drain | appendFail => simp at hflush
    | append hdrained hfirst hlast =>
      obtain ⟨rfl, rfl⟩ := Flush.appended.inj hflush
      exact List.suffix_append _ _
    | publish | discard => simp [Sys.publish, Sys.discard] at hflush
    | ddl hlane hnone =>
      have hflush : υ.flush = .appended ms first := hflush
      simp [hnone] at hflush
    | _ => exact ih hflush

theorem mem_numberFrom (first : Nat) {ops : List WalOp} {op : WalOp} (h : op ∈ ops) :
    ∃ lsn, (lsn, op) ∈ numberFrom first ops := by
  obtain ⟨i, hi, rfl⟩ := List.mem_iff_getElem.1 h
  refine ⟨first + i, List.mem_map.2 ⟨(ops[i], i), ?_, rfl⟩⟩
  rw [List.mem_zipIdx_iff_getElem?]
  simp [hi]

theorem mem_of_insertsOf {k : String} {ops : List WalOp} {v : Nat} {values : Row}
    (h : (v, values) ∈ insertsOf (opsAt k ops)) : ∃ table, Store.key table = k ∧ WalOp.insert table v values ∈ ops := by
  obtain ⟨op, hop, heq⟩ := List.mem_filterMap.1 h
  cases op with
  | insert table vid vals =>
    simp only [WalOp.at] at heq
    split at heq
    · next hk =>
      obtain ⟨rfl, rfl⟩ : vid = v ∧ vals = values := by simpa using heq
      exact ⟨table, hk, hop⟩
    · simp at heq
  | delete table vid =>
    simp only [WalOp.at] at heq
    split at heq <;> simp at heq
  | _ => simp [WalOp.at] at heq

end Sys

open Sys

/-- **Statement atomicity.** A statement that stops in time leaves every row and
every index as it was when it fails, and on a well-formed table no other
statement does. In runs whose explicit statements stop in time and whose
savepoints hide nothing, an open transaction has pending exactly what it has
buffered, and every row a batch publishes is in the log. -/
theorem dml_atomicity (E : Env) (st : DmlStmt) (wc : WriteCtx) (s : Store) (σ : Sys) :
    (StopsInTime E st wc s → Atomic E st wc s) ∧
    ((∀ t, s.table st.table = some t → Mvcc.Rows.WF s.committedLsn t.nextVid t.rows) → wc.owner ≠ 0 →
      Atomic E st wc s → StopsInTime E st wc s) ∧
    (RunWhere Faultless Sys.init σ →
      (∀ c t, σ.conns c = ⟨some t, .idle⟩ → ∀ k,
        inserted t.owner (σ.store.rowsAt k) = insertsOf (opsAt k t.walOps) ∧
          deleted t.owner (σ.store.rowsAt k) = deletesOf (opsAt k t.walOps)) ∧
      ∀ ms first, σ.flush = .appended ms first → ∀ m ∈ ms, ∀ k v values,
        (v, values) ∈ inserted m.owner (σ.store.rowsAt k) →
          ∃ lsn table, Store.key table = k ∧ (lsn, WalOp.insert table v values) ∈ σ.log) := by
  refine ⟨atomic_of_stopsInTime, stopsInTime_of_atomic, fun hrun => ?_⟩
  have hcomplete : Complete False σ := Complete.init.runWhere (fun _ _ _ => False.elim) Inv.init hrun
  have hsourced : Sourced σ := Sourced.init.runWhere Inv.init Complete.init hrun
  refine ⟨fun c t hconn k => ?_, fun ms first hflush m hm k v values hins => ?_⟩
  · obtain ⟨hbuffered, -⟩ := hcomplete.txn c t (by rw [hconn])
    obtain ⟨hi, hd⟩ := hsourced.txn c t (by rw [hconn]) (by simp [hconn]) k
    exact ⟨hi.antisymm (hbuffered k).1, hd.antisymm (hbuffered k).2⟩
  · have hin : m ∈ σ.inFlight := List.mem_append_left _ (by simpa [hflush, Flush.members] using hm)
    obtain ⟨table, hk, hop⟩ := mem_of_insertsOf ((hsourced.member m hin k).1 hins)
    have hrecord : WalOp.insert table v values ∈ batchRecords ms :=
      List.mem_flatMap.2 ⟨m, hm, List.mem_append_left _ hop⟩
    obtain ⟨lsn, hlsn⟩ := mem_numberFrom first hrecord
    exact ⟨lsn, table, hk, (log_appended hrun hflush).subset hlsn⟩

/-! ## Worked cases -/

/-- `INSERT INTO items VALUES (id, n), (id, m)`: the second row always clashes. -/
def insertTwice (id n m : Int64) : DmlStmt :=
  .insert ⟨"items", none, .values [[.int id, .int n], [.int id, .int m]], .error, none⟩

/-- A clash with a row already there comes before the first write. -/
theorem dml_atomicity_items :
    let wc : WriteCtx := ⟨4, 2, []⟩
    (runDml Env.bare (insertTwice 1 20 30) wc oneItem.store).1 = .error (pkClash ⟨"items",
        [⟨"id", .integer, true, true, false, false, none⟩, ⟨"n", .integer, false, false, false, false, none⟩],
        [], [], [], false, []⟩ "items") ∧
      (runDml Env.bare (insertTwice 1 20 30) wc oneItem.store).2.store.rowsAt "items" =
        oneItem.store.rowsAt "items" := by
  intro wc
  refine ⟨rfl, ?_⟩
  have hstop : StopsInTime Env.bare (insertTwice 1 20 30) wc oneItem.store := by
    refine stopsInTime_iff.2 fun hne => ?_
    exact absurd rfl hne
  exact ((dml_atomicity _ _ wc oneItem.store Sys.init).1 hstop _ rfl).1 "items"

/-- The second row of a two-row INSERT clashes with the first, which stays: the
transaction has it pending without having buffered it, and commits it without
ever logging it. -/
theorem failed_insert_stays :
    let s := (Sys.init.after [createItems]).store
    let wc : WriteCtx := ⟨2, 1, []⟩
    let acts : List Act := [createItems, .begin 1, .dml 1 Env.bare (insertTwice 1 10 20) [], insertItem 1 2 30,
      .commit 1, .drain, .append 3, .publish]
    ¬ Atomic Env.bare (insertTwice 1 10 20) wc s ∧ Run Sys.init acts (Sys.init.after acts) ∧
      ((Sys.init.after acts).store.rowsAt "items").visible 4 =
        [(1, [.int 1, .int 10]), (2, [.int 2, .int 30])] ∧
      ((Sys.init.after acts).log.map (·.2)).drop 2 =
        [.insert "items" 2 [.int 2, .int 30], .commit] := by
  intro s wc acts
  refine ⟨fun h => ?_, run_after rfl, rfl, rfl⟩
  have hrows := (h _ rfl).1 "items"
  have hkept : (runDml Env.bare (insertTwice 1 10 20) wc s).2.store.rowsAt "items" =
      [⟨1, [.int 1, .int 10], PENDING, 0, 1⟩] := rfl
  rw [hkept] at hrows
  exact absurd hrows (by decide)

end Twill
