/-
What an in-flight writer has buffered it has pending.

Every logged insert of an in-flight writer is a pending version under its owner
id, and every logged delete of the lane holder a pending delete (`Complete`). A
writer already queued can lose a pending delete only to an upsert that takes
it, so in runs that steal nothing this holds of every writer. Savepoints keep
what was logged when they were set (`Saved`).
-/
import Twill.Layers

namespace Twill

open Mvcc (PENDING Op)
open Mvcc.Rows

/-- If the step is a write statement, it takes no other writer's pending delete. -/
def StealFreeStep (σ : Sys) (a : Act) : Prop :=
  ∀ c E st params t, a = .dml c E st params → (σ.conns c).txn = some t →
    StealFree E st ⟨t.snapshot, t.owner, params⟩ σ.store

/-- No INSERT with an ON CONFLICT clause. -/
def Act.plain : Act → Bool
  | .dml _ _ st _ => st.plain
  | _ => true

namespace Sys

variable {σ τ : Sys}

theorem stealFreeStep_of_plain {a : Act} (h : Inv σ) (hplain : a.plain = true) : StealFreeStep σ a := by
  rintro c E st params t rfl ht
  cases hk : σ.store.table st.table with
  | none =>
    intro rw hrw
    simp [dmlPlan_of_none hk] at hrw
  | some tb => exact stealFree_of_plain hplain hk (h.rows _ tb hk)

/-- What a savepoint remembers of the operations logged before it. -/
structure Saved (s : Store) (o : Nat) (ops : List WalOp) (sp : Savepoint) : Prop where
  len : sp.walLen ≤ ops.length
  kept : ∀ k, ∀ op ∈ opsAt k (ops.take sp.walLen), Kept sp.inserted sp.deleted op
  own : ∀ k, ∀ v ∈ deletesOf (opsAt k (ops.take sp.walLen)), ∀ values,
    (v, values) ∈ inserted o (s.rowsAt k) → v ∈ sp.inserted

/-! ## Stamps of the other writers -/

/-- A step leaves the stamps of a writer it does not concern, but for the
pending deletes an upsert takes. -/
theorem StoreStep.stamps_other {a : Act} {s : Store} {o : Nat} (hinv : Inv σ) (hs : StoreStep σ a s)
    (ho : o ≠ 0) (hddl : ∀ c E st n, a = .ddl c E st (some n) → s = σ.store)
    (hactor : ∀ c t, a.actor = some c → (σ.conns c).txn = some t → t.owner ≠ o)
    (hbatch : a = .publish ∨ a = .discard → ∀ m ∈ σ.flush.members, m.owner ≠ o) (k : String) :
    inserted o (s.rowsAt k) = inserted o (σ.store.rowsAt k) ∧
      (StealFreeStep σ a → deleted o (s.rowsAt k) = deleted o (σ.store.rowsAt k)) ∧
      deleted o (s.rowsAt k) ⊆ deleted o (σ.store.rowsAt k) := by
  cases hs with
  | same => exact ⟨rfl, fun _ => rfl, subset_rfl⟩
  | @dml c t E st params ht hlane =>
    have hne : o ≠ t.owner := (hactor c t rfl ht).symm
    rw [runDml_rowsAt]
    split
    · next hk =>
      subst hk
      refine ⟨inserted_pendAll_other (hinv.sound _).nodup (hinv.dml_allows ht E st params) hne, ?_,
        deleted_pendAll_subset hne⟩
      intro hfree
      exact deleted_pendAll_other (hinv.sound _) (hinv.txn c t ht).1.ne'
        (hinv.dml_admits ht (hfree c E st params t rfl ht)) ho hne
    · exact ⟨rfl, fun _ => rfl, subset_rfl⟩
  | @rollback c t ht hwriter =>
    have hne : o ≠ t.owner := (hactor c t rfl ht).symm
    rw [Store.rowsAt_rollbackOwner, inserted_rollback_other ho hne, deleted_rollback_other ho hne]
    exact ⟨rfl, fun _ => rfl, subset_rfl⟩
  | @rollbackTo c t name sp ht hwriter =>
    have hne : o ≠ t.owner := (hactor c t rfl ht).symm
    rw [Store.rowsAt_rollbackToSavepoint, inserted_rollbackTo_other ho hne, deleted_rollbackTo_other ho hne]
    exact ⟨rfl, fun _ => rfl, subset_rfl⟩
  | @publish ms first hflush =>
    have hnot : o ∉ (commitLsns first ms).map (·.1) := by
      rw [owners_commitLsns]
      intro hmem
      obtain ⟨m, hm, heq⟩ := List.mem_map.1 hmem
      exact hbatch (.inl rfl) m (by simpa [hflush, Flush.members] using hm) heq
    obtain ⟨hi, hd⟩ := stamps_finalizeAll_other ho hnot
    rw [rowsAt_publish, hi, hd]
    exact ⟨rfl, fun _ => rfl, subset_rfl⟩
  | @discard ms hflush =>
    have hnot : o ∉ ms.map (·.owner) := by
      intro hmem
      obtain ⟨m, hm, heq⟩ := List.mem_map.1 hmem
      exact hbatch (.inr rfl) m (by simpa [hflush, Flush.members] using hm) heq
    obtain ⟨hi, hd⟩ := stamps_rollbackAll_other ho hnot
    rw [rowsAt_discard, hi, hd]
    exact ⟨rfl, fun _ => rfl, subset_rfl⟩
  | ddl hplan hfirst =>
    rw [hddl _ _ _ _ rfl]
    exact ⟨rfl, fun _ => rfl, subset_rfl⟩

/-- The stamps of an open writer that does not act. -/
theorem stamps_kept_writer {a : Act} {c : Nat} {t : Txn} (h : Inv σ) (hs : Stepped σ a τ)
    (ht : (σ.conns c).txn = some t) (hw : t.writer = true) (hact : a.actor ≠ some c) (k : String) :
    inserted t.owner (τ.store.rowsAt k) = inserted t.owner (σ.store.rowsAt k) ∧
      deleted t.owner (τ.store.rowsAt k) = deleted t.owner (σ.store.rowsAt k) := by
  have hlane := (h.writer c t ht).1 hw
  -- a statement of another connection would need the lane
  have hfree : StealFreeStep σ a := by
    rintro c' E st params t' rfl ht'
    have hcc : c' = c := by
      cases hs with
      | dml hconn _ hl | dmlFail hconn _ hl =>
        rcases hl with hw' | hnone
        · exact Option.some.inj (((h.writer c' _ (by rw [hconn])).1 hw').symm.trans hlane)
        · simp [hlane] at hnone
    exact absurd (by rw [hcc]; rfl) hact
  have hddl : ∀ c' E st n, a = .ddl c' E st (some n) → τ.store = σ.store := by
    rintro c' E st n rfl
    cases hs with
    | ddlNothing => rfl
    | ddl hnone => simp [hlane] at hnone
  have hactor : ∀ c' t', a.actor = some c' → (σ.conns c').txn = some t' → t'.owner ≠ t.owner :=
    fun c' t' hc' ht' heq => hact (h.apart c' c t' t ht' ht heq ▸ hc')
  obtain ⟨hi, hd, -⟩ := (storeStep_of_stepped hs).stamps_other h (h.txn c t ht).1.ne' hddl hactor
    (fun _ m hm => h.fresh c t ht m (List.mem_append_left _ hm)) k
  exact ⟨hi, hd hfree⟩

/-- The stamps of an open transaction that does not act, if it has any. -/
theorem stamps_kept {a : Act} {c : Nat} {t : Txn} (h : Inv σ) (hs : Stepped σ a τ)
    (ht : (σ.conns c).txn = some t) (hact : a.actor ≠ some c) :
    t.walOps = [] ∨ ∀ k, inserted t.owner (τ.store.rowsAt k) = inserted t.owner (σ.store.rowsAt k) ∧
      deleted t.owner (τ.store.rowsAt k) = deleted t.owner (σ.store.rowsAt k) := by
  cases hw : t.writer with
  | true => exact .inr (stamps_kept_writer h hs ht hw hact)
  | false => exact .inl (h.reader c t ht hw)

/-- Where a writer in flight after a step comes from. -/
theorem inFlight_of_stepped {a : Act} {m : Member} (h : Owners σ) (hs : Stepped σ a τ) (hm : m ∈ τ.inFlight) :
    (m ∈ σ.inFlight ∧ (a = .publish ∨ a = .discard → ∀ m' ∈ σ.flush.members, m'.owner ≠ m.owner)) ∨
      ∃ c t, a = .commit c ∧ (σ.conns c).txn = some t ∧ τ.store = σ.store ∧ m = ⟨t.owner, t.walOps⟩ := by
  have hnodup := h.nodup
  rw [inFlight, List.map_append, List.nodup_append] at hnodup
  -- the queue shares no writer with the batch
  have hqueue : m ∈ σ.queue → ∀ m' ∈ σ.flush.members, m'.owner ≠ m.owner := fun hq m' hm' =>
    hnodup.2.2 m'.owner (List.mem_map_of_mem hm') m.owner (List.mem_map_of_mem hq)
  cases hs with
  | @enqueue c t phase hconn hwriter hops =>
    have hm : m ∈ σ.inFlight ++ [⟨t.owner, t.walOps⟩] := by simpa [inFlight, setConn] using hm
    rcases List.mem_append.1 hm with hm | hm
    · exact .inl ⟨hm, by simp⟩
    · exact .inr ⟨c, t, rfl, by rw [hconn], rfl, List.mem_singleton.1 hm⟩
  | drain hflush hne =>
    rw [inFlight_drain hflush] at hm
    exact .inl ⟨hm, by simp⟩
  | append hflush hfirst hlast =>
    exact .inl ⟨by simpa [inFlight, Flush.members, hflush] using hm, by simp⟩
  | appendFail hflush => exact .inl ⟨by simpa [inFlight, Flush.members, hflush] using hm, by simp⟩
  | publish hflush =>
    have hm : m ∈ σ.queue := by simpa [inFlight, Sys.publish, Flush.members] using hm
    exact .inl ⟨List.mem_append_right _ hm, fun _ => hqueue hm⟩
  | discard hflush =>
    have hm : m ∈ σ.queue := by simpa [inFlight, Sys.discard, Flush.members] using hm
    exact .inl ⟨List.mem_append_right _ hm, fun _ => hqueue hm⟩
  | _ => exact .inl ⟨hm, by simp⟩

/-- The stamps of a writer in flight that the step does not resolve. -/
theorem stamps_member {a : Act} {m : Member} (h : Inv σ) (hs : Stepped σ a τ) (hm : m ∈ σ.inFlight)
    (hbatch : a = .publish ∨ a = .discard → ∀ m' ∈ σ.flush.members, m'.owner ≠ m.owner) (k : String) :
    inserted m.owner (τ.store.rowsAt k) = inserted m.owner (σ.store.rowsAt k) ∧
      (StealFreeStep σ a → deleted m.owner (τ.store.rowsAt k) = deleted m.owner (σ.store.rowsAt k)) ∧
      deleted m.owner (τ.store.rowsAt k) ⊆ deleted m.owner (σ.store.rowsAt k) := by
  refine (storeStep_of_stepped hs).stamps_other h (h.member m hm).1.ne' ?_ ?_ hbatch k
  · rintro c' E st n rfl
    cases hs with
    | ddlNothing => rfl
    | ddl hlane hflush hqueue => simp [inFlight, hflush, hqueue, Flush.members] at hm
  · exact fun c t _ ht => (h.fresh c t ht m hm).symm

/-! ## Logged operations are pending -/

/-- Every logged change of `o` is pending under its id. -/
def Buffered (s : Store) (o : Nat) (ops : List WalOp) : Prop :=
  ∀ k, insertsOf (opsAt k ops) ⊆ inserted o (s.rowsAt k) ∧ deletesOf (opsAt k ops) ⊆ deleted o (s.rowsAt k)

theorem Buffered.nil {s : Store} {o : Nat} : Buffered s o [] := fun k => by simp

theorem Buffered.congr {s s' : Store} {o : Nat} {ops : List WalOp} (h : Buffered s o ops)
    (heq : ∀ k, inserted o (s'.rowsAt k) = inserted o (s.rowsAt k) ∧
      deleted o (s'.rowsAt k) = deleted o (s.rowsAt k)) : Buffered s' o ops := fun k => by
  rw [(heq k).1, (heq k).2]
  exact h k

theorem Saved.congr {s s' : Store} {o : Nat} {ops : List WalOp} {sp : Savepoint} (h : Saved s o ops sp)
    (hsub : ∀ k, inserted o (s'.rowsAt k) ⊆ inserted o (s.rowsAt k)) : Saved s' o ops sp :=
  ⟨h.len, h.kept, fun k v hv values hins => h.own k v hv values (hsub k hins)⟩

/-- A savepoint of a transaction that has logged nothing. -/
theorem Saved.empty {s s' : Store} {o : Nat} {sp : Savepoint} (h : Saved s o [] sp) : Saved s' o [] sp :=
  ⟨h.len, by simp, by simp⟩

/-- The savepoints of a transaction, in the order they were set. -/
structure SavedAll (s : Store) (t : Txn) : Prop where
  sorted : t.savepoints.Pairwise fun a b => a.walLen ≤ b.walLen
  saved : ∀ sp ∈ t.savepoints, Saved s t.owner t.walOps sp

/-- Logged changes are pending, and savepoints remember those before them. The
deletes of a queued writer are only promised in runs that steal nothing (`F`). -/
structure Complete (F : Prop) (σ : Sys) : Prop where
  txn : ∀ c t, (σ.conns c).txn = some t → Buffered σ.store t.owner t.walOps ∧ SavedAll σ.store t
  inserts : ∀ m ∈ σ.inFlight, ∀ k, insertsOf (opsAt k m.ops) ⊆ inserted m.owner (σ.store.rowsAt k)
  deletes : F → ∀ m ∈ σ.inFlight, ∀ k, deletesOf (opsAt k m.ops) ⊆ deleted m.owner (σ.store.rowsAt k)

theorem Complete.init {F : Prop} : Complete F Sys.init := by
  refine ⟨?_, ?_, ?_⟩ <;> simp [Sys.init, inFlight, Flush.members]

/-- A statement's changes join what its transaction has pending. -/
theorem stamps_dml (h : Inv σ) {c : Nat} {t : Txn} (ht : (σ.conns c).txn = some t) (E : Env) (st : DmlStmt)
    (params : List Value) (k : String) :
    let wc : WriteCtx := ⟨t.snapshot, t.owner, params⟩
    let new := opsAt k ((dmlOps E st wc σ.store).map (toWal st.table))
    inserted t.owner ((runDml E st wc σ.store).2.store.rowsAt k) =
        inserted t.owner (σ.store.rowsAt k) ∪ insertsOf new ∧
      deleted t.owner ((runDml E st wc σ.store).2.store.rowsAt k) =
        deleted t.owner (σ.store.rowsAt k) ∪ deletesOf new := by
  intro wc new
  simp only [new, opsAt_toWal, runDml_rowsAt]
  split
  · next hk =>
    subst hk
    exact stamps_pendAll_self (h.sound _).nodup (h.dml_allows ht E st params)
  · simp

/-- What a statement inserts was not deleted before. -/
theorem dml_fresh (h : Inv σ) {c : Nat} {t : Txn} (ht : (σ.conns c).txn = some t) (E : Env) (st : DmlStmt)
    (params : List Value) {k : String} {v : Nat} {values : Row}
    (hnew : (v, values) ∈ insertsOf (opsAt k ((dmlOps E st ⟨t.snapshot, t.owner, params⟩ σ.store).map
      (toWal st.table)))) : v ∉ deleted t.owner (σ.store.rowsAt k) := by
  rw [opsAt_toWal] at hnew
  split at hnew
  · next hk =>
    subst hk
    rintro ⟨r, hr, -, hv⟩
    exact (h.dml_allows ht E st params).fresh hnew r hr hv
  · simp at hnew

/-- A savepoint outlives a statement: the log grows past what it remembers. -/
theorem Saved.dml (h : Inv σ) {c : Nat} {t : Txn} (ht : (σ.conns c).txn = some t) {sp : Savepoint}
    (hb : Buffered σ.store t.owner t.walOps) (hsp : Saved σ.store t.owner t.walOps sp) (E : Env) (st : DmlStmt)
    (params : List Value) (new : List WalOp) :
    Saved (runDml E st ⟨t.snapshot, t.owner, params⟩ σ.store).2.store t.owner (t.walOps ++ new) sp := by
  have htake : (t.walOps ++ new).take sp.walLen = t.walOps.take sp.walLen := List.take_append_of_le_length hsp.len
  refine ⟨by simp [Nat.le_add_right_of_le hsp.len], ?_, ?_⟩
  · rw [htake]
    exact hsp.kept
  · rw [htake]
    intro k v hv values hins
    rw [(stamps_dml h ht E st params k).1] at hins
    rcases hins with hins | hnew
    · exact hsp.own k v hv values hins
    · exact absurd ((hb k).2 (mem_opsAt_take hv)) (dml_fresh h ht E st params hnew)

theorem mem_values {s : Store} {k : String} {t : Table} (h : s.tables.lookup k = some t) : t ∈ s.tables.values :=
  List.mem_map.2 ⟨⟨k, t⟩, List.of_mem_dlookup h, rfl⟩

theorem Saved.new {s : Store} {o : Nat} {ops : List WalOp} (hb : Buffered s o ops) (name : String) :
    Saved s o ops ⟨name, (s.pendingSnapshot o).1, (s.pendingSnapshot o).2, ops.length⟩ := by
  have hins : ∀ k v values, (v, values) ∈ inserted o (s.rowsAt k) → v ∈ (s.pendingSnapshot o).1 := by
    intro k v values hmem
    cases hk : s.tables.lookup k with
    | none => simp [Store.rowsAt, hk, inserted] at hmem
    | some t =>
      rw [Store.rowsAt_of_lookup hk] at hmem
      exact List.mem_flatMap.2 ⟨t, mem_values hk, mem_insertedVids.2 ⟨values, hmem⟩⟩
  have hdel : ∀ k v, v ∈ deleted o (s.rowsAt k) → v ∈ (s.pendingSnapshot o).2 := by
    intro k v hmem
    cases hk : s.tables.lookup k with
    | none => simp [Store.rowsAt, hk, deleted] at hmem
    | some t =>
      rw [Store.rowsAt_of_lookup hk] at hmem
      exact List.mem_flatMap.2 ⟨t, mem_values hk, mem_deletedVids.2 hmem⟩
  refine ⟨le_rfl, fun k op hop => ?_, fun k v _ values hmem => hins k v values hmem⟩
  rw [List.take_length] at hop
  cases op with
  | insert vid values => exact hins k vid values ((hb k).1 hop)
  | delete vid => exact hdel k vid ((hb k).2 hop)

/-- Back at a savepoint, what was logged before it is still pending. -/
theorem Buffered.rollbackTo (h : Inv σ) {o : Nat} {ops : List WalOp} {sp : Savepoint}
    (hb : Buffered σ.store o ops) (hsp : Saved σ.store o ops sp) :
    Buffered (σ.store.rollbackToSavepoint o sp.inserted sp.deleted) o (ops.take sp.walLen) := by
  intro k
  rw [Store.rowsAt_rollbackToSavepoint, inserted_rollbackTo_self, deleted_rollbackTo_self (h.sound k).nodup]
  refine ⟨fun p hp => ⟨(hb k).1 (mem_opsAt_take hp), hsp.kept k _ hp⟩, fun v hv => ?_⟩
  exact ⟨(hb k).2 (mem_opsAt_take hv), hsp.kept k _ hv, fun values hins => hsp.own k v hv values hins⟩

theorem SavedAll.rollbackTo {s s' : Store} {t : Txn} {i : Nat} {sp : Savepoint} (hs : SavedAll s t)
    (hsp : t.savepoints[i]? = some sp) (hsub : ∀ k, inserted t.owner (s'.rowsAt k) ⊆ inserted t.owner (s.rowsAt k)) :
    SavedAll s' { t with walOps := t.walOps.take sp.walLen, savepoints := t.savepoints.take (i + 1) } := by
  refine ⟨hs.sorted.sublist (List.take_sublist _ _), fun sp' hsp' => ?_⟩
  have hsaved := hs.saved sp' (List.mem_of_mem_take hsp')
  -- savepoints up to the one gone back to were set no later
  have hle : sp'.walLen ≤ sp.walLen := by
    obtain ⟨j, hj, rfl⟩ := List.mem_iff_getElem.1 hsp'
    obtain ⟨hi, rfl⟩ := List.getElem?_eq_some_iff.1 hsp
    rw [List.getElem_take]
    rcases Nat.lt_or_ge j i with hlt | hge
    · exact List.pairwise_iff_getElem.1 hs.sorted j i (hlt.trans hi) hi hlt
    · have : j = i := by
        rw [List.length_take] at hj
        omega
      subst this
      exact le_rfl
  have htake : (t.walOps.take sp.walLen).take sp'.walLen = t.walOps.take sp'.walLen := by
    rw [List.take_take, min_eq_left hle]
  refine ⟨?_, ?_, ?_⟩
  · rw [List.length_take]
    exact le_min hle hsaved.len
  · rw [htake]
    exact hsaved.kept
  · rw [htake]
    exact fun k v hv values hins => hsaved.own k v hv values (hsub k hins)

/-! ## Every step, every run -/

theorem Complete.txn_step {F : Prop} {a : Act} (h : Inv σ) (hc : Complete F σ) (hs : Stepped σ a τ) {c : Nat}
    {t : Txn} (ht : (τ.conns c).txn = some t) : Buffered τ.store t.owner t.walOps ∧ SavedAll τ.store t := by
  cases txnStep_of_stepped hs ht with
  | opened => exact ⟨Buffered.nil, by simp, by simp⟩
  | @dml t₀ E st params m w ht₀ hact hrun hstore =>
    obtain ⟨hb, hsaved⟩ := hc.txn c t₀ ht₀
    have hw : τ.store = (runDml E st ⟨t₀.snapshot, t₀.owner, params⟩ σ.store).2.store := by rw [hstore, hrun]
    refine ⟨fun k => ?_, hsaved.sorted, fun sp hsp => ?_⟩
    · obtain ⟨hi, hd⟩ := stamps_dml h ht₀ E st params k
      rw [hw, hi, hd, runDml_wal hrun, opsAt_append, insertsOf_append, deletesOf_append]
      exact ⟨Set.union_subset_union_left _ (hb k).1, Set.union_subset_union_left _ (hb k).2⟩
    · rw [hw]
      exact (hsaved.saved sp hsp).dml h ht₀ hb E st params m.wal
  | @dmlFail t₀ E st params e w ht₀ hact hrun hstore =>
    obtain ⟨hb, hsaved⟩ := hc.txn c t₀ ht₀
    have hw : τ.store = (runDml E st ⟨t₀.snapshot, t₀.owner, params⟩ σ.store).2.store := by rw [hstore, hrun]
    refine ⟨fun k => ?_, hsaved.sorted, fun sp hsp => ?_⟩
    · obtain ⟨hi, hd⟩ := stamps_dml h ht₀ E st params k
      rw [hw, hi, hd]
      exact ⟨(hb k).1.trans Set.subset_union_left, (hb k).2.trans Set.subset_union_left⟩
    · have hdml := (hsaved.saved sp hsp).dml h ht₀ hb E st params []
      rw [List.append_nil] at hdml
      rw [hw]
      exact hdml
  | @savepoint t₀ name ht₀ hact hstore =>
    obtain ⟨hb, hsaved⟩ := hc.txn c t₀ ht₀
    rw [hstore]
    refine ⟨hb, ?_, fun sp hsp => ?_⟩
    · rw [List.pairwise_append]
      refine ⟨hsaved.sorted, by simp, fun sp hsp sp' hsp' => ?_⟩
      obtain rfl := List.mem_singleton.1 hsp'
      exact (hsaved.saved sp hsp).len
    · rcases List.mem_append.1 hsp with hsp | hsp
      · exact hsaved.saved sp hsp
      · obtain rfl := List.mem_singleton.1 hsp
        exact Saved.new hb name
  | @release t₀ name i ht₀ hact hstore =>
    obtain ⟨hb, hsaved⟩ := hc.txn c t₀ ht₀
    rw [hstore]
    exact ⟨hb, hsaved.sorted.sublist (List.take_sublist _ _),
      fun sp hsp => hsaved.saved sp (List.mem_of_mem_take hsp)⟩
  | @rollbackTo t₀ name i sp ht₀ hact hat hsp hstore =>
    obtain ⟨hb, hsaved⟩ := hc.txn c t₀ ht₀
    have hsp' := hsaved.saved sp (List.mem_of_getElem? hsp)
    by_cases hw : t₀.writer = true
    · rw [if_pos hw] at hstore
      rw [hstore]
      refine ⟨hb.rollbackTo h hsp', hsaved.rollbackTo hsp fun k => ?_⟩
      rw [Store.rowsAt_rollbackToSavepoint, inserted_rollbackTo_self]
      exact Set.sep_subset _ _
    · rw [if_neg hw] at hstore
      have hnil := h.reader c t₀ ht₀ (by simpa using hw)
      rw [hstore]
      refine ⟨?_, hsaved.rollbackTo hsp fun k => subset_rfl⟩
      rw [hnil, List.take_nil]
      exact Buffered.nil
  | kept ht₀ hact =>
    obtain ⟨hb, hsaved⟩ := hc.txn c t ht₀
    rcases stamps_kept h hs ht₀ hact with hnil | hsame
    · refine ⟨hnil ▸ Buffered.nil, hsaved.sorted, fun sp hsp => ?_⟩
      have hsp' := hsaved.saved sp hsp
      rw [hnil] at hsp' ⊢
      exact hsp'.empty
    · exact ⟨hb.congr hsame, hsaved.sorted, fun sp hsp => (hsaved.saved sp hsp).congr fun k => (hsame k).1.subset⟩

/-- **One step keeps every logged change pending.** -/
theorem Complete.step {F : Prop} {a : Act} (h : Inv σ) (hc : Complete F σ) (hs : Stepped σ a τ)
    (hfree : F → StealFreeStep σ a) : Complete F τ := by
  refine ⟨fun c t ht => hc.txn_step h hs ht, fun m hm k => ?_, fun hF m hm k => ?_⟩
  · rcases inFlight_of_stepped h.toOwners hs hm with ⟨hold, hbatch⟩ | ⟨c, t, -, ht, hstore, rfl⟩
    · rw [(stamps_member h hs hold hbatch k).1]
      exact hc.inserts m hold k
    · rw [hstore]
      exact ((hc.txn c t ht).1 k).1
  · rcases inFlight_of_stepped h.toOwners hs hm with ⟨hold, hbatch⟩ | ⟨c, t, -, ht, hstore, rfl⟩
    · rw [(stamps_member h hs hold hbatch k).2.1 (hfree hF)]
      exact hc.deletes hF m hold k
    · rw [hstore]
      exact ((hc.txn c t ht).1 k).2

/-- **In every run the logged changes of a writer are pending.** -/
theorem Complete.run {acts : List Act} (h : Inv σ) (hc : Complete False σ) (hrun : Run σ acts τ) :
    Complete False τ := by
  induction hrun with
  | nil => exact hc
  | snoc hrun hstep ih => exact ih.step (h.run hrun) (stepped_of_step hstep) False.elim

theorem Complete.runWhere {F : Prop} {P : Sys → Act → Prop} (hP : ∀ υ a, P υ a → F → StealFreeStep υ a)
    (h : Inv σ) (hc : Complete F σ) (hrun : RunWhere P σ τ) : Complete F τ := by
  induction hrun with
  | nil => exact hc
  | snoc hrun hsat hstep ih => exact ih.step (h.runWhere hrun) (stepped_of_step hstep) (hP _ _ hsat)

/-- Runs of plain statements steal nothing. -/
theorem runWhere_of_plain {acts : List Act} (h : Inv σ) (hrun : Run σ acts τ)
    (hplain : ∀ a ∈ acts, a.plain = true) : RunWhere StealFreeStep σ τ := by
  induction hrun with
  | nil => exact .nil σ
  | @snoc τ υ acts a hrun hstep ih =>
    have hlast := stealFreeStep_of_plain (h.run hrun) (hplain a (by simp))
    exact .snoc (ih fun a' ha' => hplain a' (List.mem_append_left _ ha')) hlast hstep

end Sys

end Twill
