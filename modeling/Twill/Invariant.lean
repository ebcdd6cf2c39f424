/-
The invariant of every reachable system.

Writers are in lane order: the members of the leader's batch, the queue, and the
holder of the write lane (`Sys.layers`). Owner ids of writers and open
transactions are distinct and below the next one to draw; no stamp bears the id
of a transaction that has not written; durable stamps are at most the published
LSN, which stays below every LSN still to be assigned.
-/
import Twill.Steps
import Twill.DdlFacts

namespace Twill

open Mvcc (PENDING)

namespace Sys

/-- The transaction holding the write lane. -/
def holder (σ : Sys) : Option Txn := σ.lane.bind fun c => (σ.conns c).txn

/-- The in-flight writers with their operations, in lane order. -/
def layers (σ : Sys) : List Member :=
  σ.inFlight ++ (σ.holder.map fun t => (⟨t.owner, t.walOps⟩ : Member)).toList

variable {σ τ : Sys} {c : Nat} {conn : Connection}

@[simp] theorem conns_setConn_self : (σ.setConn c conn).conns c = conn := by simp [setConn]

theorem conns_setConn_ne {c' : Nat} (h : c' ≠ c) : (σ.setConn c conn).conns c' = σ.conns c' := by
  simp [setConn, h]

@[simp] theorem inFlight_setConn : (σ.setConn c conn).inFlight = σ.inFlight := rfl

@[simp] theorem store_setConn : (σ.setConn c conn).store = σ.store := rfl

theorem layers_of_lane_none (h : σ.lane = none) : σ.layers = σ.inFlight := by
  simp [layers, holder, h]

theorem layers_of_lane {t : Txn} (h : σ.lane = some c) (ht : (σ.conns c).txn = some t) :
    σ.layers = σ.inFlight ++ [⟨t.owner, t.walOps⟩] := by
  simp [layers, holder, h, ht]

/-- The layers depend on the batch, the queue and the holder alone. -/
theorem layers_congr (hin : τ.inFlight = σ.inFlight) (hlane : τ.lane = σ.lane)
    (hconn : ∀ c, σ.lane = some c → (τ.conns c).txn = (σ.conns c).txn) : τ.layers = σ.layers := by
  have hholder : τ.holder = σ.holder := by
    simp only [holder, hlane]
    cases hl : σ.lane with
    | none => rfl
    | some c => exact hconn c hl
  simp only [layers, hin, hholder]

/-! ## Batches -/

theorem takeBatch_append (nrec : Nat) (ms : List Member) :
    (takeBatch nrec ms).1 ++ (takeBatch nrec ms).2 = ms := by
  induction ms generalizing nrec with
  | nil => rfl
  | cons m ms ih =>
    simp only [takeBatch]
    split
    · rfl
    · simp [ih]

theorem drainBatch_append (ms : List Member) : (drainBatch ms).1 ++ (drainBatch ms).2 = ms := by
  cases ms with
  | nil => rfl
  | cons m ms => simp [drainBatch, takeBatch_append]

/-- Each member's owner with the LSN of its `Commit` marker. -/
def commitLsns : Nat → List Member → List (Nat × Nat)
  | _, [] => []
  | first, m :: ms => (m.owner, first + m.records.length - 1) :: commitLsns (first + m.records.length) ms

theorem owners_commitLsns (first : Nat) (ms : List Member) :
    (commitLsns first ms).map (·.1) = ms.map (·.owner) := by
  induction ms generalizing first with
  | nil => rfl
  | cons m ms ih => simp [commitLsns, ih]

theorem batchRecords_cons (m : Member) (ms : List Member) :
    (batchRecords (m :: ms)).length = m.records.length + (batchRecords ms).length := by
  simp [batchRecords]

theorem commitLsns_bounds {first : Nat} {ms : List Member} : ∀ p ∈ commitLsns first ms,
    first ≤ p.2 ∧ p.2 < first + (batchRecords ms).length := by
  induction ms generalizing first with
  | nil => simp [commitLsns]
  | cons m ms ih =>
    have hlen : 0 < m.records.length := by simp [Member.records]
    intro p hp
    rw [batchRecords_cons]
    rcases List.mem_cons.1 hp with rfl | hp
    · dsimp only
      omega
    · obtain ⟨h₁, h₂⟩ := ih p hp
      omega

theorem publishMembers_eq (s : Store) (first : Nat) (ms : List Member) :
    Store.SameButIndexes (s.mapRows (·.finalizeAll (commitLsns first ms))) (publishMembers s first ms) := by
  induction ms generalizing s first with
  | nil => exact ⟨(AList.mapVals_id fun _ _ _ => rfl).symm, rfl, rfl⟩
  | cons m ms ih =>
    have hhead := (Store.finalizeOwner_eq (s := s) m.owner (first + m.records.length - 1)).mapRows
      (·.finalizeAll (commitLsns (first + m.records.length) ms))
    rw [Store.mapRows_mapRows] at hhead
    exact hhead.trans (ih _ _)

theorem discardMembers_eq (s : Store) (ms : List Member) :
    Store.SameButIndexes (s.mapRows (·.rollbackAll (ms.map (·.owner))))
      (ms.foldl (fun s m => s.rollbackOwner m.owner) s) := by
  induction ms generalizing s with
  | nil => exact ⟨(AList.mapVals_id fun _ _ _ => rfl).symm, rfl, rfl⟩
  | cons m ms ih =>
    have hhead := (Store.rollbackOwner_eq (s := s) m.owner).mapRows (·.rollbackAll (ms.map (·.owner)))
    rw [Store.mapRows_mapRows] at hhead
    exact hhead.trans (ih _)

theorem committedLsn_publish (ms : List Member) (first : Nat) :
    (σ.publish ms first).store.committedLsn = max σ.store.committedLsn (lastLsn first ms) := by
  show max (publishMembers σ.store first ms).committedLsn _ = _
  rw [(publishMembers_eq σ.store first ms).committedLsn]
  rfl

theorem committedLsn_discard (ms : List Member) :
    (σ.discard ms).store.committedLsn = σ.store.committedLsn :=
  (discardMembers_eq σ.store ms).committedLsn

theorem committedLsn_runDml (E : Env) (st : DmlStmt) (wc : WriteCtx) (s : Store) :
    (runDml E st wc s).2.store.committedLsn = s.committedLsn := by
  obtain ⟨-, -, ⟨autoinc, hstore⟩, -⟩ := runDml_plan E st wc s
  exact hstore.committedLsn

/-! ## Owners -/

/-- Open transactions, in-flight writers and the lane. -/
structure Owners (σ : Sys) : Prop where
  pos : 0 < σ.nextOwner
  txn : ∀ c t, (σ.conns c).txn = some t →
    0 < t.owner ∧ t.owner < σ.nextOwner ∧ t.snapshot ≤ σ.store.committedLsn
  writer : ∀ c t, (σ.conns c).txn = some t → (t.writer = true ↔ σ.lane = some c)
  reader : ∀ c t, (σ.conns c).txn = some t → t.writer = false → t.walOps = []
  lane : ∀ c, σ.lane = some c → ∃ t, (σ.conns c).txn = some t
  apart : ∀ c c' t t', (σ.conns c).txn = some t → (σ.conns c').txn = some t' → t.owner = t'.owner → c = c'
  member : ∀ m ∈ σ.inFlight, 0 < m.owner ∧ m.owner < σ.nextOwner
  fresh : ∀ c t, (σ.conns c).txn = some t → ∀ m ∈ σ.inFlight, m.owner ≠ t.owner
  nodup : (σ.inFlight.map (·.owner)).Nodup

theorem Owners.init : Owners Sys.init := by
  refine ⟨by decide, ?_, ?_, ?_, ?_, ?_, ?_, ?_, ?_⟩ <;> simp [Sys.init, inFlight, Flush.members]

/-- A step that keeps the transactions and the order of the writers. -/
theorem Owners.same (h : Owners σ) (hconns : ∀ c, (τ.conns c).txn = (σ.conns c).txn) (hlane : τ.lane = σ.lane)
    (hin : τ.inFlight.Sublist σ.inFlight) (hown : σ.nextOwner ≤ τ.nextOwner)
    (hlsn : σ.store.committedLsn ≤ τ.store.committedLsn) : Owners τ := by
  refine ⟨h.pos.trans_le hown, ?_, ?_, ?_, ?_, ?_, ?_, ?_, ?_⟩
  · intro c t ht
    rw [hconns] at ht
    obtain ⟨h0, hlt, hs⟩ := h.txn c t ht
    exact ⟨h0, hlt.trans_le hown, hs.trans hlsn⟩
  · simp only [hconns, hlane]
    exact h.writer
  · simp only [hconns]
    exact h.reader
  · simp only [hconns, hlane]
    exact h.lane
  · simp only [hconns]
    exact h.apart
  · intro m hm
    obtain ⟨h0, hlt⟩ := h.member m (hin.subset hm)
    exact ⟨h0, hlt.trans_le hown⟩
  · simp only [hconns]
    exact fun c t ht m hm => h.fresh c t ht m (hin.subset hm)
  · exact h.nodup.sublist (hin.map _)

/-- A step in which the transaction of connection `c` goes on as `t'`. -/
theorem Owners.continue (h : Owners σ) {t t' : Txn} {phase : Phase} (ht : (σ.conns c).txn = some t)
    (howner : t'.owner = t.owner) (hsnap : t'.snapshot = t.snapshot)
    (hreader : t'.writer = false → t'.walOps = [])
    (hconns : τ.conns = Function.update σ.conns c ⟨some t', phase⟩) (hin : τ.inFlight = σ.inFlight)
    (hnext : τ.nextOwner = σ.nextOwner) (hlsn : σ.store.committedLsn ≤ τ.store.committedLsn)
    (hwriter : t'.writer = true ↔ τ.lane = some c)
    (hlane : ∀ c', c' ≠ c → (τ.lane = some c' ↔ σ.lane = some c')) : Owners τ := by
  have hself : (τ.conns c).txn = some t' := by simp [hconns]
  have hother : ∀ c', c' ≠ c → (τ.conns c').txn = (σ.conns c').txn := fun c' hne => by simp [hconns, hne]
  refine ⟨hnext ▸ h.pos, ?_, ?_, ?_, ?_, ?_, ?_, ?_, ?_⟩
  · intro c' t₁ ht₁
    by_cases hc : c' = c
    · subst hc
      obtain rfl : t' = t₁ := by simpa [hself] using ht₁
      obtain ⟨h0, hlt, hs⟩ := h.txn c' t ht
      rw [howner, hsnap, hnext]
      exact ⟨h0, hlt, hs.trans hlsn⟩
    · rw [hother c' hc] at ht₁
      obtain ⟨h0, hlt, hs⟩ := h.txn c' t₁ ht₁
      exact ⟨h0, hnext ▸ hlt, hs.trans hlsn⟩
  · intro c' t₁ ht₁
    by_cases hc : c' = c
    · subst hc
      obtain rfl : t' = t₁ := by simpa [hself] using ht₁
      exact hwriter
    · rw [hother c' hc] at ht₁
      rw [hlane c' hc]
      exact h.writer c' t₁ ht₁
  · intro c' t₁ ht₁
    by_cases hc : c' = c
    · subst hc
      obtain rfl : t' = t₁ := by simpa [hself] using ht₁
      exact hreader
    · rw [hother c' hc] at ht₁
      exact h.reader c' t₁ ht₁
  · intro c' hc'
    by_cases hc : c' = c
    · subst hc
      exact ⟨t', hself⟩
    · rw [hother c' hc]
      exact h.lane c' ((hlane c' hc).1 hc')
  · -- the owner of `t'` is that of `t`
    have hof : ∀ c₁ t₁, (τ.conns c₁).txn = some t₁ → ∃ t₂, (σ.conns c₁).txn = some t₂ ∧ t₂.owner = t₁.owner := by
      intro c₁ t₁ ht₁
      by_cases hc : c₁ = c
      · subst hc
        obtain rfl : t' = t₁ := by simpa [hself] using ht₁
        exact ⟨t, ht, howner.symm⟩
      · exact ⟨t₁, by rwa [← hother c₁ hc], rfl⟩
    intro c₁ c₂ t₁ t₂ ht₁ ht₂ heq
    obtain ⟨t₁', ht₁', ho₁⟩ := hof c₁ t₁ ht₁
    obtain ⟨t₂', ht₂', ho₂⟩ := hof c₂ t₂ ht₂
    exact h.apart c₁ c₂ t₁' t₂' ht₁' ht₂' (by rw [ho₁, ho₂, heq])
  · rw [hin, hnext]
    exact h.member
  · intro c' t₁ ht₁
    rw [hin]
    by_cases hc : c' = c
    · subst hc
      obtain rfl : t' = t₁ := by simpa [hself] using ht₁
      rw [howner]
      exact h.fresh c' t ht
    · rw [hother c' hc] at ht₁
      exact h.fresh c' t₁ ht₁
  · rw [hin]
    exact h.nodup

/-- A step in which connection `c` ends its transaction, which may join the
writers in flight. -/
theorem Owners.finish (h : Owners σ) {t : Txn} {phase : Phase} (m? : Option Member)
    (ht : (σ.conns c).txn = some t) (hconns : τ.conns = Function.update σ.conns c ⟨none, phase⟩)
    (hin : τ.inFlight = σ.inFlight ++ m?.toList) (hm : ∀ m ∈ m?, m.owner = t.owner)
    (hnext : τ.nextOwner = σ.nextOwner) (hlsn : τ.store.committedLsn = σ.store.committedLsn)
    (hlane : τ.lane = if t.writer then none else σ.lane) : Owners τ := by
  have hself : (τ.conns c).txn = none := by simp [hconns]
  have hother : ∀ c' t', (τ.conns c').txn = some t' → c' ≠ c ∧ (σ.conns c').txn = some t' := by
    intro c' t' ht'
    have hne : c' ≠ c := by
      rintro rfl
      simp [hself] at ht'
    refine ⟨hne, ?_⟩
    simpa [hconns, hne] using ht'
  have hlane' : ∀ c', c' ≠ c → (τ.lane = some c' ↔ σ.lane = some c') := by
    intro c' hne
    rw [hlane]
    split
    · next hw =>
      rw [(h.writer c t ht).1 hw]
      simpa using Ne.symm hne
    · rfl
  refine ⟨hnext ▸ h.pos, ?_, ?_, ?_, ?_, ?_, ?_, ?_, ?_⟩
  · intro c' t' ht'
    rw [hnext, hlsn]
    exact h.txn c' t' (hother c' t' ht').2
  · intro c' t' ht'
    obtain ⟨hne, ht'⟩ := hother c' t' ht'
    rw [hlane' c' hne]
    exact h.writer c' t' ht'
  · intro c' t' ht'
    exact h.reader c' t' (hother c' t' ht').2
  · intro c' hc'
    by_cases hc : c' = c
    · subst hc
      rw [hlane] at hc'
      split at hc'
      · simp at hc'
      · next hw => exact absurd ((h.writer c' t ht).2 hc') hw
    · obtain ⟨t', ht'⟩ := h.lane c' ((hlane' c' hc).1 hc')
      exact ⟨t', by simpa [hconns, hc] using ht'⟩
  · intro c₁ c₂ t₁ t₂ ht₁ ht₂
    exact h.apart c₁ c₂ t₁ t₂ (hother c₁ t₁ ht₁).2 (hother c₂ t₂ ht₂).2
  · intro m hmem
    rw [hin] at hmem
    rw [hnext]
    rcases List.mem_append.1 hmem with hmem | hmem
    · exact h.member m hmem
    · rw [hm m (by simpa using hmem)]
      obtain ⟨h0, hlt, -⟩ := h.txn c t ht
      exact ⟨h0, hlt⟩
  · intro c' t' ht' m hmem heq
    obtain ⟨hne, ht'⟩ := hother c' t' ht'
    rw [hin] at hmem
    rcases List.mem_append.1 hmem with hmem | hmem
    · exact h.fresh c' t' ht' m hmem heq
    · rw [hm m (by simpa using hmem)] at heq
      exact hne (h.apart c c' t t' ht ht' heq).symm
  · rw [hin, List.map_append, List.nodup_append]
    refine ⟨h.nodup, by cases m? <;> simp, ?_⟩
    rintro a ha b hb rfl
    obtain ⟨m, hmem, rfl⟩ := List.mem_map.1 ha
    obtain ⟨m', hmem', heq⟩ := List.mem_map.1 hb
    rw [hm m' (by simpa using hmem')] at heq
    exact h.fresh c t ht m hmem heq.symm

/-- A connection opens a transaction under a fresh owner id. -/
theorem Owners.open (h : Owners σ) {phase : Phase} (hnone : (σ.conns c).txn = none) :
    Owners (σ.openTxn c phase) := by
  have hself : ((σ.openTxn c phase).conns c).txn = some ⟨σ.store.committedLsn, false, [], σ.nextOwner, []⟩ := by
    simp [openTxn, setConn]
  have hcases : ∀ c' t', ((σ.openTxn c phase).conns c').txn = some t' →
      (c' = c ∧ t' = ⟨σ.store.committedLsn, false, [], σ.nextOwner, []⟩) ∨
      (c' ≠ c ∧ (σ.conns c').txn = some t') := by
    intro c' t' ht'
    by_cases hc : c' = c
    · subst hc
      exact .inl ⟨rfl, by simpa [hself] using ht'.symm⟩
    · exact .inr ⟨hc, by simpa [openTxn, setConn, hc] using ht'⟩
  refine ⟨Nat.succ_pos _, ?_, ?_, ?_, ?_, ?_, ?_, ?_, h.nodup⟩
  · intro c' t' ht'
    rcases hcases c' t' ht' with ⟨-, rfl⟩ | ⟨-, ht'⟩
    · exact ⟨h.pos, Nat.lt_succ_self _, le_rfl⟩
    · obtain ⟨h0, hlt, hs⟩ := h.txn c' t' ht'
      exact ⟨h0, Nat.lt_succ_of_lt hlt, hs⟩
  · intro c' t' ht'
    rcases hcases c' t' ht' with ⟨rfl, rfl⟩ | ⟨-, ht'⟩
    · simp only [Bool.false_eq_true, false_iff]
      intro hl
      obtain ⟨t, ht⟩ := h.lane c' hl
      simp [hnone] at ht
    · exact h.writer c' t' ht'
  · intro c' t' ht'
    rcases hcases c' t' ht' with ⟨-, rfl⟩ | ⟨-, ht'⟩
    · exact fun _ => rfl
    · exact h.reader c' t' ht'
  · intro c' hc'
    obtain ⟨t, ht⟩ := h.lane c' hc'
    have hne : c' ≠ c := by
      rintro rfl
      simp [hnone] at ht
    exact ⟨t, by simpa [openTxn, setConn, hne] using ht⟩
  · intro c₁ c₂ t₁ t₂ ht₁ ht₂ heq
    rcases hcases c₁ t₁ ht₁ with ⟨hc₁, hnew₁⟩ | ⟨-, hold₁⟩
    · rcases hcases c₂ t₂ ht₂ with ⟨hc₂, -⟩ | ⟨-, hold₂⟩
      · rw [hc₁, hc₂]
      · have hlt := (h.txn c₂ t₂ hold₂).2.1
        rw [hnew₁] at heq
        exact absurd heq hlt.ne'
    · rcases hcases c₂ t₂ ht₂ with ⟨-, hnew₂⟩ | ⟨-, hold₂⟩
      · have hlt := (h.txn c₁ t₁ hold₁).2.1
        rw [hnew₂] at heq
        exact absurd heq hlt.ne
      · exact h.apart c₁ c₂ t₁ t₂ hold₁ hold₂ heq
  · intro m hm
    obtain ⟨h0, hlt⟩ := h.member m hm
    exact ⟨h0, Nat.lt_succ_of_lt hlt⟩
  · intro c' t' ht' m hm
    rcases hcases c' t' ht' with ⟨-, rfl⟩ | ⟨-, ht'⟩
    · exact (h.member m hm).2.ne
    · exact h.fresh c' t' ht' m hm

/-- A statement that holds the lane or takes it. -/
theorem Owners.write (h : Owners σ) {t t' : Txn} {phase : Phase} {s : Store} (ht : (σ.conns c).txn = some t)
    (hlane : t.writer = true ∨ σ.lane = none) (howner : t'.owner = t.owner) (hsnap : t'.snapshot = t.snapshot)
    (hwriter : t'.writer = true) (hlsn : s.committedLsn = σ.store.committedLsn) :
    Owners (setConn { σ with store := s, lane := some c } c ⟨some t', phase⟩) := by
  refine h.continue ht howner hsnap (by simp [hwriter]) rfl rfl rfl hlsn.ge ?_ ?_
  · exact iff_of_true hwriter rfl
  · intro c' hne
    refine iff_of_false (by simpa [setConn] using Ne.symm hne) fun hl => ?_
    rcases hlane with hw | hnone
    · exact hne (Option.some.inj (hl.symm.trans ((h.writer c t ht).1 hw)))
    · simp [hnone] at hl

/-- A change to a transaction that leaves the lane as it is. -/
theorem Owners.edit (h : Owners σ) {t t' : Txn} {phase : Phase} {s : Store} (ht : (σ.conns c).txn = some t)
    (howner : t'.owner = t.owner) (hsnap : t'.snapshot = t.snapshot) (hwriter : t'.writer = t.writer)
    (hops : t.walOps = [] → t'.walOps = []) (hlsn : s.committedLsn = σ.store.committedLsn) :
    Owners (setConn { σ with store := s } c ⟨some t', phase⟩) := by
  refine h.continue ht howner hsnap ?_ rfl rfl rfl hlsn.ge ?_ fun _ _ => Iff.rfl
  · intro hw
    rw [hwriter] at hw
    exact hops (h.reader c t ht hw)
  · rw [hwriter]
    exact h.writer c t ht

theorem inFlight_drain (hflush : σ.flush = .none) :
    ({ σ with queue := (drainBatch σ.queue).2, flush := .drained (drainBatch σ.queue).1 } : Sys).inFlight =
      σ.inFlight := by
  simp [inFlight, Flush.members, hflush, drainBatch_append]

theorem Owners.step {a : Act} (h : Owners σ) (hs : Stepped σ a τ) : Owners τ := by
  cases hs with
  | begin hconn => exact h.open (by rw [hconn])
  | startImplicit hconn => exact h.open (by rw [hconn])
  | @dml c t phase E st params m w hconn hphase hlane hrun =>
    have hw : w.store.committedLsn = σ.store.committedLsn := by
      rw [← committedLsn_runDml E st ⟨t.snapshot, t.owner, params⟩ σ.store, hrun]
    exact h.write (t := t) (by rw [hconn]) hlane rfl rfl rfl hw
  | @dmlFail c t phase E st params e w hconn hphase hlane hrun =>
    have hw : w.store.committedLsn = σ.store.committedLsn := by
      rw [← committedLsn_runDml E st ⟨t.snapshot, t.owner, params⟩ σ.store, hrun]
    exact h.write (t := t) (by rw [hconn]) hlane rfl rfl rfl hw
  | @commitIdle c t phase hconn hwriter =>
    refine h.finish (t := t) none (by rw [hconn]) rfl (by simp) (by simp) rfl rfl ?_
    simp [hwriter, setConn]
  | @commitEmpty c t phase hconn hwriter hops =>
    refine h.finish (t := t) none (by rw [hconn]) rfl (by simp [inFlight, setConn]) (by simp) rfl rfl ?_
    simp [hwriter]
  | @enqueue c t phase hconn hwriter hops =>
    refine h.finish (t := t) (some ⟨t.owner, t.walOps⟩) (by rw [hconn]) rfl
      (by simp [inFlight, setConn]) (by simp) rfl rfl ?_
    simp [hwriter]
  | @rollbackIdle c t phase hconn hwriter =>
    refine h.finish (t := t) none (by rw [hconn]) rfl (by simp) (by simp) rfl rfl ?_
    simp [hwriter, setConn]
  | @rollback c t phase hconn hwriter =>
    refine h.finish (t := t) none (by rw [hconn]) rfl (by simp [inFlight, setConn]) (by simp) rfl
      (Store.rollbackOwner_eq t.owner).committedLsn ?_
    simp [hwriter]
  | @savepoint c t name hconn => exact h.edit (t := t) (by rw [hconn]) rfl rfl rfl id rfl
  | @release c t name i hconn hat => exact h.edit (t := t) (by rw [hconn]) rfl rfl rfl id rfl
  | @rollbackTo c t name i sp hconn hat hsp =>
    refine h.edit (t := t) (by rw [hconn]) rfl rfl rfl (fun hops => by simp [hops]) ?_
    split
    · exact (Store.rollbackToSavepoint_eq t.owner sp.inserted sp.deleted).committedLsn
    · rfl
  | @resume c owner hconn hdone =>
    refine h.same (fun c' => ?_) rfl (List.Sublist.refl _) le_rfl le_rfl
    by_cases hc : c' = c
    · subst hc
      simp [hconn]
    · rw [conns_setConn_ne hc]
  | drain hflush hqueue =>
    exact h.same (fun _ => rfl) rfl (inFlight_drain hflush ▸ List.Sublist.refl _) le_rfl le_rfl
  | append hflush hfirst hlast =>
    exact h.same (fun _ => rfl) rfl (by simp [inFlight, Flush.members, hflush]) le_rfl le_rfl
  | appendFail hflush => exact h.same (fun _ => rfl) rfl (by simp [inFlight, Flush.members, hflush]) le_rfl le_rfl
  | publish hflush =>
    refine h.same (fun _ => rfl) rfl ?_ le_rfl ?_
    · simp [inFlight, Flush.members, Sys.publish]
    · rw [committedLsn_publish]
      exact le_max_left _ _
  | discard hflush =>
    refine h.same (fun _ => rfl) rfl ?_ le_rfl (committedLsn_discard _).ge
    simp [inFlight, Flush.members, Sys.discard]
  | ddlNothing => exact h
  | ddl hlane hflush hqueue hplan hfirst hlast =>
    refine h.same (fun _ => rfl) rfl (List.Sublist.refl _) le_rfl ?_
    rw [(Store.reshapes_applyDdl _ _ _).committedLsn]
    exact le_max_left _ _
  | otherOwner => exact h.same (fun _ => rfl) rfl (List.Sublist.refl _) (Nat.le_succ _) le_rfl

/-! ## Rows -/

/-- LSNs, the rows of every table, and whose stamps they may carry. -/
structure Inv (σ : Sys) : Prop extends Owners σ where
  committed : σ.store.committedLsn < σ.nextLsn
  bound : σ.nextLsn ≤ PENDING
  appended : ∀ ms first, σ.flush = .appended ms first →
    σ.store.committedLsn < first ∧ first + (batchRecords ms).length = σ.nextLsn
  rows : ∀ k t, σ.store.tables.lookup k = some t →
    Mvcc.Rows.WF σ.store.committedLsn t.nextVid t.rows
  drawn : ∀ o, σ.nextOwner ≤ o → ∀ k, Mvcc.Rows.Untouched o (σ.store.rowsAt k)
  unwritten : ∀ c t, (σ.conns c).txn = some t → t.writer = false →
    ∀ k, Mvcc.Rows.Untouched t.owner (σ.store.rowsAt k)

theorem Inv.init : Inv Sys.init := by
  refine ⟨Owners.init, by decide, by decide, ?_, ?_, ?_, ?_⟩
  · simp [Sys.init]
  · simp [Sys.init, Store.empty]
  · intro o _ k r hr
    simp [Sys.init, Store.empty, Store.rowsAt] at hr
  · simp [Sys.init]

theorem Inv.sound (h : Inv σ) (k : String) : Mvcc.Rows.Sound (σ.store.rowsAt k) := by
  cases hk : σ.store.tables.lookup k with
  | none =>
    rw [Store.rowsAt, hk]
    exact ⟨by simp, by simp⟩
  | some t =>
    rw [Store.rowsAt_of_lookup hk]
    exact (h.rows k t hk).sound

theorem Inv.version (h : Inv σ) {k : String} {r : RowVersion} (hr : r ∈ σ.store.rowsAt k) :
    r.WF σ.store.committedLsn := by
  cases hk : σ.store.tables.lookup k with
  | none => simp [Store.rowsAt, hk] at hr
  | some t =>
    rw [Store.rowsAt_of_lookup hk] at hr
    exact (h.rows k t hk).version r hr

theorem Inv.committed_lt (h : Inv σ) : σ.store.committedLsn < PENDING := h.committed.trans_le h.bound

/-- What the statement of an open transaction touches. -/
theorem Inv.dml_allows (h : Inv σ) {t : Txn} (ht : (σ.conns c).txn = some t) (E : Env) (st : DmlStmt)
    (params : List Value) :
    Mvcc.Rows.AllowsAll (fun r => r.Free t.owner ∨ r.Taken t.owner) t.owner
      (σ.store.rowsAt (Store.key st.table)) (dmlOps E st ⟨t.snapshot, t.owner, params⟩ σ.store) := by
  cases hk : σ.store.table st.table with
  | none =>
    rw [dmlOps, dmlPlan_of_none hk]
    trivial
  | some tb =>
    rw [dmlOps_eq hk, Store.rowsAt_of_lookup hk]
    exact dmlPlan_allows E st ⟨t.snapshot, t.owner, params⟩ hk (h.rows _ tb hk) (h.txn c t ht).1.ne'

theorem Inv.dml_admits (h : Inv σ) {t : Txn} (ht : (σ.conns c).txn = some t) {E : Env} {st : DmlStmt}
    {params : List Value} (hs : StealFree E st ⟨t.snapshot, t.owner, params⟩ σ.store) :
    Mvcc.Rows.AdmitsAll t.owner (σ.store.rowsAt (Store.key st.table))
      (dmlOps E st ⟨t.snapshot, t.owner, params⟩ σ.store) := by
  cases hk : σ.store.table st.table with
  | none =>
    rw [dmlOps, dmlPlan_of_none hk]
    trivial
  | some tb =>
    rw [dmlOps_eq hk, Store.rowsAt_of_lookup hk]
    exact dmlPlan_admits hk (h.rows _ tb hk) (h.txn c t ht).1.ne' hs

/-- How a step changes the store. -/
inductive StoreStep (σ : Sys) : Act → Store → Prop where
  | same {a : Act} : StoreStep σ a σ.store
  | dml {c : Nat} {t : Txn} {E : Env} {st : DmlStmt} {params : List Value} (ht : (σ.conns c).txn = some t)
      (hlane : t.writer = true ∨ σ.lane = none) :
      StoreStep σ (.dml c E st params) (runDml E st ⟨t.snapshot, t.owner, params⟩ σ.store).2.store
  | rollback {c : Nat} {t : Txn} (ht : (σ.conns c).txn = some t) (hwriter : t.writer = true) :
      StoreStep σ (.rollback c) (σ.store.rollbackOwner t.owner)
  | rollbackTo {c : Nat} {t : Txn} {name : String} {sp : Savepoint} (ht : (σ.conns c).txn = some t)
      (hwriter : t.writer = true) :
      StoreStep σ (.rollbackTo c name) (σ.store.rollbackToSavepoint t.owner sp.inserted sp.deleted)
  | publish {ms : List Member} {first : Nat} (hflush : σ.flush = .appended ms first) :
      StoreStep σ .publish (σ.publish ms first).store
  | discard {ms : List Member} (hflush : σ.flush = .failed ms) : StoreStep σ .discard (σ.discard ms).store
  | ddl {c : Nat} {E : Env} {st : DdlStmt} {op : WalOp} {first : Nat}
      (hplan : planDdl E σ.store st = .ok (some op)) (hfirst : σ.nextLsn ≤ first) :
      StoreStep σ (.ddl c E st (some first)) { applyDdl E st σ.store op with
        committedLsn := max (applyDdl E st σ.store op).committedLsn (first + 1) }

theorem storeStep_of_stepped {a : Act} (hs : Stepped σ a τ) : StoreStep σ a τ.store := by
  cases hs with
  | @dml c t phase E st params m w hconn hphase hlane hrun =>
    have h := @StoreStep.dml σ c t E st params (by rw [hconn]) hlane
    rw [hrun] at h
    exact h
  | @dmlFail c t phase E st params e w hconn hphase hlane hrun =>
    have h := @StoreStep.dml σ c t E st params (by rw [hconn]) hlane
    rw [hrun] at h
    exact h
  | rollback hconn hwriter => exact .rollback (by rw [hconn]) hwriter
  | @rollbackTo c t name i sp hconn hat hsp =>
    show StoreStep σ _ (if t.writer then _ else _)
    split
    · next hw => exact .rollbackTo (by rw [hconn]) hw
    · exact .same
  | publish hflush => exact .publish hflush
  | discard hflush => exact .discard hflush
  | ddl hlane hflush hqueue hplan hfirst hlast => exact .ddl hplan hfirst
  | _ => exact .same

theorem publish_eq (ms : List Member) (first : Nat) (k : String) :
    (σ.publish ms first).store.tables.lookup k =
      (σ.store.tables.lookup k).map fun t => { t with rows := t.rows.finalizeAll (commitLsns first ms) } := by
  show (publishMembers σ.store first ms).tables.lookup k = _
  rw [(publishMembers_eq σ.store first ms).tables]
  exact Store.lookup_mapRows _ k

theorem rowsAt_publish (ms : List Member) (first : Nat) (k : String) :
    (σ.publish ms first).store.rowsAt k = (σ.store.rowsAt k).finalizeAll (commitLsns first ms) := by
  simp only [Store.rowsAt, publish_eq]
  cases σ.store.tables.lookup k with
  | none =>
    generalize commitLsns first ms = commits
    induction commits with
    | nil => rfl
    | cons p commits ih => exact ih
  | some t => rfl

theorem rowsAt_discard (ms : List Member) (k : String) :
    (σ.discard ms).store.rowsAt k = (σ.store.rowsAt k).rollbackAll (ms.map (·.owner)) := by
  have h := (discardMembers_eq σ.store ms).rowsAt k
  rw [Store.rowsAt_mapRows] at h
  · exact h
  · generalize ms.map (·.owner) = owners
    induction owners with
    | nil => rfl
    | cons o owners ih => exact ih

/-- Stamps of an owner appear only through its own statements. -/
theorem StoreStep.untouched {a : Act} {s : Store} {o : Nat} (hs : StoreStep σ a s) (ho : o ≠ 0)
    (hnot : ∀ c E st params t, a = .dml c E st params → (σ.conns c).txn = some t → t.owner ≠ o)
    (h : ∀ k, Mvcc.Rows.Untouched o (σ.store.rowsAt k)) (k : String) : Mvcc.Rows.Untouched o (s.rowsAt k) := by
  cases hs with
  | same => exact h k
  | @dml c t E st params ht hlane =>
    rw [runDml_rowsAt]
    split
    · exact Mvcc.Rows.untouched_pendAll (h k) (hnot c E st params t rfl ht).symm
    · exact h k
  | rollback ht hwriter =>
    rw [Store.rowsAt_rollbackOwner]
    exact Mvcc.Rows.untouched_rollback (h k) ho
  | rollbackTo ht hwriter =>
    rw [Store.rowsAt_rollbackToSavepoint]
    exact Mvcc.Rows.untouched_rollbackTo (h k) ho
  | publish hflush =>
    rw [rowsAt_publish]
    exact Mvcc.Rows.untouched_finalizeAll (h k) ho
  | discard hflush =>
    rw [rowsAt_discard]
    exact Mvcc.Rows.untouched_rollbackAll (h k) ho
  | @ddl c E st op first hplan hfirst =>
    intro r hr
    simp only [Store.rowsAt] at hr
    cases hk : (applyDdl E st σ.store op).tables.lookup k with
    | none => simp [hk] at hr
    | some t' =>
      rw [hk] at hr
      rcases (Store.reshapes_applyDdl E st op).tables k t' hk with ⟨hnil, -⟩ | ⟨k₀, t, ht, -, f, hrows⟩
      · simp [hnil] at hr
      · simp only [Option.elim_some, hrows] at hr
        obtain ⟨r', hr', rfl⟩ := List.mem_map.1 hr
        exact h k₀ r' (by rwa [Store.rowsAt_of_lookup ht])

theorem wf_reshaped {top : Nat} {t t' : Table} (h : Mvcc.Rows.WF top t.nextVid t.rows)
    (hr : Store.Reshaped t t') : Mvcc.Rows.WF top t'.nextVid t'.rows := by
  obtain ⟨hvid, f, hrows⟩ := hr
  rw [hvid, hrows]
  exact h.map (fun _ => rfl) le_rfl fun r hr => ⟨(h.version r hr).create, (h.version r hr).delete,
    (h.version r hr).pending, (h.version r hr).owner⟩

/-- The rows stay well formed under the published LSN. -/
theorem StoreStep.rows {a : Act} {s : Store} (hinv : Inv σ) (hs : StoreStep σ a s) {k : String} {t' : Table}
    (ht' : s.tables.lookup k = some t') : Mvcc.Rows.WF s.committedLsn t'.nextVid t'.rows := by
  cases hs with
  | same => exact hinv.rows k t' ht'
  | @dml c t E st params ht hlane =>
    rw [committedLsn_runDml]
    obtain ⟨autoinc, hlookup⟩ := runDml_lookup E st ⟨t.snapshot, t.owner, params⟩ σ.store
    rw [hlookup] at ht'
    obtain ⟨t₀, ht₀, rfl⟩ := Option.map_eq_some_iff.1 ht'
    split
    · exact wf_pendAll_opsFrom (hinv.rows k t₀ ht₀) (hinv.txn c t ht).1.ne'
    · exact hinv.rows k t₀ ht₀
  | @rollback c t ht hwriter =>
    have heq := Store.rollbackOwner_eq (s := σ.store) t.owner
    rw [heq.tables, Store.lookup_mapRows] at ht'
    obtain ⟨t₀, ht₀, rfl⟩ := Option.map_eq_some_iff.1 ht'
    rw [heq.committedLsn]
    exact (hinv.rows k t₀ ht₀).rollback
  | @rollbackTo c t name sp ht hwriter =>
    have heq := Store.rollbackToSavepoint_eq (s := σ.store) t.owner sp.inserted sp.deleted
    rw [heq.tables, Store.lookup_mapRows] at ht'
    obtain ⟨t₀, ht₀, rfl⟩ := Option.map_eq_some_iff.1 ht'
    rw [heq.committedLsn]
    exact (hinv.rows k t₀ ht₀).rollbackTo _ _
  | @publish ms first hflush =>
    rw [publish_eq] at ht'
    obtain ⟨t₀, ht₀, rfl⟩ := Option.map_eq_some_iff.1 ht'
    obtain ⟨hfirst, hnext⟩ := hinv.appended ms first hflush
    have hbound := hinv.bound
    have hcommitted := hinv.committed
    rw [committedLsn_publish, lastLsn]
    refine (hinv.rows k t₀ ht₀).finalizeAll (le_max_left _ _) (fun p hp => ?_) (by omega)
    have := commitLsns_bounds p hp
    omega
  | @discard ms hflush =>
    have heq := discardMembers_eq σ.store ms
    have hlookup : (σ.discard ms).store.tables.lookup k = _ := congrArg (AList.lookup k) heq.tables
    rw [hlookup, Store.lookup_mapRows] at ht'
    obtain ⟨t₀, ht₀, rfl⟩ := Option.map_eq_some_iff.1 ht'
    rw [committedLsn_discard]
    exact (hinv.rows k t₀ ht₀).rollbackAll
  | @ddl c E st op first hplan hfirst =>
    have hre := Store.reshapes_applyDdl (s := σ.store) E st op
    have hle : σ.store.committedLsn ≤ max (applyDdl E st σ.store op).committedLsn (first + 1) := by
      rw [hre.committedLsn]
      exact le_max_left _ _
    rcases hre.tables k t' ht' with ⟨hnil, hvid⟩ | ⟨k₀, t, ht, hresh⟩
    · rw [hnil]
      exact .nil
    · exact (wf_reshaped (hinv.rows k₀ t ht) hresh).mono hle

/-! ## Transactions -/

/-- Where the transaction of a connection after a step comes from. -/
inductive TxnStep (σ : Sys) (a : Act) (c : Nat) (s : Store) : Txn → Prop where
  | opened : TxnStep σ a c s ⟨σ.store.committedLsn, false, [], σ.nextOwner, []⟩
  | dml {t : Txn} {E : Env} {st : DmlStmt} {params : List Value} {m : Mutation} {w : Write}
      (ht : (σ.conns c).txn = some t) (hact : a = .dml c E st params)
      (hrun : runDml E st ⟨t.snapshot, t.owner, params⟩ σ.store = (.ok m, w)) (hstore : s = w.store) :
      TxnStep σ a c s { t with writer := true, walOps := t.walOps ++ m.wal }
  | dmlFail {t : Txn} {E : Env} {st : DmlStmt} {params : List Value} {e : EngineError} {w : Write}
      (ht : (σ.conns c).txn = some t) (hact : a = .dml c E st params)
      (hrun : runDml E st ⟨t.snapshot, t.owner, params⟩ σ.store = (.error (.err e), w)) (hstore : s = w.store) :
      TxnStep σ a c s { t with writer := true }
  | savepoint {t : Txn} {name : String} (ht : (σ.conns c).txn = some t) (hact : a = .savepoint c name)
      (hstore : s = σ.store) :
      TxnStep σ a c s { t with savepoints := t.savepoints ++
        [⟨name, (σ.store.pendingSnapshot t.owner).1, (σ.store.pendingSnapshot t.owner).2, t.walOps.length⟩] }
  | release {t : Txn} {name : String} {i : Nat} (ht : (σ.conns c).txn = some t) (hact : a = .release c name)
      (hstore : s = σ.store) :
      TxnStep σ a c s { t with savepoints := t.savepoints.take i }
  | rollbackTo {t : Txn} {name : String} {i : Nat} {sp : Savepoint} (ht : (σ.conns c).txn = some t)
      (hact : a = .rollbackTo c name) (hat : savepointAt t name = some i) (hsp : t.savepoints[i]? = some sp)
      (hstore : s = if t.writer then σ.store.rollbackToSavepoint t.owner sp.inserted sp.deleted else σ.store) :
      TxnStep σ a c s { t with walOps := t.walOps.take sp.walLen, savepoints := t.savepoints.take (i + 1) }
  | kept {t : Txn} (ht : (σ.conns c).txn = some t) (hact : a.actor ≠ some c) : TxnStep σ a c s t

theorem txnStep_setConn {a : Act} {c c' : Nat} {t : Txn} (s : Store) (lane : Option Nat) (queue : List Member)
    {o? : Option Txn} {phase : Phase}
    (ht : (({ setConn { σ with store := s } c' ⟨o?, phase⟩ with lane := lane, queue := queue } : Sys).conns c).txn =
      some t)
    (hself : ∀ t', o? = some t' → TxnStep σ a c' s t') (hact : ∀ c₁, a.actor = some c₁ → c₁ = c') :
    TxnStep σ a c s t := by
  by_cases hc : c = c'
  · subst hc
    have : o? = some t := by simpa [setConn] using ht
    exact hself t this
  · have ht' : (σ.conns c).txn = some t := by simpa [setConn, hc] using ht
    exact .kept ht' fun hactor => hc (hact c hactor)

theorem txnStep_of_stepped {a : Act} {c : Nat} {t : Txn} (hs : Stepped σ a τ) (ht : (τ.conns c).txn = some t) :
    TxnStep σ a c τ.store t := by
  cases hs with
  | begin hconn =>
    refine txnStep_setConn σ.store σ.lane σ.queue ht (fun t' h => ?_) (by simp [Act.actor])
    exact Option.some.inj h ▸ .opened
  | startImplicit hconn =>
    refine txnStep_setConn σ.store σ.lane σ.queue ht (fun t' h => ?_) (by simp [Act.actor])
    exact Option.some.inj h ▸ .opened
  | @dml c₁ t₁ phase E st params m w hconn hphase hlane hrun =>
    refine txnStep_setConn w.store _ _ ht (fun t' h => ?_)
      (by simp [Act.actor, eq_comm])
    exact Option.some.inj h ▸ .dml (by rw [hconn]) rfl hrun rfl
  | @dmlFail c₁ t₁ phase E st params e w hconn hphase hlane hrun =>
    refine txnStep_setConn w.store _ _ ht (fun t' h => ?_)
      (by simp [Act.actor, eq_comm])
    exact Option.some.inj h ▸ .dmlFail (t := t₁) (by rw [hconn]) rfl hrun rfl
  | commitIdle hconn hwriter =>
    exact txnStep_setConn σ.store _ _ ht (by simp) (by simp [Act.actor])
  | commitEmpty hconn hwriter hops =>
    exact txnStep_setConn σ.store _ _ ht (by simp) (by simp [Act.actor])
  | @enqueue c₁ t₁ phase hconn hwriter hops =>
    exact txnStep_setConn σ.store none _ ht
      (by simp) (by simp [Act.actor])
  | rollbackIdle hconn hwriter =>
    exact txnStep_setConn σ.store _ _ ht (by simp)
      (by simp [Act.actor, eq_comm])
  | @rollback c₁ t₁ phase hconn hwriter =>
    exact txnStep_setConn (σ.store.rollbackOwner t₁.owner) _ _ ht (by simp)
      (by simp [Act.actor, eq_comm])
  | @savepoint c₁ t₁ name hconn =>
    refine txnStep_setConn σ.store _ _ ht (fun t' h => ?_) (by simp [Act.actor])
    exact Option.some.inj h ▸ .savepoint (by rw [hconn]) rfl rfl
  | @release c₁ t₁ name i hconn hat =>
    refine txnStep_setConn σ.store _ _ ht (fun t' h => ?_) (by simp [Act.actor])
    exact Option.some.inj h ▸ .release (by rw [hconn]) rfl rfl
  | @rollbackTo c₁ t₁ name i sp hconn hat hsp =>
    refine txnStep_setConn (if t₁.writer then σ.store.rollbackToSavepoint t₁.owner sp.inserted sp.deleted
      else σ.store) _ _ ht (fun t' h => ?_) (by simp [Act.actor, eq_comm])
    exact Option.some.inj h ▸ .rollbackTo (by rw [hconn]) rfl hat hsp rfl
  | resume hconn hdone =>
    exact txnStep_setConn σ.store _ _ ht (by simp) (by simp [Act.actor])
  | drain | append | appendFail | publish | discard | ddlNothing | ddl | otherOwner =>
    exact .kept ht (by simp [Act.actor])

/-! ## Every step, every run -/

theorem nextOwner_mono {a : Act} (hs : Stepped σ a τ) : σ.nextOwner ≤ τ.nextOwner := by
  cases hs with
  | begin | startImplicit | otherOwner => exact Nat.le_succ _
  | _ => exact le_rfl

theorem Inv.lsns {a : Act} (h : Inv σ) (hs : Stepped σ a τ) :
    τ.store.committedLsn < τ.nextLsn ∧ τ.nextLsn ≤ PENDING ∧
      ∀ ms first, τ.flush = .appended ms first →
        τ.store.committedLsn < first ∧ first + (batchRecords ms).length = τ.nextLsn := by
  have hcommitted := h.committed
  have hbound := h.bound
  cases hs with
  | @dml c t phase E st params m w hconn hphase hlane hrun =>
    have hw : w.store.committedLsn = σ.store.committedLsn := by
      rw [← committedLsn_runDml E st ⟨t.snapshot, t.owner, params⟩ σ.store, hrun]
    rw [store_setConn]
    dsimp only
    rw [hw]
    exact ⟨hcommitted, hbound, h.appended⟩
  | @dmlFail c t phase E st params e w hconn hphase hlane hrun =>
    have hw : w.store.committedLsn = σ.store.committedLsn := by
      rw [← committedLsn_runDml E st ⟨t.snapshot, t.owner, params⟩ σ.store, hrun]
    rw [store_setConn]
    dsimp only
    rw [hw]
    exact ⟨hcommitted, hbound, h.appended⟩
  | @rollback c t phase hconn hwriter =>
    dsimp only
    rw [(Store.rollbackOwner_eq t.owner).committedLsn]
    exact ⟨hcommitted, hbound, h.appended⟩
  | @rollbackTo c t name i sp hconn hat hsp =>
    have hstore : (if t.writer then σ.store.rollbackToSavepoint t.owner sp.inserted sp.deleted
        else σ.store).committedLsn = σ.store.committedLsn := by
      split
      · exact (Store.rollbackToSavepoint_eq t.owner sp.inserted sp.deleted).committedLsn
      · rfl
    rw [store_setConn]
    dsimp only
    rw [hstore]
    exact ⟨hcommitted, hbound, h.appended⟩
  | drain | appendFail => exact ⟨hcommitted, hbound, by simp⟩
  | @append first ms hflush hfirst hlast =>
    dsimp only
    refine ⟨by omega, hlast, fun ms' first' heq => ?_⟩
    obtain ⟨rfl, rfl⟩ := Flush.appended.inj heq
    exact ⟨by omega, rfl⟩
  | @publish ms first hflush =>
    obtain ⟨hfirst, hnext⟩ := h.appended ms first hflush
    rw [committedLsn_publish, lastLsn]
    exact ⟨by simp only [Sys.publish]; omega, hbound, by simp [Sys.publish]⟩
  | discard hflush =>
    rw [committedLsn_discard]
    exact ⟨hcommitted, hbound, by simp [Sys.discard]⟩
  | @ddl c E st op first hlane hflush hqueue hplan hfirst hlast =>
    dsimp only
    rw [(Store.reshapes_applyDdl E st op).committedLsn]
    exact ⟨by omega, hlast, by simp [hflush]⟩
  | _ => exact ⟨hcommitted, hbound, h.appended⟩

/-- **One step keeps the invariant.** -/
theorem Inv.step {a : Act} (h : Inv σ) (hs : Stepped σ a τ) : Inv τ := by
  have hstore := storeStep_of_stepped hs
  obtain ⟨hcommitted, hbound, happended⟩ := h.lsns hs
  refine ⟨h.toOwners.step hs, hcommitted, hbound, happended, fun k t ht => hstore.rows h ht, ?_, ?_⟩
  · intro o ho
    have ho' : σ.nextOwner ≤ o := (nextOwner_mono hs).trans ho
    refine hstore.untouched (h.pos.trans_le ho').ne' ?_ (h.drawn o ho')
    rintro c E st params t - ht
    exact ((h.txn c t ht).2.1.trans_le ho').ne
  · intro c t ht hreader
    -- a transaction that was open and has not written: no statement was its own
    have hkeep : ∀ t₀, (σ.conns c).txn = some t₀ → t₀.writer = false →
        (∀ E st params, a ≠ .dml c E st params) → ∀ k, Mvcc.Rows.Untouched t₀.owner (τ.store.rowsAt k) := by
      intro t₀ ht₀ hw hact
      refine hstore.untouched (h.txn c t₀ ht₀).1.ne' ?_ (h.unwritten c t₀ ht₀ hw)
      rintro c' E st params t' rfl ht' heq
      obtain rfl := h.apart c' c t' t₀ ht' ht₀ heq
      exact hact E st params rfl
    cases txnStep_of_stepped hs ht with
    | opened =>
      refine hstore.untouched h.pos.ne' ?_ (h.drawn _ le_rfl)
      rintro c' E st params t' - ht'
      exact (h.txn c' t' ht').2.1.ne
    | dml | dmlFail => simp at hreader
    | @savepoint t₀ _ ht₀ hact => exact hkeep t₀ ht₀ hreader (by simp [hact])
    | @release t₀ _ _ ht₀ hact => exact hkeep t₀ ht₀ hreader (by simp [hact])
    | @rollbackTo t₀ _ _ _ ht₀ hact => exact hkeep t₀ ht₀ hreader (by simp [hact])
    | kept ht₀ hact =>
      refine hkeep _ ht₀ hreader ?_
      rintro E st params rfl
      exact hact rfl

/-- **Every reachable system satisfies the invariant.** -/
theorem Inv.run {acts : List Act} (h : Inv σ) (hrun : Run σ acts τ) : Inv τ := by
  induction hrun with
  | nil => exact h
  | snoc _ hstep ih => exact ih.step (stepped_of_step hstep)

theorem Inv.runWhere {P : Sys → Act → Prop} (h : Inv σ) (hrun : RunWhere P σ τ) : Inv τ := by
  obtain ⟨acts, hacts⟩ := hrun.run
  exact h.run hacts

end Sys

end Twill
