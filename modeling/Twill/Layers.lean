/-
How a step changes the in-flight writers.

`LayerStep` follows the store and the layers of writers together: a statement
grows the topmost layer, `ROLLBACK TO` cuts it back, `ROLLBACK` drops it, and a
resolved batch leaves from below. `opsAt` reads a layer's operations table by
table.
-/
import Twill.Invariant
import Twill.Lib.MvccStamps

namespace Twill

open Mvcc (PENDING Op)

/-! ## A layer's changes to one table -/

/-- The row change an operation makes to the table under a key. -/
def WalOp.at (k : String) : WalOp → Option (Op Row)
  | .insert table vid values => if Store.key table = k then some (.insert vid values) else none
  | .delete table vid => if Store.key table = k then some (.delete vid) else none
  | _ => none

def opsAt (k : String) (ops : List WalOp) : List (Op Row) := ops.filterMap (WalOp.at k)

@[simp] theorem opsAt_nil (k : String) : opsAt k [] = [] := rfl

@[simp] theorem opsAt_append (k : String) (ops ops' : List WalOp) :
    opsAt k (ops ++ ops') = opsAt k ops ++ opsAt k ops' := List.filterMap_append

theorem at_toWal (k table : String) (op : Op Row) :
    (toWal table op).at k = if Store.key table = k then some op else none := by
  cases op <;> rfl

theorem opsAt_toWal (k table : String) (ops : List (Op Row)) :
    opsAt k (ops.map (toWal table)) = if k = Store.key table then ops else [] := by
  induction ops with
  | nil => simp
  | cons op ops ih =>
    have hcons : opsAt k ((op :: ops).map (toWal table)) =
        ((toWal table op).at k).toList ++ opsAt k (ops.map (toWal table)) := by
      simp only [opsAt, List.map_cons, List.filterMap_cons]
      cases (toWal table op).at k <;> rfl
    rw [hcons, ih, at_toWal]
    by_cases hk : k = Store.key table
    · simp [hk]
    · simp [hk, Ne.symm hk]

theorem mem_opsAt_take {k : String} {n : Nat} {ops : List WalOp} {op : Op Row} (h : op ∈ opsAt k (ops.take n)) :
    op ∈ opsAt k ops := (List.Sublist.filterMap _ (List.take_sublist n ops)).subset h

theorem runDml_wal {E : Env} {st : DmlStmt} {wc : WriteCtx} {s : Store} {m : Mutation} {w : Write}
    (h : runDml E st wc s = (.ok m, w)) : m.wal = (dmlOps E st wc s).map (toWal st.table) := by
  have hplan := (runDml_plan E st wc s).1
  rw [h, Plan.answer] at hplan
  cases hres : (dmlPlan E st wc s).2 with
  | error e => simp [hres, Except.map] at hplan
  | ok result =>
    rw [hres] at hplan
    rw [Except.ok.inj hplan]
    rfl

namespace Sys

variable {σ τ : Sys}

/-! ## The layers -/

theorem layers_of_writer (h : Owners σ) {c : Nat} {t : Txn} (ht : (σ.conns c).txn = some t)
    (hw : t.writer = true) : σ.layers = σ.inFlight ++ [⟨t.owner, t.walOps⟩] :=
  layers_of_lane ((h.writer c t ht).1 hw) ht

theorem nodup_layers (h : Owners σ) : (σ.layers.map (·.owner)).Nodup := by
  rw [layers, List.map_append, List.nodup_append]
  refine ⟨h.nodup, ?_, ?_⟩
  · cases σ.holder <;> simp
  · intro a ha b hb
    obtain ⟨m, hm, rfl⟩ := List.mem_map.1 ha
    simp only [holder] at hb
    cases hl : σ.lane with
    | none => simp [hl] at hb
    | some c =>
      obtain ⟨t, ht⟩ := h.lane c hl
      obtain rfl : b = t.owner := by simpa [hl, ht, eq_comm] using hb
      exact h.fresh c t ht m hm

theorem owner_pos_of_layers (h : Owners σ) {m : Member} (hm : m ∈ σ.layers) : m.owner ≠ 0 := by
  rcases List.mem_append.1 hm with hm | hm
  · exact (h.member m hm).1.ne'
  · simp only [holder] at hm
    cases hl : σ.lane with
    | none => simp [hl] at hm
    | some c =>
      obtain ⟨t, ht⟩ := h.lane c hl
      obtain rfl : m = ⟨t.owner, t.walOps⟩ := by simpa [hl, ht, eq_comm] using hm
      exact (h.txn c t ht).1.ne'

theorem inFlight_subset_layers : σ.inFlight ⊆ σ.layers := List.subset_append_left _ _

/-- How a step changes the store and the layers of writers. -/
inductive LayerStep (σ : Sys) : Act → Store → List Member → Prop where
  | same {a : Act} (hact : ∀ c E st params, a ≠ .dml c E st params) : LayerStep σ a σ.store σ.layers
  /-- A commit that has nothing to log. -/
  | dropEmpty {c : Nat} {t : Txn} (ht : (σ.conns c).txn = some t) (hwriter : t.writer = true)
      (hops : t.walOps = []) : LayerStep σ (.commit c) σ.store σ.inFlight
  | dml {c : Nat} {t : Txn} {phase : Phase} {E : Env} {st : DmlStmt} {params : List Value} {m : Mutation}
      {w : Write} (hconn : σ.conns c = ⟨some t, phase⟩) (hlane : t.writer = true ∨ σ.lane = none)
      (hrun : runDml E st ⟨t.snapshot, t.owner, params⟩ σ.store = (.ok m, w)) :
      LayerStep σ (.dml c E st params) w.store (σ.inFlight ++ [⟨t.owner, t.walOps ++ m.wal⟩])
  | dmlFail {c : Nat} {t : Txn} {phase : Phase} {E : Env} {st : DmlStmt} {params : List Value}
      {e : EngineError} {w : Write} (hconn : σ.conns c = ⟨some t, phase⟩)
      (hphase : phase = .idle ∨ phase = .starting) (hlane : t.writer = true ∨ σ.lane = none)
      (hrun : runDml E st ⟨t.snapshot, t.owner, params⟩ σ.store = (.error (.err e), w)) :
      LayerStep σ (.dml c E st params) w.store (σ.inFlight ++ [⟨t.owner, t.walOps⟩])
  | rollback {c : Nat} {t : Txn} (ht : (σ.conns c).txn = some t) (hwriter : t.writer = true) :
      LayerStep σ (.rollback c) (σ.store.rollbackOwner t.owner) σ.inFlight
  | rollbackTo {c : Nat} {t : Txn} {name : String} {i : Nat} {sp : Savepoint}
      (hconn : σ.conns c = ⟨some t, .idle⟩) (hwriter : t.writer = true) (hat : savepointAt t name = some i)
      (hsp : t.savepoints[i]? = some sp) :
      LayerStep σ (.rollbackTo c name) (σ.store.rollbackToSavepoint t.owner sp.inserted sp.deleted)
        (σ.inFlight ++ [⟨t.owner, t.walOps.take sp.walLen⟩])
  | publish {ms rest : List Member} {first : Nat} (hflush : σ.flush = .appended ms first)
      (hlayers : σ.layers = ms ++ rest) : LayerStep σ .publish (σ.publish ms first).store rest
  | discard {ms rest : List Member} (hflush : σ.flush = .failed ms) (hlayers : σ.layers = ms ++ rest) :
      LayerStep σ .discard (σ.discard ms).store rest
  | ddl {c : Nat} {E : Env} {st : DdlStmt} {op : WalOp} {first : Nat} (hlayers : σ.layers = [])
      (hplan : planDdl E σ.store st = .ok (some op)) (hfirst : σ.nextLsn ≤ first) :
      LayerStep σ (.ddl c E st (some first)) { applyDdl E st σ.store op with
        committedLsn := max (applyDdl E st σ.store op).committedLsn (first + 1) } []

theorem layerStep_of_stepped {a : Act} (h : Owners σ) (hs : Stepped σ a τ) :
    LayerStep σ a τ.store τ.layers := by
  -- a step that keeps the store and the layers
  have hsame : τ.store = σ.store → τ.layers = σ.layers → (∀ c E st params, a ≠ .dml c E st params) →
      LayerStep σ a τ.store τ.layers := fun hstore hlayers hact => hstore ▸ hlayers ▸ .same hact
  -- the lane holder is not a connection without a transaction or a reader
  have hnot : ∀ c, (σ.conns c).txn = none → σ.lane ≠ some c := by
    intro c hc hl
    obtain ⟨t, ht⟩ := h.lane c hl
    simp [hc] at ht
  have hreader : ∀ c t, (σ.conns c).txn = some t → t.writer = false → σ.lane ≠ some c := by
    intro c t ht hw hl
    simp [(h.writer c t ht).2 hl] at hw
  -- the layers when only connection `c`, which does not hold the lane, changes
  have hother : ∀ (c : Nat) (conn : Connection) (n : Nat), σ.lane ≠ some c →
      ({ σ.setConn c conn with nextOwner := n } : Sys).layers = σ.layers := by
    intro c conn n hl
    refine layers_congr rfl rfl fun c' hc' => ?_
    have hne : c' ≠ c := by
      rintro rfl
      exact hl hc'
    simp [setConn, hne]
  cases hs with
  | begin hconn => exact hsame rfl (hother _ _ _ (hnot _ (by rw [hconn]))) (by simp)
  | startImplicit hconn => exact hsame rfl (hother _ _ _ (hnot _ (by rw [hconn]))) (by simp)
  | @dml c t phase E st params m w hconn hphase hlane hrun =>
    rw [layers_of_lane (c := c) (t := { t with writer := true, walOps := t.walOps ++ m.wal }) rfl
      (by rw [conns_setConn_self])]
    exact .dml hconn hlane hrun
  | @dmlFail c t phase E st params e w hconn hphase hlane hrun =>
    rw [layers_of_lane (c := c) (t := { t with writer := true }) rfl (by rw [conns_setConn_self])]
    exact .dmlFail (t := t) hconn hphase hlane hrun
  | commitIdle hconn hwriter =>
    exact hsame rfl (hother _ _ σ.nextOwner (hreader _ _ (by rw [hconn]) hwriter)) (by simp)
  | @commitEmpty c t phase hconn hwriter hops =>
    rw [layers_of_lane_none rfl]
    exact .dropEmpty (t := t) (by rw [hconn]) hwriter hops
  | @enqueue c t phase hconn hwriter hops =>
    refine hsame rfl ?_ (by simp)
    rw [layers_of_lane_none rfl, layers_of_writer h (t := t) (by rw [hconn]) hwriter]
    simp [inFlight, setConn]
  | rollbackIdle hconn hwriter =>
    exact hsame rfl (hother _ _ σ.nextOwner (hreader _ _ (by rw [hconn]) hwriter)) (by simp)
  | @rollback c t phase hconn hwriter =>
    rw [layers_of_lane_none rfl]
    exact .rollback (by rw [hconn]) hwriter
  | @savepoint c t name hconn =>
    refine hsame rfl ?_ (by simp)
    by_cases hl : σ.lane = some c
    · simp [layers, holder, setConn, hl, hconn, inFlight]
    · exact hother c _ σ.nextOwner hl
  | @release c t name i hconn hat =>
    refine hsame rfl ?_ (by simp)
    by_cases hl : σ.lane = some c
    · simp [layers, holder, setConn, hl, hconn, inFlight]
    · exact hother c _ σ.nextOwner hl
  | @rollbackTo c t name i sp hconn hat hsp =>
    by_cases hw : t.writer = true
    · have hl := (h.writer c t (by rw [hconn])).1 hw
      have hlayers : ∀ (s : Store) (t' : Txn), (setConn { σ with store := s } c ⟨some t', .idle⟩).layers =
          σ.inFlight ++ [⟨t'.owner, t'.walOps⟩] := fun s t' =>
        layers_of_lane (σ := setConn { σ with store := s } c ⟨some t', .idle⟩) hl (by rw [conns_setConn_self])
      rw [hlayers, store_setConn, if_pos hw]
      exact .rollbackTo hconn hw hat hsp
    · have hw : t.writer = false := by simpa using hw
      refine hsame (by simp [hw]) ?_ (by simp)
      simp only [hw]
      exact hother c _ σ.nextOwner (hreader c t (by rw [hconn]) hw)
  | resume hconn hdone => exact hsame rfl (hother _ _ σ.nextOwner (hnot _ (by rw [hconn]))) (by simp)
  | drain hflush hqueue => exact hsame rfl (layers_congr (inFlight_drain hflush) rfl fun _ _ => rfl) (by simp)
  | append hflush hfirst hlast =>
    exact hsame rfl (layers_congr (by simp [inFlight, Flush.members, hflush]) rfl fun _ _ => rfl) (by simp)
  | appendFail hflush =>
    exact hsame rfl (layers_congr (by simp [inFlight, Flush.members, hflush]) rfl fun _ _ => rfl) (by simp)
  | publish hflush =>
    refine .publish hflush ?_
    simp only [layers, inFlight, hflush, Flush.members, List.append_assoc]
    rfl
  | discard hflush =>
    refine .discard hflush ?_
    simp only [layers, inFlight, hflush, Flush.members, List.append_assoc]
    rfl
  | ddlNothing => exact .same (by simp)
  | ddl hlane hflush hqueue hplan hfirst hlast =>
    have hnil : ∀ υ : Sys, υ.lane = none → υ.flush = .none → υ.queue = [] → υ.layers = [] := by
      intro υ hl hf hq
      simp [layers, holder, inFlight, Flush.members, hl, hf, hq]
    rw [hnil _ (by exact hlane) (by exact hflush) (by exact hqueue)]
    exact .ddl (hnil σ hlane hflush hqueue) hplan hfirst
  | otherOwner => exact hsame rfl rfl (by simp)

end Sys

end Twill
