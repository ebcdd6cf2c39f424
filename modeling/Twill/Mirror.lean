/-
Replay rebuilds the live store.

The log splits into what is published and the records of a batch that is
durable but not yet published. Over the image of the published part the live
store carries the layers of the writers in flight, topped by the layer of the
lane's holder (`Mirrors`). Every step keeps this, so with no writer in flight
the replay of the log is the live store.
-/
import Twill.Replay

namespace Twill

open Mvcc (PENDING Op)
open Mvcc.Rows

/-- Recovery reads the step's DDL statement as its connection did. -/
def DdlReplays (E₀ : Env) (a : Act) : Prop :=
  ∀ c E st outcome, a = .ddl c E st outcome → st.ReplaysAs E₀ E

/-- A step whose effects recovery can rebuild. -/
structure Recoverable (E₀ : Env) (σ : Sys) (a : Act) : Prop where
  stealFree : StealFreeStep σ a
  atomic : AtomicStep σ a
  clean : BacksCleanly σ a
  ddl : DdlReplays E₀ a

namespace Sys

variable {σ τ : Sys} {E₀ : Env} {plog : List WalEntry} {img : Store} {top : List Member}

/-- The records of a batch that is durable but not yet published. -/
def unpublished (σ : Sys) : List WalEntry :=
  match σ.flush with
  | .appended ms first => numberFrom first (batchRecords ms)
  | _ => []

/-- The layer of the lane's holder: what it has logged, or anything while it
undoes a failed autocommit statement. -/
structure Top (σ : Sys) (top : List Member) : Prop where
  free : σ.lane = none → top = []
  held : ∀ c t, σ.lane = some c → (σ.conns c).txn = some t →
    ∃ ops, top = [⟨t.owner, ops⟩] ∧ ((σ.conns c).phase ≠ .undoing → ops = t.walOps)

theorem Top.congr (h : Top σ top) (hlane : τ.lane = σ.lane)
    (hconns : ∀ c, σ.lane = some c → τ.conns c = σ.conns c) : Top τ top := by
  refine ⟨fun hl => h.free (hlane ▸ hl), fun c t hl ht => ?_⟩
  rw [hlane] at hl
  rw [hconns c hl] at ht ⊢
  exact h.held c t hl ht

/-- The log, its published part, the image of that part and the holder's layer. -/
structure Mirrors (E₀ : Env) (σ : Sys) (plog : List WalEntry) (img : Store) (top : List Member) : Prop where
  log : σ.log = plog ++ σ.unpublished
  replayed : image E₀ plog = (img, [])
  topmost : Top σ top
  covers : Covers img σ.store (σ.inFlight ++ top)
  committedLsn : σ.store.committedLsn = img.committedLsn
  batch : σ.flush ≠ .none → σ.flush.members ≠ []

/-- The live store is the image of the published log under the layers in flight. -/
def Mirrored (E₀ : Env) (σ : Sys) : Prop := ∃ plog img top, Mirrors E₀ σ plog img top

theorem Mirrored.init : Mirrored E₀ Sys.init :=
  ⟨[], Store.empty, [], rfl, rfl, ⟨fun _ => rfl, by simp [Sys.init]⟩, Covers.init, rfl, by simp [Sys.init]⟩

/-- A step of a connection other than the holder. -/
theorem Mirrors.aside (h : Mirrors E₀ σ plog img top) {c : Nat} {conn : Connection} {n : Nat}
    (hc : σ.lane ≠ some c) : Mirrored E₀ { σ.setConn c conn with nextOwner := n } := by
  refine ⟨plog, img, top, h.log, h.replayed, h.topmost.congr rfl fun c' hc' => ?_, h.covers, h.committedLsn, h.batch⟩
  have hne : c' ≠ c := by
    rintro rfl
    exact hc hc'
  simp [setConn, hne]

/-- The holder's layer, grown by a statement it is about to run. -/
theorem Mirrors.writing (h : Mirrors E₀ σ plog img top) (hinv : Inv σ) {c : Nat} {t : Txn} {phase : Phase}
    (hconn : σ.conns c = ⟨some t, phase⟩) (hphase : phase ≠ .undoing) (hlane : t.writer = true ∨ σ.lane = none) :
    Covers img σ.store (σ.inFlight ++ [⟨t.owner, t.walOps⟩]) := by
  have ht : (σ.conns c).txn = some t := by rw [hconn]
  cases hw : t.writer with
  | true =>
    obtain ⟨ops, htop, hops⟩ := h.topmost.held c t ((hinv.writer c t ht).1 hw) ht
    rw [← hops (by rw [hconn]; exact hphase), ← htop]
    exact h.covers
  | false =>
    have hl : σ.lane = none := by simpa [hw] using hlane
    rw [hinv.reader c t ht hw]
    have hcovers := h.covers
    rw [h.topmost.free hl, List.append_nil] at hcovers
    exact (Covers.idle_iff (hinv.txn c t ht).1.ne').2 hcovers

/-- A transaction that holds the lane, and its layer. -/
theorem Mirrors.holder (h : Mirrors E₀ σ plog img top) (hinv : Inv σ) {c : Nat} {t : Txn}
    (ht : (σ.conns c).txn = some t) (hw : t.writer = true) :
    ∃ ops, Covers img σ.store (σ.inFlight ++ [⟨t.owner, ops⟩]) ∧ ((σ.conns c).phase ≠ .undoing → ops = t.walOps) := by
  obtain ⟨ops, htop, hops⟩ := h.topmost.held c t ((hinv.writer c t ht).1 hw) ht
  exact ⟨ops, htop ▸ h.covers, hops⟩

/-- The lane changes hands: a transaction takes it or gives it up, the rest of
the system as it was. -/
theorem Mirrors.conn (h : Mirrors E₀ σ plog img top) {s : Store} {c : Nat} {t : Txn} {p : Phase} {ops : List WalOp}
    (hlsn : s.committedLsn = σ.store.committedLsn) (hcovers : Covers img s (σ.inFlight ++ [⟨t.owner, ops⟩]))
    (hops : p ≠ .undoing → ops = t.walOps) :
    Mirrored E₀ (setConn { σ with store := s, lane := some c } c ⟨some t, p⟩) := by
  refine ⟨plog, img, [⟨t.owner, ops⟩], h.log, h.replayed, ⟨by simp [setConn], fun c' t' hl ht' => ?_⟩, hcovers,
    hlsn.trans h.committedLsn, h.batch⟩
  obtain rfl : c = c' := Option.some.inj hl
  rw [conns_setConn_self] at ht' ⊢
  obtain rfl := Option.some.inj ht'
  exact ⟨ops, rfl, hops⟩

theorem Mirrors.released (h : Mirrors E₀ σ plog img top) {s : Store} {c : Nat} {conn : Connection}
    {queue : List Member} (hlsn : s.committedLsn = σ.store.committedLsn)
    (hcovers : Covers img s (σ.flush.members ++ queue)) :
    Mirrored E₀ { σ.setConn c conn with store := s, lane := none, queue := queue } :=
  ⟨plog, img, [], h.log, h.replayed, ⟨fun _ => rfl, by simp⟩, by rw [List.append_nil]; exact hcovers,
    hlsn.trans h.committedLsn, h.batch⟩

/-- An edit of a transaction's savepoints. -/
theorem Mirrors.edit (h : Mirrors E₀ σ plog img top) {c : Nat} {t t' : Txn} (hconn : σ.conns c = ⟨some t, .idle⟩)
    (howner : t'.owner = t.owner) (hops : t'.walOps = t.walOps) :
    Mirrored E₀ (σ.setConn c ⟨some t', .idle⟩) := by
  refine ⟨plog, img, top, h.log, h.replayed, ⟨h.topmost.free, fun c' t₁ hl ht₁ => ?_⟩, h.covers, h.committedLsn,
    h.batch⟩
  by_cases hc : c' = c
  · subst hc
    rw [conns_setConn_self] at ht₁ ⊢
    obtain rfl := Option.some.inj ht₁
    obtain ⟨ops, htop, heq⟩ := h.topmost.held c' t hl (by rw [hconn])
    refine ⟨ops, howner ▸ htop, fun _ => ?_⟩
    rw [hops]
    exact heq (by simp [hconn])
  · rw [conns_setConn_ne hc] at ht₁ ⊢
    exact h.topmost.held c' t₁ hl ht₁

/-- A stage of the leader that moves members within the batch and the queue. -/
theorem Mirrors.stage (h : Mirrors E₀ σ plog img top) {q : List Member} {f : Flush}
    {log : List WalEntry} {n : Nat} (hin : f.members ++ q = σ.inFlight)
    (hlog : log = plog ++ ({ σ with flush := f } : Sys).unpublished)
    (hbatch : f.members ≠ []) :
    Mirrored E₀ { σ with log := log, nextLsn := n, queue := q, flush := f } := by
  refine ⟨plog, img, top, hlog, h.replayed, h.topmost.congr rfl fun _ _ => rfl, ?_, h.committedLsn, fun _ => hbatch⟩
  show Covers img σ.store (f.members ++ q ++ top)
  rw [hin]
  exact h.covers

theorem unpublished_of_ne (h : ∀ ms first, σ.flush ≠ .appended ms first) : σ.unpublished = [] := by
  unfold unpublished
  split
  · next ms first hflush => exact absurd hflush (h ms first)
  · rfl

theorem drainBatch_ne_nil {ms : List Member} (h : ms ≠ []) : (drainBatch ms).1 ≠ [] := by
  cases ms with
  | nil => exact absurd rfl h
  | cons m ms => simp [drainBatch]

/-- The holder's layer has its owner, or there is none. -/
theorem Mirrors.nodup (h : Mirrors E₀ σ plog img top) (hinv : Inv σ) : ((σ.inFlight ++ top).map (·.owner)).Nodup := by
  cases hl : σ.lane with
  | none =>
    rw [h.topmost.free hl, List.append_nil]
    exact hinv.nodup
  | some c =>
    obtain ⟨t, ht⟩ := hinv.lane c hl
    obtain ⟨ops, htop, -⟩ := h.topmost.held c t hl ht
    have hnodup := nodup_layers hinv.toOwners
    rw [layers_of_lane hl ht] at hnodup
    simpa [htop] using hnodup

/-- **One step keeps the live store over the image of the log.** -/
theorem Mirrored.step {F : Prop} {a : Act} (hinv : Inv σ) (hc : Complete F σ) (h : Mirrored E₀ σ)
    (hstep : Twill.step σ a = some τ) (hrec : Recoverable E₀ σ a) : Mirrored E₀ τ := by
  obtain ⟨plog, img, top, h⟩ := h
  have hs := stepped_of_step hstep
  -- the lane holder is not a connection without a transaction or a reader
  have hnot : ∀ c, (σ.conns c).txn = none → σ.lane ≠ some c := by
    intro c hnone hl
    obtain ⟨t, ht⟩ := hinv.lane c hl
    simp [hnone] at ht
  have hreader : ∀ c t, (σ.conns c).txn = some t → t.writer = false → σ.lane ≠ some c := by
    intro c t ht hw hl
    simp [(hinv.writer c t ht).2 hl] at hw
  cases hs with
  | begin hconn => exact h.aside (hnot _ (by rw [hconn]))
  | startImplicit hconn => exact h.aside (hnot _ (by rw [hconn]))
  | @dml c t phase E st params m w hconn hphase hlane hrun =>
    have ht : (σ.conns c).txn = some t := by rw [hconn]
    have hcovers := h.writing hinv hconn (by rcases hphase with rfl | rfl <;> simp) hlane
    have hdml := @Covers.dml _ _ _ _ E st ⟨t.snapshot, t.owner, params⟩ hcovers
      (hinv.dml_admits ht (hrec.stealFree c E st params t rfl ht))
    have hlsn := committedLsn_runDml E st ⟨t.snapshot, t.owner, params⟩ σ.store
    rw [hrun] at hdml hlsn
    refine h.conn hlsn hdml fun _ => ?_
    rw [runDml_wal hrun]
  | @dmlFail c t phase E st params e w hconn hphase hlane hrun =>
    have ht : (σ.conns c).txn = some t := by rw [hconn]
    have hcovers := h.writing hinv hconn (by rcases hphase with rfl | rfl <;> simp) hlane
    have hdml := @Covers.dml _ _ _ _ E st ⟨t.snapshot, t.owner, params⟩ hcovers
      (hinv.dml_admits ht (hrec.stealFree c E st params t rfl ht))
    have hlsn := committedLsn_runDml E st ⟨t.snapshot, t.owner, params⟩ σ.store
    rw [hrun] at hdml hlsn
    refine h.conn hlsn hdml fun hne => ?_
    have hnil := ops_of_dmlFail (stepped_of_step hstep) hrec.atomic ht hrun (by rwa [conns_setConn_self])
    simp [hnil]
  | commitIdle hconn hwriter => exact h.aside (hreader _ _ (by rw [hconn]) hwriter)
  | @commitEmpty c t phase hconn hwriter hops =>
    have ht : (σ.conns c).txn = some t := by rw [hconn]
    obtain ⟨ops, hcovers, heq⟩ := h.holder hinv ht hwriter
    rw [heq (phase_of_commit hstep), hops] at hcovers
    exact h.released rfl ((Covers.idle_iff (hinv.txn c t ht).1.ne').1 hcovers)
  | @enqueue c t phase hconn hwriter hops =>
    obtain ⟨ops, hcovers, heq⟩ := h.holder hinv (c := c) (t := t) (by rw [hconn]) hwriter
    rw [heq (phase_of_commit hstep), inFlight, List.append_assoc] at hcovers
    exact h.released rfl hcovers
  | rollbackIdle hconn hwriter => exact h.aside (hreader _ _ (by rw [hconn]) hwriter)
  | @rollback c t phase hconn hwriter =>
    have ht : (σ.conns c).txn = some t := by rw [hconn]
    obtain ⟨ops, hcovers, -⟩ := h.holder hinv ht hwriter
    exact h.released (Store.rollbackOwner_eq t.owner).committedLsn
      (hcovers.rollback fun m hm => (hinv.fresh c t ht m hm).symm)
  | savepoint hconn => exact h.edit hconn rfl rfl
  | release hconn hat => exact h.edit hconn rfl rfl
  | @rollbackTo c t name i sp hconn hat hsp =>
    have ht : (σ.conns c).txn = some t := by rw [hconn]
    cases hw : t.writer with
    | false =>
      have hl := hreader c t ht hw
      exact h.aside (n := σ.nextOwner) hl
    | true =>
      obtain ⟨ops, hcovers, heq⟩ := h.holder hinv ht hw
      obtain rfl := heq (by simp [hconn])
      have hsaved := ((hc.txn c t ht).2.saved sp (List.mem_of_getElem? hsp)).kept
      have hback := hcovers.rollbackTo (fun m hm => (hinv.fresh c t ht m hm).symm) hsaved
        (hrec.clean c name t i sp rfl ht hat hsp)
      have hlane := (hinv.writer c t ht).1 hw
      have hconn' := h.conn (c := c) (p := .idle)
        (t := { t with walOps := t.walOps.take sp.walLen, savepoints := t.savepoints.take (i + 1) })
        (Store.rollbackToSavepoint_eq t.owner sp.inserted sp.deleted).committedLsn hback fun _ => rfl
      rw [← hlane] at hconn'
      simpa only [hw, if_true] using hconn'
  | resume hconn hdone => exact h.aside (hnot _ (by rw [hconn]))
  | drain hflush hqueue =>
    have hlog := h.log
    rw [unpublished_of_ne (by simp [hflush])] at hlog
    refine h.stage (n := σ.nextLsn) ?_ hlog (drainBatch_ne_nil hqueue)
    simp [inFlight, hflush, Flush.members, drainBatch_append]
  | @append first ms hflush hfirst hlast =>
    have hlog := h.log
    rw [unpublished_of_ne (by simp [hflush]), List.append_nil] at hlog
    have hbatch := h.batch (by simp [hflush])
    refine h.stage (q := σ.queue) (f := .appended ms first) ?_ ?_ ?_
    · simp [inFlight, hflush, Flush.members]
    · rw [hlog]
      rfl
    · simpa [hflush, Flush.members] using hbatch
  | @appendFail ms hflush =>
    have hlog := h.log
    rw [unpublished_of_ne (by simp [hflush])] at hlog
    have hbatch := h.batch (by simp [hflush])
    refine h.stage (n := σ.nextLsn) (q := σ.queue) (f := .failed ms) ?_ hlog ?_
    · simp [inFlight, hflush, Flush.members]
    · simpa [hflush, Flush.members] using hbatch
  | @publish ms first hflush =>
    have hin : σ.inFlight ++ top = ms ++ (σ.queue ++ top) := by simp [inFlight, hflush, Flush.members]
    have hunpublished : σ.unpublished = numberFrom first (batchRecords ms) := by simp [unpublished, hflush]
    have hne : ms ≠ [] := by simpa [hflush, Flush.members] using h.batch (by simp [hflush])
    obtain ⟨hfirst, hnext⟩ := hinv.appended ms first hflush
    obtain ⟨img', himg, hcovers, hlast⟩ := Covers.publish E₀ first (hin ▸ h.covers) (hin ▸ h.nodup hinv)
      (hnext.trans_le hinv.bound)
    refine ⟨σ.log, img', top, ?_, ?_, h.topmost.congr rfl fun _ _ => rfl, ?_, ?_, by simp [Sys.publish]⟩
    · rw [unpublished_of_ne (by simp [Sys.publish]), List.append_nil]
      rfl
    · rw [h.log, hunpublished, image_append, h.replayed, himg]
    · exact hcovers.withLsn img'.committedLsn _
    · rw [hlast hne (h.committedLsn ▸ hfirst), committedLsn_publish, lastLsn]
      omega
  | @discard ms hflush =>
    have hin : σ.inFlight ++ top = ms ++ (σ.queue ++ top) := by simp [inFlight, hflush, Flush.members]
    have hcovers := Covers.discard (hin ▸ h.covers) (hin ▸ h.nodup hinv)
    refine ⟨plog, img, top, ?_, h.replayed, h.topmost.congr rfl fun _ _ => rfl, hcovers, ?_, by simp [Sys.discard]⟩
    · have hlog := h.log
      rw [unpublished_of_ne (by simp [hflush])] at hlog
      exact hlog
    · rw [committedLsn_discard]
      exact h.committedLsn
  | ddlNothing => exact ⟨plog, img, top, h⟩
  | @ddl c E st op first hlane hflush hqueue hplan hfirst hlast =>
    have hplanned := planned_of_plan hplan
    have hreplays := hrec.ddl c E st (some first) rfl
    have htop := h.topmost.free hlane
    have hin : σ.inFlight = [] := by simp [inFlight, hflush, hqueue, Flush.members]
    have hcovers := h.covers
    rw [hin, htop, List.append_nil] at hcovers
    have hop : ∀ op' ∈ [op], op' ≠ WalOp.commit := by
      cases hplanned <;> simp
    have hlog := h.log
    rw [unpublished_of_ne (by simp [hflush]), List.append_nil] at hlog
    have himg : image E₀ (σ.log ++ numberFrom first [op, .commit]) = ({ applyReplay E₀ (first + 1) img op with
        committedLsn := max (applyReplay E₀ (first + 1) img op).committedLsn (first + 1) }, []) := by
      rw [image_append, hlog, h.replayed]
      exact foldl_replayEntry_marked E₀ hop first img
    refine ⟨_, _, [], ?_, himg, ⟨fun _ => rfl, by simp [hlane]⟩, ?_, ?_, by simp [hflush]⟩
    · rw [unpublished_of_ne (by simp [hflush]), List.append_nil]
    · have hnil : (Sys.inFlight { σ with
          log := σ.log ++ numberFrom first [op, .commit]
          nextLsn := first + 2
          store := { applyDdl E st σ.store op with
            committedLsn := max (applyDdl E st σ.store op).committedLsn (first + 1) } }) = [] := hin
      rw [hnil]
      exact (hcovers.ddl hplanned hreplays (first + 1)).withLsn _ _
    · show max _ _ = max _ _
      rw [(Store.reshapes_applyDdl E st op).committedLsn, (reshapes_applyReplay hplanned (first + 1)).committedLsn,
        h.committedLsn]
  | otherOwner => exact ⟨plog, img, top, h.log, h.replayed, h.topmost.congr rfl fun _ _ => rfl, h.covers, h.committedLsn, h.batch⟩

/-- **Every run of recoverable steps keeps it.** -/
theorem Mirrored.runWhere (hrun : RunWhere (Recoverable E₀) Sys.init σ) : Mirrored E₀ σ := by
  induction hrun with
  | nil => exact .init
  | @snoc υ τ a hrun hsat hstep ih =>
    have hcomplete : Complete False υ := Complete.init.runWhere (fun _ _ _ => False.elim) Inv.init hrun
    exact ih.step (Inv.init.runWhere hrun) hcomplete hstep hsat

/-- With no writer in flight the replay of the log is the live store. -/
theorem Mirrored.replay (h : Mirrored E₀ σ) (hin : σ.inFlight = []) (hlane : σ.lane = none) :
    Store.SameData (replay E₀ Store.empty σ.log) σ.store ∧ ∀ k, ∀ r ∈ σ.store.rowsAt k, r.owner = 0 := by
  obtain ⟨plog, img, top, h⟩ := h
  have hunpublished : σ.unpublished = [] := by
    refine unpublished_of_ne fun ms first hflush => h.batch (by simp [hflush]) ?_
    exact (List.append_eq_nil_iff.1 hin).1
  have hlog : σ.log = plog := by simpa [hunpublished] using h.log
  have hcovers := h.covers
  rw [hin, h.topmost.free hlane, List.append_nil] at hcovers
  obtain ⟨hdata, hdurable, hviews⟩ := Covers.nil_iff.1 hcovers
  have hreplay : Twill.replay E₀ Store.empty σ.log = img.rebuildAutoinc := by
    have himg := h.replayed
    rw [← hlog] at himg
    show (image E₀ σ.log).1.rebuildAutoinc = _
    rw [himg]
  refine ⟨⟨fun k => ?_, ?_, ?_⟩, fun k r hr => ?_⟩
  · rw [hreplay, Store.data_rebuildAutoinc, hdata]
  · rw [hreplay, hviews]
    rfl
  · rw [hreplay, h.committedLsn]
    rfl
  · rw [Store.rowsAt_eq_data, hdata, ← Store.rowsAt_eq_data] at hr
    exact (hdurable k).unowned r hr

end Sys

open Sys

/-! ## The statements of the engine -/

/-- A constant, or a sign or negation over one. -/
def Expr.literal : Expr → Bool
  | .null => true
  | .int _ => true
  | .real _ => true
  | .str _ => true
  | .vector _ => true
  | .lit _ => true
  | .unary _ e => e.literal
  | _ => false

theorem eval_literal {E E₀ : Env} {ctx : EvalCtx} {e : Expr} (h : e.literal = true) : eval E e ctx = eval E₀ e ctx := by
  fun_induction Expr.literal e with
  | case7 op e ih =>
    simp only [eval]
    rw [ih h]
  | case8 => simp at h
  | _ => simp only [eval]

/-- A column without a default, or with one that parses to a literal. -/
def Column.LiteralDefault (F : Frontend) (c : Column) : Prop :=
  ∀ text, c.defaultSql = some text → ∃ e, F.parseExpr text = .ok e ∧ e.literal = true

theorem columnFill_literal {E E₀ : Env} {c : Column} (hfrontend : E.frontend = E₀.frontend)
    (h : c.LiteralDefault E₀.frontend) : columnFill E c = columnFill E₀ c := by
  unfold columnFill
  cases htext : c.defaultSql with
  | none => rfl
  | some text =>
    obtain ⟨e, hparse, hliteral⟩ := h text htext
    have heval : eval E e (EvalCtx.root []) = eval E₀ e (EvalCtx.root []) := eval_literal hliteral
    simp only [evalConstSql, hfrontend, hparse, Except.ok_bind, heval]

/-- No statement with ON CONFLICT and no ROLLBACK TO; no statement fails inside
an explicit transaction; recovery parses stored text as the connections do, a
view's text to its query and the default of a new column to a literal. -/
structure Replayable (E₀ : Env) (σ : Sys) (a : Act) : Prop where
  plain : a.plain = true
  forward : ∀ c name, a ≠ .rollbackTo c name
  succeeds : ∀ c E st params t, a = .dml c E st params → σ.conns c = ⟨some t, .idle⟩ →
    ∀ e, (runDml E st ⟨t.snapshot, t.owner, params⟩ σ.store).1 ≠ .error (.err e)
  frontend : ∀ c E st outcome, a = .ddl c E st outcome → E.frontend = E₀.frontend
  view : ∀ c E v outcome, a = .ddl c E (.createView v) outcome → E₀.frontend.parseView v.sql = some v.query
  literal : ∀ c E table spec outcome, a = .ddl c E (.alterTable table (.addColumn spec)) outcome →
    spec.LiteralDefault E₀.frontend

theorem Replayable.recoverable {E₀ : Env} {σ : Sys} {a : Act} (hinv : Inv σ) (h : Replayable E₀ σ a) :
    Recoverable E₀ σ a := by
  refine ⟨stealFreeStep_of_plain hinv h.plain, ?_, ?_, ?_⟩
  · intro c E st params t hact hconn
    refine stopsInTime_iff.2 fun _ e he => ?_
    exact h.succeeds c E st params t hact hconn e (runDml_err_iff.2 he)
  · intro c name t i sp hact
    exact absurd hact (h.forward c name)
  · rintro c E st outcome rfl
    cases st with
    | createView v => exact h.view c E v outcome rfl
    | alterTable table action =>
      cases action with
      | addColumn spec => exact columnFill_literal (h.frontend c E _ outcome rfl) (h.literal c E table spec outcome rfl)
      | _ => trivial
    | _ => trivial

theorem recoverable_of_replayable {E₀ : Env} {σ : Sys} (hrun : RunWhere (Replayable E₀) Sys.init σ) :
    RunWhere (Recoverable E₀) Sys.init σ := by
  induction hrun with
  | nil => exact .nil _
  | snoc hrun hsat hstep ih => exact .snoc ih (hsat.recoverable (Inv.init.runWhere hrun)) hstep

/-- **Replay rebuilds the live store.** After any run of the engine's statements
whose batches append durably or fail leaving nothing in the log, whenever no
writer is in flight the replay of the log has the tables, row versions, views
and published LSN of the live store, and no version has an owner. -/
theorem replay_rebuilds (E₀ : Env) (σ : Sys) (hrun : RunWhere (Replayable E₀) Sys.init σ)
    (hin : σ.inFlight = []) (hlane : σ.lane = none) :
    Store.SameData (replay E₀ Store.empty σ.log) σ.store ∧ ∀ k, ∀ r ∈ σ.store.rowsAt k, r.owner = 0 :=
  (Mirrored.runWhere (recoverable_of_replayable hrun)).replay hin hlane

/-- Steps of the coordinator and of transactions that run no statement. -/
theorem Replayable.quiet {E₀ : Env} {σ : Sys} {a : Act} (hplain : a.plain = true)
    (hforward : ∀ c name, a ≠ .rollbackTo c name) (hdml : ∀ c E st params, a ≠ .dml c E st params)
    (hddl : ∀ c E st outcome, a ≠ .ddl c E st outcome) : Replayable E₀ σ a :=
  ⟨hplain, hforward, fun c E st params _ h => absurd h (hdml c E st params), fun c E st o h => absurd h (hddl c E st o),
    fun c E _ o h => absurd h (hddl c E _ o), fun c E _ _ o h => absurd h (hddl c E _ o)⟩

theorem Replayable.createItems (σ : Sys) : Replayable Env.bare σ createItems := by
  refine ⟨rfl, by simp [Twill.createItems], by simp [Twill.createItems], ?_, by simp [Twill.createItems],
    by simp [Twill.createItems]⟩
  rintro c E st outcome heq
  obtain ⟨-, rfl, -, -⟩ := Act.ddl.inj heq
  rfl

/-- An INSERT that, inside an explicit transaction, succeeds. -/
theorem Replayable.insert {σ : Sys} {c : Nat} {st : InsertStmt} (hplain : st.onConflict = .error)
    (hok : ∀ t, σ.conns c = ⟨some t, .idle⟩ →
      ∃ m, (runDml Env.bare (.insert st) ⟨t.snapshot, t.owner, []⟩ σ.store).1 = .ok m) :
    Replayable Env.bare σ (.dml c Env.bare (.insert st) []) := by
  refine ⟨by simp [Act.plain, DmlStmt.plain, hplain], by simp, ?_, by simp, by simp, by simp⟩
  rintro c' E st' params t heq hconn e herr
  obtain ⟨rfl, rfl, rfl, rfl⟩ := Act.dml.inj heq
  obtain ⟨m, hm⟩ := hok t hconn
  simp [hm] at herr

/-- A row inserted in an explicit transaction and published. -/
theorem replay_rebuilds_items :
    let σ := Sys.init.after [createItems, .begin 1, insertItem 1 1 10, .commit 1, .drain, .append 3, .publish]
    RunWhere (Replayable Env.bare) Sys.init σ ∧ Store.SameData (replay Env.bare Store.empty σ.log) σ.store ∧
      σ.store.rowsAt "items" = [⟨1, [.int 1, .int 10], 4, 0, 0⟩] := by
  intro σ
  have hquiet : ∀ (σ : Sys) (a : Act), a ∈ [Act.begin 1, .commit 1, .drain, .append 3, .publish] →
      Replayable Env.bare σ a := by
    intro σ a ha
    fin_cases ha <;> exact .quiet rfl (by simp) (by simp) (by simp)
  have hinsert : Replayable Env.bare (Sys.init.after [createItems, .begin 1]) (insertItem 1 1 10) := by
    refine .insert rfl fun t hconn => ?_
    obtain rfl := Option.some.inj (congrArg Connection.txn hconn)
    exact ⟨_, rfl⟩
  have hrun : RunWhere (Replayable Env.bare) Sys.init σ := (RunWhere.nil Sys.init).after
    ⟨.createItems _, hquiet _ _ (by simp), hinsert, hquiet _ _ (by simp), hquiet _ _ (by simp), hquiet _ _ (by simp),
      hquiet _ _ (by simp), trivial⟩
  exact ⟨hrun, (replay_rebuilds Env.bare σ hrun rfl rfl).1, rfl⟩

end Twill
