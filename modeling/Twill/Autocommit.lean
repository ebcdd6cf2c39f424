/-
A write statement with no transaction open, run to its end (`conn.rs`: `exec_dml`,
`finish_commit`; `group_commit.rs`: a leader alone with its own commit).

The statement is a run of the connection's steps and the coordinator's. When it fails, in the
statement or in the durable append, readers go on seeing the committed rows they saw; when an
INSERT of one row succeeds, they see that row as well.
-/
import Twill.Snapshot
import Twill.Upsert

namespace Twill

open Mvcc (PENDING)

namespace Sys

/-- An action that is not enabled does nothing. -/
def act (σ : Sys) (a : Act) : Sys := (step σ a).getD σ

/-- The committed rows under a table's key. -/
def committed (σ : Sys) (k : String) : List (Nat × Row) := (σ.store.rowsAt k).visible σ.store.committedLsn

end Sys

/-- A database with one connection at work, its connection 0. -/
structure Solo where
  sys : Sys
  /-- How the durable appends to come end: the LSNs the storage skips, or its error. -/
  appends : ℕ → Except EngineError ℕ
  lastChanges : Int64

namespace Solo

/-- Between statements, with the lane free and nothing in flight. -/
structure AtRest (σ : Sys) : Prop where
  idle : σ.conns 0 = ⟨none, .idle⟩
  lane : σ.lane = none
  flush : σ.flush = .none
  queue : σ.queue = []

/-! ## The statement -/

/-- The batch that is queued, made durable and published or discarded. -/
def lead (σ : Sys) (outcome : Except EngineError ℕ) : Except EngineError Unit × Sys :=
  let σ := σ.act .drain
  let discard (e : EngineError) := (.error e, (σ.act .appendFail).act .discard)
  match outcome with
  | .error e => discard e
  | .ok gap => match step σ (.append (σ.nextLsn + gap)) with
    | some τ => (.ok (), τ.act .publish)
    | none => discard ⟨.errInternal, "no LSN left"⟩

def finishCommit (s : Solo) : Except EngineError Unit × Solo :=
  let σ := s.sys.act (.commit 0)
  if σ.queue.isEmpty then (.ok (), { s with sys := σ })
  else
    let (res, τ) := lead σ (s.appends 0)
    (res, { s with sys := τ.act (.resume 0), appends := fun n => s.appends (n + 1) })

def writeCtx (s : Solo) (args : List Value) : WriteCtx := ⟨s.sys.store.committedLsn, s.sys.nextOwner, args⟩

/-- `exec_dml` with no transaction open. A panic ends the session where the statement began. -/
def execDml (E : Env) (s : Solo) (st : DmlStmt) (args : List Value) : Except EngineError ResultSet × Solo :=
  let σ := (s.sys.act (.startImplicit 0)).act (.dml 0 E st args)
  match (runDml E st (s.writeCtx args) s.sys.store).1 with
  | .ok m =>
    let (res, s) := finishCommit { s with sys := σ, lastChanges := Int64.ofNat m.changes }
    (res.map fun _ => m.result.getD .none, s)
  | .error (.err e) => (.error e, { s with sys := σ.act (.rollback 0) })
  | .error _ => (.error ⟨.errInternal, "panic"⟩, s)

/-! ## Its steps -/

variable {σ τ : Sys} {a : Act} {E : Env} {st : DmlStmt} {args : List Value}

theorem act_eq (h : step σ a = some τ) : σ.act a = τ := by rw [Sys.act, h, Option.getD_some]

theorem run_act (ha : a.isDdl = false) : RunWhere NoDdl σ (σ.act a) := by
  unfold Sys.act
  cases hstep : step σ a with
  | none => exact .nil σ
  | some τ => exact .snoc (.nil σ) ha hstep

/-- A run that publishes nothing leaves the committed rows. -/
theorem committed_of_run (hinv : Sys.Inv σ) (hrun : RunWhere NoDdl σ τ)
    (hlsn : τ.store.committedLsn = σ.store.committedLsn) (k : String) : τ.committed k = σ.committed k := by
  rw [Sys.committed, hlsn]
  exact (Sys.visible_run (fun _ _ h => h) hinv le_rfl hrun).2 k

/-- The system once the statement has run. -/
def ran (σ : Sys) (w : Write) (ops : List WalOp) (phase : Phase) : Sys :=
  Sys.setConn { σ.openTxn 0 .starting with store := w.store, lane := some 0 } 0
    ⟨some ⟨σ.store.committedLsn, true, ops, σ.nextOwner, []⟩, phase⟩

theorem act_dml (h : AtRest σ) {res : Res Mutation} {w : Write}
    (hrun : runDml E st ⟨σ.store.committedLsn, σ.nextOwner, args⟩ σ.store = (res, w)) :
    (∀ m, res = .ok m → (σ.act (.startImplicit 0)).act (.dml 0 E st args) = ran σ w m.wal .committing) ∧
      ∀ e, res = .error (.err e) → (σ.act (.startImplicit 0)).act (.dml 0 E st args) = ran σ w [] .undoing := by
  have hstart : σ.act (.startImplicit 0) = σ.openTxn 0 .starting := act_eq (by simp [step, h.idle])
  have hlane : (σ.openTxn 0 .starting).laneFor ⟨σ.store.committedLsn, false, [], σ.nextOwner, []⟩ = true := by
    simp [Sys.laneFor, Sys.openTxn, Sys.setConn, h.lane]
  have hconn : (σ.openTxn 0 .starting).conns 0 =
      ⟨some ⟨σ.store.committedLsn, false, [], σ.nextOwner, []⟩, .starting⟩ := by
    simp [Sys.openTxn, Sys.setConn]
  have hstore : (σ.openTxn 0 .starting).store = σ.store := rfl
  rw [hstart]
  refine ⟨fun m hm => act_eq ?_, fun e he => act_eq ?_⟩
  · subst hm
    simp only [step, hconn, hlane, if_true, Sys.execDml, hstore, hrun]
    rfl
  · subst he
    simp only [step, hconn, hlane, if_true, Sys.execDml, hstore, hrun]
    rfl

/-- The system with the statement's commit queued. -/
def queued (σ : Sys) (w : Write) (ops : List WalOp) : Sys :=
  { (ran σ w ops .committing).setConn 0 ⟨none, .waiting σ.nextOwner⟩ with lane := none, queue := [⟨σ.nextOwner, ops⟩] }

theorem act_commit (h : AtRest σ) (w : Write) (ops : List WalOp) :
    (ops = [] → (ran σ w ops .committing).act (.commit 0) =
      { (ran σ w ops .committing).setConn 0 ⟨none, .idle⟩ with lane := none }) ∧
      (ops ≠ [] → (ran σ w ops .committing).act (.commit 0) = queued σ w ops) := by
  have hconn : (ran σ w ops .committing).conns 0 =
      ⟨some ⟨σ.store.committedLsn, true, ops, σ.nextOwner, []⟩, .committing⟩ := by simp [ran, Sys.setConn]
  have hqueue : (ran σ w ops .committing).queue = [] := h.queue
  refine ⟨fun hops => act_eq ?_, fun hops => act_eq ?_⟩
  · subst hops
    simp only [step, hconn]
    rfl
  · have hempty : ops.isEmpty = false := List.isEmpty_eq_false_iff.2 hops
    simp only [step, hconn, Sys.finishCommit, hempty, hqueue]
    rfl

theorem act_drain (h : AtRest σ) (w : Write) (ops : List WalOp) : (queued σ w ops).act .drain =
    { queued σ w ops with queue := [], flush := .drained [⟨σ.nextOwner, ops⟩] } := by
  have hflush : (queued σ w ops).flush = .none := h.flush
  have hqueue : (queued σ w ops).queue = [⟨σ.nextOwner, ops⟩] := rfl
  refine act_eq ?_
  rw [step, hflush, hqueue]
  rfl

/-- A failed append: what the statement wrote is discarded. -/
theorem act_discard (w : Write) (ops : List WalOp) :
    (({ queued σ w ops with queue := [], flush := .drained [⟨σ.nextOwner, ops⟩] } : Sys).act .appendFail).act .discard =
      { queued σ w ops with queue := [], flush := .none, store := w.store.rollbackOwner σ.nextOwner } := by
  have hfail : ({ queued σ w ops with queue := [], flush := .drained [⟨σ.nextOwner, ops⟩] } : Sys).act .appendFail =
      { queued σ w ops with queue := [], flush := .failed [⟨σ.nextOwner, ops⟩] } := act_eq rfl
  rw [hfail]
  exact act_eq rfl

/-- The store that publishing a statement's commit leaves. -/
def publishedStore (σ : Sys) (w : Write) (ops : List WalOp) (first : ℕ) : Store :=
  let s := w.store.finalizeOwner σ.nextOwner (first + ops.length)
  { s with committedLsn := max s.committedLsn (first + ops.length) }

/-- A batch of one is published, or discarded with an error. -/
theorem lead_queued (h : AtRest σ) (w : Write) (ops : List WalOp) (outcome : Except EngineError ℕ) :
    ((lead (queued σ w ops) outcome).2.conns 0 = ⟨none, .waiting σ.nextOwner⟩ ∧
      (lead (queued σ w ops) outcome).2.lane = none ∧ (lead (queued σ w ops) outcome).2.flush = .none ∧
      (lead (queued σ w ops) outcome).2.queue = []) ∧
    match (lead (queued σ w ops) outcome).1 with
    | .error _ => (lead (queued σ w ops) outcome).2.store = w.store.rollbackOwner σ.nextOwner
    | .ok () => ∃ first, σ.nextLsn ≤ first ∧ first + ops.length < PENDING ∧
        (lead (queued σ w ops) outcome).2.store = publishedStore σ w ops first := by
  have hconn : (queued σ w ops).conns 0 = ⟨none, .waiting σ.nextOwner⟩ := by simp [queued, Sys.setConn]
  unfold lead
  rw [act_drain h w ops]
  dsimp only
  cases outcome with
  | error e =>
    dsimp only
    rw [act_discard]
    exact ⟨⟨hconn, rfl, rfl, rfl⟩, rfl⟩
  | ok gap =>
    dsimp only
    split
    · next τ happend =>
      simp only [step, Sys.appendLog] at happend
      split at happend
      case isFalse => cases happend
      next hroom =>
      obtain rfl := Option.some.inj happend
      rw [act_eq rfl]
      have hlen : (Sys.batchRecords [⟨σ.nextOwner, ops⟩]).length = ops.length + 1 := by
        simp [Sys.batchRecords, Member.records]
      have hnext : (queued σ w ops).nextLsn = σ.nextLsn := rfl
      rw [hlen] at hroom
      have hlsn (first : ℕ) : first + (Member.records ⟨σ.nextOwner, ops⟩).length - 1 = first + ops.length := by
        simp [Member.records]
      have hlast (first : ℕ) : Sys.lastLsn first [⟨σ.nextOwner, ops⟩] = first + ops.length := by
        rw [Sys.lastLsn, hlen]
        omega
      refine ⟨⟨hconn, rfl, rfl, rfl⟩, _, Nat.le_add_right _ gap, by omega, ?_⟩
      simp only [Sys.publish, Sys.publishMembers, hlsn, hlast]
      rfl
    · rw [act_discard]
      exact ⟨⟨hconn, rfl, rfl, rfl⟩, rfl⟩

/-- The connection has returned. -/
theorem act_resume (hconn : τ.conns 0 = ⟨none, .waiting σ.nextOwner⟩) (hflush : τ.flush = .none)
    (hqueue : τ.queue = []) : τ.act (.resume 0) = τ.setConn 0 ⟨none, .idle⟩ := by
  have hfree : τ.inFlight.any (fun m => m.owner == σ.nextOwner) = false := by
    simp [Sys.inFlight, hflush, hqueue, Flush.members]
  refine act_eq ?_
  simp only [step, hconn, hfree]
  rfl

/-! ## What it leaves -/

theorem lead_run (σ : Sys) (outcome : Except EngineError ℕ) : RunWhere NoDdl σ (lead σ outcome).2 := by
  have hdrain : RunWhere NoDdl σ (σ.act .drain) := run_act rfl
  have hdiscard : RunWhere NoDdl σ (((σ.act .drain).act .appendFail).act .discard) :=
    (hdrain.trans (run_act rfl)).trans (run_act rfl)
  unfold lead
  dsimp only
  cases outcome with
  | error e => exact hdiscard
  | ok gap =>
    dsimp only
    split
    · next τ happend => exact (RunWhere.snoc (a := .append _) hdrain rfl happend).trans (run_act rfl)
    · exact hdiscard

theorem finishCommit_run (s : Solo) : RunWhere NoDdl s.sys s.finishCommit.2.sys := by
  have hcommit : RunWhere NoDdl s.sys (s.sys.act (.commit 0)) := run_act rfl
  unfold finishCommit
  dsimp only
  split
  · exact hcommit
  · exact (hcommit.trans (lead_run _ _)).trans (run_act rfl)

/-- A statement is a run of the connection and the coordinator. -/
theorem execDml_run (E : Env) (s : Solo) (st : DmlStmt) (args : List Value) :
    RunWhere NoDdl s.sys (execDml E s st args).2.sys := by
  have hdml : RunWhere NoDdl s.sys ((s.sys.act (.startImplicit 0)).act (.dml 0 E st args)) :=
    (run_act rfl).trans (run_act rfl)
  unfold execDml
  dsimp only
  split
  · next m _ => exact hdml.trans (finishCommit_run { s with sys := _, lastChanges := Int64.ofNat m.changes })
  · exact hdml.trans (run_act rfl)
  · exact .nil _

/-- What a statement that ran leaves once its commit has ended. -/
theorem finishCommit_ran {s : Solo} (h : AtRest σ) (w : Write) (ops : List WalOp) (hs : s.sys = ran σ w ops .committing) :
    AtRest s.finishCommit.2.sys ∧ match s.finishCommit.1 with
      | .error _ => s.finishCommit.2.sys.store = w.store.rollbackOwner σ.nextOwner
      | .ok () => (ops = [] ∧ s.finishCommit.2.sys.store = w.store) ∨ (ops ≠ [] ∧ ∃ first, σ.nextLsn ≤ first ∧
          first + ops.length < PENDING ∧ s.finishCommit.2.sys.store = publishedStore σ w ops first) := by
  obtain ⟨hempty, hfull⟩ := act_commit h w ops
  by_cases hops : ops = []
  · have hidle : ((ran σ w ops .committing).setConn 0 ⟨none, .idle⟩).conns 0 = ⟨none, .idle⟩ := by simp
    have heq : s.finishCommit =
        (.ok (), { s with sys := { (ran σ w ops .committing).setConn 0 ⟨none, .idle⟩ with lane := none } }) := by
      unfold finishCommit
      rw [hs, hempty hops]
      exact if_pos (List.isEmpty_iff.2 h.queue)
    rw [heq]
    exact ⟨⟨hidle, rfl, h.flush, h.queue⟩, .inl ⟨hops, rfl⟩⟩
  · have heq : s.finishCommit = ((lead (queued σ w ops) (s.appends 0)).1, { s with
        sys := (lead (queued σ w ops) (s.appends 0)).2.act (.resume 0), appends := fun n => s.appends (n + 1) }) := by
      unfold finishCommit
      rw [hs, hfull hops]
      exact if_neg (by simp [queued])
    obtain ⟨⟨hconn, hlane, hflush, hqueue⟩, hstore⟩ := lead_queued h w ops (s.appends 0)
    rw [heq, act_resume hconn hflush hqueue]
    refine ⟨⟨by simp, hlane, hflush, hqueue⟩, ?_⟩
    dsimp only
    cases hres : (lead (queued σ w ops) (s.appends 0)).1 with
    | error e =>
      rw [hres] at hstore
      exact hstore
    | ok u =>
      rw [hres] at hstore
      obtain ⟨first, hfirst, hroom, hpublished⟩ := hstore
      exact .inr ⟨hops, first, hfirst, hroom, hpublished⟩

theorem act_rollback (σ : Sys) (w : Write) : (ran σ w [] .undoing).act (.rollback 0) =
    { (ran σ w [] .undoing).setConn 0 ⟨none, .idle⟩ with store := w.store.rollbackOwner σ.nextOwner, lane := none } := by
  have hconn : (ran σ w [] .undoing).conns 0 =
      ⟨some ⟨σ.store.committedLsn, true, [], σ.nextOwner, []⟩, .undoing⟩ := by simp [ran, Sys.setConn]
  refine act_eq ?_
  simp only [step, hconn]
  rfl

/-- What a statement leaves: the connection at rest, and the store rolled back if it failed. -/
theorem execDml_ran {s : Solo} (h : AtRest s.sys) (E : Env) (st : DmlStmt) (args : List Value) :
    let run := runDml E st (s.writeCtx args) s.sys.store
    AtRest (execDml E s st args).2.sys ∧ match (execDml E s st args).1 with
      | .error _ => (execDml E s st args).2.sys.store = s.sys.store ∨
          (execDml E s st args).2.sys.store = run.2.store.rollbackOwner s.sys.nextOwner
      | .ok _ => ∃ m, run.1 = .ok m ∧ ((m.wal = [] ∧ (execDml E s st args).2.sys.store = run.2.store) ∨
          (m.wal ≠ [] ∧ ∃ first, s.sys.nextLsn ≤ first ∧ first + m.wal.length < PENDING ∧
            (execDml E s st args).2.sys.store = publishedStore s.sys run.2 m.wal first)) := by
  intro run
  obtain ⟨hok, herr⟩ := act_dml (E := E) (w := run.2) h rfl
  unfold execDml
  dsimp only
  split
  · next m hm =>
    obtain ⟨s₁, hs₁⟩ : ∃ s₁ : Solo, s₁ = ⟨(s.sys.act (.startImplicit 0)).act (.dml 0 E st args), s.appends,
      Int64.ofNat m.changes⟩ := ⟨_, rfl⟩
    have hfinish := finishCommit_ran (s := s₁) h run.2 m.wal (by rw [hs₁]; exact hok m hm)
    rw [← hs₁]
    generalize s₁.finishCommit = finished at hfinish ⊢
    obtain ⟨res, s'⟩ := finished
    obtain ⟨hrest, hstore⟩ := hfinish
    refine ⟨hrest, ?_⟩
    cases res with
    | error e => exact .inr hstore
    | ok u => exact ⟨m, hm, hstore⟩
  · next e he =>
    rw [herr e he, act_rollback]
    exact ⟨⟨by simp, rfl, h.flush, h.queue⟩, .inr rfl⟩
  · exact ⟨h, .inl rfl⟩

/-- **A statement that fails leaves the committed rows.** -/
theorem execDml_error {s : Solo} (hinv : Sys.Inv s.sys) (h : AtRest s.sys) {E : Env} {st : DmlStmt} {args : List Value}
    {e : EngineError} (herr : (execDml E s st args).1 = .error e) (k : String) :
    (execDml E s st args).2.sys.committed k = s.sys.committed k := by
  refine committed_of_run hinv (execDml_run E s st args) ?_ k
  obtain ⟨-, hstore⟩ := execDml_ran h E st args
  rw [herr] at hstore
  rcases hstore with hsame | hback
  · rw [hsame]
  · rw [hback, (Store.rollbackOwner_eq _).committedLsn]
    exact Sys.committedLsn_runDml E st (s.writeCtx args) s.sys.store

/-! ## One row inserted -/

/-- Without ON CONFLICT an INSERT that ends well adds its staged rows. -/
theorem planRows_staged {schema : TableSchema} {table : String} {params : List Value} {pending : List String} :
    ∀ {staged : List Row} {live : AList fun _ : String => Nat} {images : List (Nat × Row)} {next : Nat},
      (planRows E schema table params .error pending staged live images next).2 = .ok () →
      (planRows E schema table params .error pending staged live images next).1 = staged.map RowWrite.added
  | [], _, _, _, _ => rfl
  | vals :: staged, live, images, next, h => by
    simp only [planRows] at h ⊢
    split at h
    · cases h
    · next hpending =>
      rw [if_neg hpending]
      split at h
      · cases h
      · next hrow =>
        unfold planRow at hrow
        split at hrow <;> cases hrow
      · next rw hrow =>
        rcases planRow_cases hrow with ⟨-, rfl⟩ | ⟨_, -, hrep, -⟩ | ⟨_, _, _, _, _, -, hup, -⟩
        · dsimp only at h ⊢
          rw [planRows_staged h, List.map_cons]
        · cases hrep
        · cases hup

theorem insertWrites_staged {t : Table} {lsn : Nat} {st : InsertStmt} {wc : WriteCtx} {staged : List Row}
    (hconflict : st.onConflict = .error) (h : (insertWrites E t lsn st wc staged).2 = .ok ()) :
    (insertWrites E t lsn st wc staged).1 = staged.map RowWrite.added := by
  unfold insertWrites at h ⊢
  dsimp only at h ⊢
  split at h
  · next hpk => rw [if_pos hpk]
  · next hpk =>
    rw [if_neg hpk]
    rw [hconflict] at h ⊢
    exact planRows_staged h

theorem finalizeRows_length {checks : List Expr} {schema : TableSchema} {table : String} :
    ∀ {slots : List Slot} {n n' : Int64} {staged : List Row},
      finalizeRows E checks schema table slots n = .ok (staged, n') → staged.length = slots.length
  | [], _, _, _, h => by
    cases h
    rfl
  | slot :: slots, _, _, _, h => by
    obtain ⟨⟨vals, m⟩, -, h⟩ := Except.bind_eq_ok.1 h
    obtain ⟨_, -, h⟩ := Except.bind_eq_ok.1 h
    obtain ⟨⟨rows, m'⟩, hrest, h⟩ := Except.bind_eq_ok.1 h
    cases h
    rw [List.length_cons, List.length_cons, finalizeRows_length hrest]

/-- The INSERT of one row of values. -/
def insertOne (table : String) (columns : Option (List String)) (exprs : List Expr) : InsertStmt :=
  ⟨table, columns, .values [exprs], .error, none⟩

variable {table : String} {columns : Option (List String)} {exprs : List Expr}

theorem stageInsert_one {s : Store} {schema : TableSchema} {wc : WriteCtx} {staged : List Row} {n : Int64}
    (h : stageInsert E s schema (insertOne table columns exprs) wc = .ok (staged, n)) : ∃ image, staged = [image] := by
  obtain ⟨slots, hslots, h⟩ := Except.bind_eq_ok.1 h
  obtain ⟨checks, -, h⟩ := Except.bind_eq_ok.1 h
  obtain ⟨targets, -, hslots⟩ := Except.bind_eq_ok.1 hslots
  have hlen : slots.length = 1 := (Except.mapM_eq_ok.1 hslots).length_eq.symm
  exact List.length_eq_one_iff.1 ((finalizeRows_length h).trans hlen)

theorem insertPlan_one {s : Store} {t : Table} {wc : WriteCtx} {result : Option ResultSet}
    (h : (insertPlan E s t (insertOne table columns exprs) wc).2 = .ok result) : ∃ image n,
      stageInsert E s t.schema (insertOne table columns exprs) wc = .ok ([image], n) ∧
      (insertPlan E s t (insertOne table columns exprs) wc).1 = [.added image] := by
  unfold insertPlan at h ⊢
  cases hstaged : stagedRows E s t (insertOne table columns exprs) wc with
  | error e =>
    rw [hstaged] at h
    cases h
  | ok p =>
    obtain ⟨staged, n⟩ := p
    rw [hstaged] at h
    obtain ⟨⟨staged', n'⟩, hstage, hcheck⟩ := Except.bind_eq_ok.1 hstaged
    obtain ⟨_, -, hpure⟩ := Except.bind_eq_ok.1 hcheck
    cases hpure
    obtain ⟨image, rfl⟩ := stageInsert_one hstage
    refine ⟨image, n, hstage, ?_⟩
    dsimp only at h ⊢
    have hadded := @insertWrites_staged E t s.committedLsn (insertOne table columns exprs) wc [image] rfl
    cases hwrites : insertWrites E t s.committedLsn (insertOne table columns exprs) wc [image] with
    | mk ws res =>
      rw [hwrites] at h hadded
      cases res with
      | error e => cases h
      | ok u => exact hadded rfl

theorem dmlPlan_insert {s : Store} {t : Table} {wc : WriteCtx} {st : InsertStmt} (ht : s.table st.table = some t) :
    dmlPlan E (.insert st) wc s = insertPlan E s t st wc := by
  simp only [dmlPlan, DmlStmt.table, ht]

/-- An INSERT of one row that ends well writes the row it stages. -/
theorem runDml_one {s : Store} {wc : WriteCtx} {m : Mutation}
    (h : (runDml E (.insert (insertOne table columns exprs)) wc s).1 = .ok m) :
    ∃ t image n, s.table table = some t ∧
      stageInsert E s t.schema (insertOne table columns exprs) wc = .ok ([image], n) ∧
      (dmlPlan E (.insert (insertOne table columns exprs)) wc s).1 = [.added image] ∧ m.wal ≠ [] := by
  obtain ⟨hanswer, -⟩ := runDml_plan E (.insert (insertOne table columns exprs)) wc s
  rw [h] at hanswer
  have hplan : ∃ result, (dmlPlan E (.insert (insertOne table columns exprs)) wc s).2 = .ok result ∧
      m.wal = (opsFrom (nextVidOf s table) (dmlPlan E (.insert (insertOne table columns exprs)) wc s).1).map (toWal table) := by
    unfold Plan.answer at hanswer
    cases hres : (dmlPlan E (.insert (insertOne table columns exprs)) wc s).2 with
    | error e =>
      rw [hres] at hanswer
      cases hanswer
    | ok result =>
      rw [hres] at hanswer
      exact ⟨result, rfl, congrArg Mutation.wal (Except.ok.inj hanswer)⟩
  obtain ⟨result, hresult, hwal⟩ := hplan
  cases ht : s.table table with
  | none =>
    have hnone : s.table (DmlStmt.insert (insertOne table columns exprs)).table = none := ht
    simp [dmlPlan_of_none hnone] at hresult
  | some t =>
    rw [dmlPlan_insert (show s.table (insertOne table columns exprs).table = some t from ht)] at hresult hwal ⊢
    obtain ⟨image, n, hstage, hwrites⟩ := insertPlan_one hresult
    refine ⟨t, image, n, rfl, hstage, hwrites, ?_⟩
    rw [hwal, hwrites]
    simp [opsFrom]

/-- Nothing more of the stored versions is seen later on. -/
theorem visible_later {rows : Mvcc.Rows Row} {top c : Nat} (h : ∀ r ∈ rows, r.WF top) (htop : top ≤ c) (hc : c < PENDING) :
    rows.visible c = rows.visible top := by
  have hsame : ∀ r ∈ rows, r.visibleToReader c = r.visibleToReader top := by
    intro r hr
    obtain ⟨hcreate, hdelete, -, -⟩ := h r hr
    rw [Bool.eq_iff_iff]
    simp only [Mvcc.Version.visibleToReader, Bool.and_eq_true, Bool.or_eq_true, decide_eq_true_eq, beq_iff_eq]
    omega
  rw [Mvcc.Rows.visible, Mvcc.Rows.visible, List.filter_congr hsame]

/-- A row inserted by a writer of its own and published is seen after the others. -/
theorem visible_inserted {rows : Mvcc.Rows Row} {top o c vid : Nat} {image : Row} (h : ∀ r ∈ rows, r.WF top)
    (ho : Mvcc.Rows.Untouched o rows) (htop : top ≤ c) (hc : c < PENDING) :
    ((rows.pendAll o [.insert vid image]).finalize o c).visible c = rows.visible top ++ [(vid, image)] := by
  have hpend : rows.pendAll o [.insert vid image] = rows ++ [⟨vid, image, PENDING, 0, o⟩] := rfl
  have hfinal : (rows.pendAll o [.insert vid image]).finalize o c = rows ++ [⟨vid, image, c, 0, 0⟩] := by
    rw [hpend, Mvcc.Rows.finalize, List.map_append]
    refine congrArg₂ (· ++ ·) (Mvcc.Rows.finalize_untouched ho) ?_
    have hzero : (0 : ℕ) ≠ PENDING := by decide
    simp [Mvcc.Version.finalize, hzero]
  rw [hfinal, ← visible_later h htop hc]
  simp [Mvcc.Rows.visible, Mvcc.Version.visibleToReader]

/-- **An INSERT of one row that succeeds commits the row it stages, after the rows that were
there.** -/
theorem execDml_insert {s : Solo} (hinv : Sys.Inv s.sys) (h : AtRest s.sys) {args : List Value} {rs : ResultSet}
    (hok : (execDml E s (.insert (insertOne table columns exprs)) args).1 = .ok rs) :
    ∃ t image n vid, s.sys.store.table table = some t ∧
      stageInsert E s.sys.store t.schema (insertOne table columns exprs) (s.writeCtx args) = .ok ([image], n) ∧
      ∀ k, (execDml E s (.insert (insertOne table columns exprs)) args).2.sys.committed k =
        if k = Store.key table then s.sys.committed k ++ [(vid, image)] else s.sys.committed k := by
  obtain ⟨-, hstore⟩ := execDml_ran h E (.insert (insertOne table columns exprs)) args
  rw [hok] at hstore
  obtain ⟨m, hm, hstore⟩ := hstore
  obtain ⟨t, image, n, ht, hstage, hwrites, hwal⟩ := runDml_one hm
  have hops : dmlOps E (.insert (insertOne table columns exprs)) (s.writeCtx args) s.sys.store =
      [.insert (nextVidOf s.sys.store table) image] := by
    rw [dmlOps, hwrites]
    rfl
  rcases hstore with ⟨hnil, -⟩ | ⟨-, first, hfirst, hroom, hstore⟩
  · exact absurd hnil hwal
  refine ⟨t, image, n, nextVidOf s.sys.store table, ht, hstage, fun k => ?_⟩
  have hlsn : s.sys.store.committedLsn ≤ first + m.wal.length := by
    have hcommitted := hinv.committed
    omega
  have hcommitted : (publishedStore s.sys (runDml E (.insert (insertOne table columns exprs)) (s.writeCtx args)
      s.sys.store).2 m.wal first).committedLsn = first + m.wal.length := by
    change max (Store.finalizeOwner _ _ _).committedLsn _ = _
    rw [(Store.finalizeOwner_eq _ _).committedLsn]
    change max (runDml E _ (s.writeCtx args) s.sys.store).2.store.committedLsn _ = _
    rw [Sys.committedLsn_runDml, max_eq_right hlsn]
  rw [Sys.committed, hstore, hcommitted]
  change ((Store.finalizeOwner _ _ _).rowsAt k).visible _ = _
  rw [Store.rowsAt_finalizeOwner, runDml_rowsAt, hops]
  have hold : ∀ r ∈ s.sys.store.rowsAt k, r.WF s.sys.store.committedLsn := fun r hr => hinv.version hr
  have hfresh : Mvcc.Rows.Untouched s.sys.nextOwner (s.sys.store.rowsAt k) := hinv.drawn _ le_rfl k
  by_cases hk : k = Store.key table
  · rw [if_pos hk, if_pos (show k = Store.key (DmlStmt.insert (insertOne table columns exprs)).table from hk)]
    exact visible_inserted hold hfresh hlsn hroom
  · rw [if_neg hk, if_neg (show k ≠ Store.key (DmlStmt.insert (insertOne table columns exprs)).table from hk),
      Mvcc.Rows.finalize_untouched hfresh]
    exact visible_later hold hlsn hroom

end Solo

end Twill
