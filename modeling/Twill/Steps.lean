/-
What a step of the system can do, case by case.

`Stepped σ a τ` lists every way an enabled action changes the system, with its
guards; `stepped_of_step` is the inversion of `step`. Invariants of runs are
proved by cases on it.
-/
import Twill.Conn
import Twill.PlanFacts

namespace Twill

open Mvcc (PENDING)

/-- The connection whose stamps an action adds or clears. -/
def Act.actor : Act → Option Nat
  | .dml c .. => some c
  | .rollback c => some c
  | .rollbackTo c _ => some c
  | _ => none

/-- The phase an autocommit or explicit statement leaves its connection in. -/
def phaseAfter (phase after : Phase) : Phase := if phase = .starting then after else .idle

inductive Stepped (σ : Sys) : Act → Sys → Prop where
  | begin {c : Nat} (hconn : σ.conns c = ⟨none, .idle⟩) : Stepped σ (.begin c) (σ.openTxn c .idle)
  | startImplicit {c : Nat} (hconn : σ.conns c = ⟨none, .idle⟩) :
      Stepped σ (.startImplicit c) (σ.openTxn c .starting)
  | dml {c : Nat} {t : Txn} {phase : Phase} {E : Env} {st : DmlStmt} {params : List Value} {m : Mutation}
      {w : Write} (hconn : σ.conns c = ⟨some t, phase⟩) (hphase : phase = .idle ∨ phase = .starting)
      (hlane : t.writer = true ∨ σ.lane = none)
      (hrun : runDml E st ⟨t.snapshot, t.owner, params⟩ σ.store = (.ok m, w)) :
      Stepped σ (.dml c E st params) (Sys.setConn { σ with store := w.store, lane := some c } c
        ⟨some { t with writer := true, walOps := t.walOps ++ m.wal }, phaseAfter phase .committing⟩)
  | dmlFail {c : Nat} {t : Txn} {phase : Phase} {E : Env} {st : DmlStmt} {params : List Value}
      {e : EngineError} {w : Write} (hconn : σ.conns c = ⟨some t, phase⟩)
      (hphase : phase = .idle ∨ phase = .starting) (hlane : t.writer = true ∨ σ.lane = none)
      (hrun : runDml E st ⟨t.snapshot, t.owner, params⟩ σ.store = (.error (.err e), w)) :
      Stepped σ (.dml c E st params) (Sys.setConn { σ with store := w.store, lane := some c } c
        ⟨some { t with writer := true }, phaseAfter phase .undoing⟩)
  | commitIdle {c : Nat} {t : Txn} {phase : Phase} (hconn : σ.conns c = ⟨some t, phase⟩)
      (hwriter : t.writer = false) : Stepped σ (.commit c) (σ.setConn c ⟨none, .idle⟩)
  | commitEmpty {c : Nat} {t : Txn} {phase : Phase} (hconn : σ.conns c = ⟨some t, phase⟩)
      (hwriter : t.writer = true) (hops : t.walOps = []) :
      Stepped σ (.commit c) { σ.setConn c ⟨none, .idle⟩ with lane := none }
  | enqueue {c : Nat} {t : Txn} {phase : Phase} (hconn : σ.conns c = ⟨some t, phase⟩)
      (hwriter : t.writer = true) (hops : t.walOps ≠ []) :
      Stepped σ (.commit c) { σ.setConn c ⟨none, .waiting t.owner⟩ with
        lane := none, queue := σ.queue ++ [⟨t.owner, t.walOps⟩] }
  | rollbackIdle {c : Nat} {t : Txn} {phase : Phase} (hconn : σ.conns c = ⟨some t, phase⟩)
      (hwriter : t.writer = false) : Stepped σ (.rollback c) (σ.setConn c ⟨none, .idle⟩)
  | rollback {c : Nat} {t : Txn} {phase : Phase} (hconn : σ.conns c = ⟨some t, phase⟩)
      (hwriter : t.writer = true) :
      Stepped σ (.rollback c) { σ.setConn c ⟨none, .idle⟩ with
        store := σ.store.rollbackOwner t.owner, lane := none }
  | savepoint {c : Nat} {t : Txn} {name : String} (hconn : σ.conns c = ⟨some t, .idle⟩) :
      Stepped σ (.savepoint c name) (σ.setConn c ⟨some { t with savepoints := t.savepoints ++
        [⟨name, (σ.store.pendingSnapshot t.owner).1, (σ.store.pendingSnapshot t.owner).2, t.walOps.length⟩] },
        .idle⟩)
  | release {c : Nat} {t : Txn} {name : String} {i : Nat} (hconn : σ.conns c = ⟨some t, .idle⟩)
      (hat : Sys.savepointAt t name = some i) :
      Stepped σ (.release c name) (σ.setConn c ⟨some { t with savepoints := t.savepoints.take i }, .idle⟩)
  | rollbackTo {c : Nat} {t : Txn} {name : String} {i : Nat} {sp : Savepoint}
      (hconn : σ.conns c = ⟨some t, .idle⟩) (hat : Sys.savepointAt t name = some i)
      (hsp : t.savepoints[i]? = some sp) :
      Stepped σ (.rollbackTo c name) (Sys.setConn { σ with
        store := if t.writer then σ.store.rollbackToSavepoint t.owner sp.inserted sp.deleted else σ.store } c
        ⟨some { t with walOps := t.walOps.take sp.walLen, savepoints := t.savepoints.take (i + 1) }, .idle⟩)
  | resume {c owner : Nat} (hconn : σ.conns c = ⟨none, .waiting owner⟩)
      (hdone : ∀ m ∈ σ.inFlight, m.owner ≠ owner) : Stepped σ (.resume c) (σ.setConn c ⟨none, .idle⟩)
  | drain (hflush : σ.flush = .none) (hqueue : σ.queue ≠ []) :
      Stepped σ .drain { σ with
        queue := (Sys.drainBatch σ.queue).2, flush := .drained (Sys.drainBatch σ.queue).1 }
  | append {first : Nat} {ms : List Member} (hflush : σ.flush = .drained ms) (hfirst : σ.nextLsn ≤ first)
      (hlast : first + (Sys.batchRecords ms).length ≤ PENDING) :
      Stepped σ (.append first) { σ with
        log := σ.log ++ Sys.numberFrom first (Sys.batchRecords ms)
        nextLsn := first + (Sys.batchRecords ms).length
        flush := .appended ms first }
  | appendFail {ms : List Member} (hflush : σ.flush = .drained ms) :
      Stepped σ .appendFail { σ with flush := .failed ms }
  | publish {ms : List Member} {first : Nat} (hflush : σ.flush = .appended ms first) :
      Stepped σ .publish (σ.publish ms first)
  | discard {ms : List Member} (hflush : σ.flush = .failed ms) : Stepped σ .discard (σ.discard ms)
  | ddlNothing {c : Nat} {E : Env} {st : DdlStmt} {outcome : Option Nat} :
      Stepped σ (.ddl c E st outcome) σ
  | ddl {c : Nat} {E : Env} {st : DdlStmt} {op : WalOp} {first : Nat} (hlane : σ.lane = none)
      (hflush : σ.flush = .none) (hqueue : σ.queue = []) (hplan : planDdl E σ.store st = .ok (some op))
      (hfirst : σ.nextLsn ≤ first) (hlast : first + 2 ≤ PENDING) :
      Stepped σ (.ddl c E st (some first)) { σ with
        log := σ.log ++ Sys.numberFrom first [op, .commit]
        nextLsn := first + 2
        store := { applyDdl E st σ.store op with
          committedLsn := max (applyDdl E st σ.store op).committedLsn (first + 1) } }
  | otherOwner : Stepped σ .otherOwner { σ with nextOwner := σ.nextOwner + 1 }

variable {σ τ : Sys}

theorem stepped_execDml {c : Nat} {t : Txn} {implicit : Bool} {E : Env} {st : DmlStmt} {params : List Value}
    (hconn : σ.conns c = ⟨some t, if implicit then .starting else .idle⟩) (hlane : σ.laneFor t = true)
    (h : σ.execDml c t implicit E st params = some τ) : Stepped σ (.dml c E st params) τ := by
  have hlane : t.writer = true ∨ σ.lane = none := by simpa [Sys.laneFor] using hlane
  have hphase : (if implicit then Phase.starting else .idle) = .idle ∨
      (if implicit then Phase.starting else .idle) = .starting := by cases implicit <;> simp
  have hafter : ∀ after : Phase, phaseAfter (if implicit then Phase.starting else .idle) after =
      if implicit then after else .idle := fun after => by cases implicit <;> rfl
  simp only [Sys.execDml] at h
  cases hrun : runDml E st ⟨t.snapshot, t.owner, params⟩ σ.store with
  | mk res w =>
    rw [hrun] at h
    cases res with
    | ok m =>
      have hstep := Stepped.dml hconn hphase hlane hrun
      rw [hafter] at hstep
      exact Option.some.inj h ▸ hstep
    | error e =>
      cases e with
      | err e =>
        have hstep := Stepped.dmlFail hconn hphase hlane hrun
        rw [hafter] at hstep
        exact Option.some.inj h ▸ hstep
      | panic => simp at h
      | fuel => simp at h

theorem stepped_finishCommit {c : Nat} {t : Txn} {phase : Phase} (hconn : σ.conns c = ⟨some t, phase⟩) :
    Stepped σ (.commit c) (σ.finishCommit c t) := by
  rw [Sys.finishCommit]
  cases hw : t.writer with
  | false => exact .commitIdle hconn hw
  | true =>
    simp only [Bool.not_true, Bool.false_eq_true, if_false, List.isEmpty_iff]
    split
    · next hops => exact .commitEmpty hconn hw hops
    · next hops => exact .enqueue hconn hw hops

theorem stepped_rollbackTxn {c : Nat} {t : Txn} {phase : Phase} (hconn : σ.conns c = ⟨some t, phase⟩) :
    Stepped σ (.rollback c) (σ.rollbackTxn c t) := by
  rw [Sys.rollbackTxn]
  split
  · next hw => exact .rollback hconn hw
  · next hw => exact .rollbackIdle hconn (by simpa using hw)

theorem stepped_ddl {c : Nat} {E : Env} {st : DdlStmt} {outcome : Option Nat} (hlane : σ.lane = none)
    (hflush : σ.flush = .none) (hqueue : σ.queue = []) (h : σ.execDdl E st outcome = some τ) :
    Stepped σ (.ddl c E st outcome) τ := by
  simp only [Sys.execDdl] at h
  split at h
  · obtain rfl := Option.some.inj h
    exact .ddlNothing
  · simp at h
  · obtain rfl := Option.some.inj h
    exact .ddlNothing
  · next op hplan =>
    split at h
    · obtain rfl := Option.some.inj h
      exact .ddlNothing
    · next first =>
      obtain ⟨τ', happend, rfl⟩ := Option.map_eq_some_iff.1 h
      simp only [Sys.appendLog] at happend
      split at happend
      · next hcond =>
        obtain rfl := Option.some.inj happend
        exact .ddl hlane hflush hqueue hplan hcond.1 hcond.2
      · simp at happend

/-- **Every step is one of the listed ones.** -/
theorem stepped_of_step {a : Act} (h : step σ a = some τ) : Stepped σ a τ := by
  cases a with
  | begin c =>
    simp only [step] at h
    split at h
    · next hconn =>
      obtain rfl := Option.some.inj h
      exact .begin hconn
    · simp at h
  | startImplicit c =>
    simp only [step] at h
    split at h
    · next hconn =>
      obtain rfl := Option.some.inj h
      exact .startImplicit hconn
    · simp at h
  | dml c E st params =>
    simp only [step] at h
    split at h
    · next t hconn =>
      split at h
      · next hlane => exact stepped_execDml hconn hlane h
      · simp at h
    · next t hconn =>
      split at h
      · next hlane => exact stepped_execDml hconn hlane h
      · simp at h
    · simp at h
  | commit c =>
    simp only [step] at h
    split at h
    · next hconn =>
      obtain rfl := Option.some.inj h
      exact stepped_finishCommit hconn
    · next hconn =>
      obtain rfl := Option.some.inj h
      exact stepped_finishCommit hconn
    · simp at h
  | rollback c =>
    simp only [step] at h
    split at h
    · next hconn =>
      obtain rfl := Option.some.inj h
      exact stepped_rollbackTxn hconn
    · next hconn =>
      obtain rfl := Option.some.inj h
      exact stepped_rollbackTxn hconn
    · simp at h
  | savepoint c name =>
    simp only [step] at h
    split at h
    · next hconn =>
      obtain rfl := Option.some.inj h
      exact .savepoint hconn
    · simp at h
  | release c name =>
    simp only [step] at h
    split at h
    · next hconn =>
      obtain ⟨i, hat, rfl⟩ := Option.map_eq_some_iff.1 h
      exact .release hconn hat
    · simp at h
  | rollbackTo c name =>
    simp only [step] at h
    split at h
    · next hconn =>
      simp only [Sys.rollbackTo] at h
      split at h
      · simp at h
      · next i hat =>
        split at h
        · simp at h
        · next sp hsp =>
          obtain rfl := Option.some.inj h
          exact .rollbackTo hconn hat hsp
    · simp at h
  | resume c =>
    simp only [step] at h
    split at h
    · next hconn =>
      split at h
      · simp at h
      · next hdone =>
        obtain rfl := Option.some.inj h
        refine .resume hconn fun m hm heq => hdone ?_
        exact List.any_eq_true.2 ⟨m, hm, by simpa using heq⟩
    · simp at h
  | drain =>
    simp only [step] at h
    split at h
    · next hflush hqueue =>
      obtain rfl := Option.some.inj h
      rw [← hqueue]
      exact .drain hflush (by simp [hqueue])
    · simp at h
  | append first =>
    simp only [step] at h
    split at h
    · next ms hflush =>
      obtain ⟨τ', happend, rfl⟩ := Option.map_eq_some_iff.1 h
      simp only [Sys.appendLog] at happend
      split at happend
      · next hcond =>
        obtain rfl := Option.some.inj happend
        exact .append hflush hcond.1 hcond.2
      · simp at happend
    · simp at h
  | appendFail =>
    simp only [step] at h
    split at h
    · next ms hflush =>
      obtain rfl := Option.some.inj h
      exact .appendFail hflush
    · simp at h
  | publish =>
    simp only [step] at h
    split at h
    · next hflush =>
      obtain rfl := Option.some.inj h
      exact .publish hflush
    · simp at h
  | discard =>
    simp only [step] at h
    split at h
    · next hflush =>
      obtain rfl := Option.some.inj h
      exact .discard hflush
    · simp at h
  | ddl c E st outcome =>
    simp only [step] at h
    split at h
    · split at h
      · next hcond =>
        obtain ⟨hlane, hq⟩ : σ.lane = none ∧ σ.quiesced = true := by simpa using hcond
        simp only [Sys.quiesced] at hq
        split at hq
        · next hflush => exact stepped_ddl hlane hflush (by simpa using hq) h
        · simp at hq
      · simp at h
    · simp at h
  | otherOwner =>
    obtain rfl := Option.some.inj h
    exact .otherOwner

/-! ## Runs -/

/-- A run whose every step satisfies `P` in the system it starts from. -/
inductive RunWhere (P : Sys → Act → Prop) : Sys → Sys → Prop where
  | nil (σ : Sys) : RunWhere P σ σ
  | snoc {σ τ υ : Sys} {a : Act} : RunWhere P σ τ → P τ a → step τ a = some υ → RunWhere P σ υ

theorem RunWhere.run {P : Sys → Act → Prop} (h : RunWhere P σ τ) : ∃ acts, Run σ acts τ := by
  induction h with
  | nil => exact ⟨[], .nil _⟩
  | @snoc _ _ a _ _ hstep ih =>
    obtain ⟨acts, hacts⟩ := ih
    exact ⟨acts ++ [a], .snoc hacts hstep⟩

theorem RunWhere.mono {P Q : Sys → Act → Prop} (h : ∀ υ a, P υ a → Q υ a) {σ τ : Sys} (hrun : RunWhere P σ τ) :
    RunWhere Q σ τ := by
  induction hrun with
  | nil => exact .nil _
  | snoc _ hsat hstep ih => exact .snoc ih (h _ _ hsat) hstep

theorem RunWhere.trans {P : Sys → Act → Prop} {σ τ υ : Sys} (h : RunWhere P σ τ) (h' : RunWhere P τ υ) :
    RunWhere P σ υ := by
  induction h' with
  | nil => exact h
  | snoc _ hsat hstep ih => exact .snoc ih hsat hstep

/-- The system after actions that are enabled in turn. -/
def Sys.after (σ : Sys) (acts : List Act) : Sys := (acts.foldlM step σ).getD σ

theorem run_of_foldlM {acts : List Act} (h : acts.foldlM step σ = some τ) : Run σ acts τ := by
  induction acts using List.reverseRecOn generalizing τ with
  | nil =>
    obtain rfl := Option.some.inj h
    exact .nil σ
  | append_singleton acts a ih =>
    rw [List.foldlM_append] at h
    obtain ⟨υ, hacts, h⟩ := Option.bind_eq_some_iff.1 h
    have hlast : step υ a = some τ := by simpa using h
    exact .snoc (ih hacts) hlast

theorem run_after {acts : List Act} (h : (acts.foldlM step σ).isSome = true) : Run σ acts (σ.after acts) := by
  obtain ⟨τ, hτ⟩ := Option.isSome_iff_exists.1 h
  have hafter : σ.after acts = τ := by simp [Sys.after, hτ]
  rw [hafter]
  exact run_of_foldlM hτ

/-- The actions are enabled in turn, each satisfying `P`. -/
def StepsWhere (P : Sys → Act → Prop) : Sys → List Act → Prop
  | _, [] => True
  | σ, a :: acts => P σ a ∧ match step σ a with
    | none => False
    | some τ => StepsWhere P τ acts

theorem RunWhere.after {P : Sys → Act → Prop} {υ : Sys} {acts : List Act} (hrun : RunWhere P σ υ)
    (h : StepsWhere P υ acts) : RunWhere P σ (υ.after acts) := by
  induction acts generalizing υ with
  | nil => exact hrun
  | cons a acts ih =>
    obtain ⟨hP, h⟩ := h
    cases hstep : step υ a with
    | none => simp [hstep] at h
    | some τ =>
      rw [hstep] at h
      have hne : ∃ τ', acts.foldlM step τ = some τ' := by
        clear ih hrun hstep hP
        induction acts generalizing τ with
        | nil => exact ⟨τ, rfl⟩
        | cons a acts ih =>
          obtain ⟨-, h⟩ := h
          cases hstep : step τ a with
          | none => simp [hstep] at h
          | some τ' =>
            rw [hstep] at h
            obtain ⟨τ'', hτ''⟩ := ih τ' h
            exact ⟨τ'', by simp [List.foldlM_cons, hstep, hτ'']⟩
      obtain ⟨τ', hτ'⟩ := hne
      have hafter : υ.after (a :: acts) = τ.after acts := by
        simp [Sys.after, List.foldlM_cons, hstep, hτ']
      rw [hafter]
      exact ih (.snoc hrun hP hstep) h

end Twill
