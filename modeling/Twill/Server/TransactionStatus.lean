/-
The transaction status a session reports (`session.rs`: `status`, `fail`,
`simple_query`, `run_simple_one`, `execute`).

The status is read from the engine and a flag of the session. The flag is set by an
error inside a transaction and cleared when a statement that succeeded left none open,
but not when a transaction ends otherwise, nor when one begins.
-/
import Twill.Lib.Transition
import Twill.Server.Session

namespace Twill.Server

open Transition

variable {σ : Type} {E : Engine σ} {K : Codec} {w : World σ} {m : Frontend}

/-- What the events of a session say of its transaction: whether one is open, and whether
something failed since it began. -/
structure TxnView where
  isOpen : Bool
  hasFailed : Bool

def TxnView.next (v : TxnView) : Event → TxnView
  | .ran _ _ before after _ => ⟨after, before && after && v.hasFailed⟩
  | .failed _ => ⟨v.isOpen, v.hasFailed || v.isOpen⟩
  | .sent _ | .ready _ => v

def TxnView.status (v : TxnView) : Status :=
  if !v.isOpen then .idle else if v.hasFailed then .failed else .active

/-- The view after some events, from none open. -/
def txnView (log : List Event) : TxnView := log.foldl TxnView.next ⟨false, false⟩

/-- Every `ReadyForQuery` of a log carries the status of the events before it. -/
def Truthful (log : List Event) : Prop :=
  ∀ i status, log[i]? = some (.ready status) → status = (txnView (log.take i)).status

/-- A statement that begins a transaction finds none marked as failed. -/
def BeginsFresh : Event → Prop
  | .ran _ _ before after flagged => before = false → after = true → flagged = false
  | _ => True

theorem txnView_append (log : List Event) (e : Event) : txnView (log ++ [e]) = (txnView log).next e := by
  simp [txnView]

theorem truthful_append {log : List Event} {e : Event} (h : Truthful log)
    (he : ∀ status, e = .ready status → status = (txnView log).status) : Truthful (log ++ [e]) := by
  intro i status hi
  rcases Nat.lt_trichotomy i log.length with hlt | rfl | hgt
  · rw [List.getElem?_append_left hlt] at hi
    rw [List.take_append_of_le_length hlt.le]
    exact h i status hi
  · rw [List.getElem?_append_right (Nat.le_refl _), Nat.sub_self] at hi
    rw [List.take_left]
    exact he status (Option.some.inj hi)
  · rw [List.getElem?_eq_none (by simp; omega)] at hi
    cases hi

/-- Where every transaction began fresh, the log shows what the engine and the flag hold. -/
structure Shown (E : Engine σ) (w : World σ) : Prop where
  isOpen : (txnView w.log).isOpen = E.inTransaction w.engine
  hasFailed : E.inTransaction w.engine = true → (txnView w.log).hasFailed = w.failedTxn
  truthful : Truthful w.log

theorem shown_status (h : Shown E w) : w.status E = (txnView w.log).status := by
  unfold World.status TxnView.status
  rw [h.isOpen]
  cases hopen : E.inTransaction w.engine with
  | false => rfl
  | true => rw [h.hasFailed hopen]

theorem shown_ready (h : Shown E w) : Shown E (w.ready E) := by
  refine ⟨?_, ?_, truthful_append h.truthful fun status hstatus => ?_⟩
  · rw [World.ready, txnView_append]
    exact h.isOpen
  · intro hopen
    rw [World.ready, txnView_append]
    exact h.hasFailed hopen
  · rw [← Event.ready.inj hstatus]
    exact shown_status h

theorem shown_answer {extended : Bool} (o : Op) (h : (∀ e ∈ w.log, BeginsFresh e) → Shown E w)
    (hfresh : ∀ e ∈ (w.answer E extended o).2.log, BeginsFresh e) : Shown E (w.answer E extended o).2 := by
  have hlog : ∀ e ∈ w.log, BeginsFresh e := by
    intro e he
    refine hfresh e ?_
    cases o with
    | engine o => cases o <;> simp [World.answer, World.ask, he]
    | _ => simp [World.answer, he]
  obtain ⟨hopen, hfailed, htruthful⟩ := h hlog
  cases o with
  | send m =>
    refine ⟨?_, ?_, truthful_append htruthful (by simp)⟩
    · rw [World.answer, txnView_append]
      exact hopen
    · rw [World.answer, txnView_append]
      exact hfailed
  | error fault =>
    refine ⟨?_, ?_, truthful_append htruthful (by simp)⟩
    · rw [World.answer, txnView_append]
      exact hopen
    · intro htxn
      rw [World.answer] at htxn ⊢
      rw [txnView_append]
      simp only [TxnView.next, hopen, htxn, Bool.or_true]
  | engine o => cases o with
    | run stmt args =>
      have hbegin := hfresh (.ran stmt args (E.inTransaction w.engine) (E.inTransaction (E.run w.engine stmt args).2)
        w.failedTxn) (by simp [World.answer, World.ask])
      refine ⟨?_, ?_, truthful_append htruthful (by simp)⟩
      · rw [World.answer, World.ask, txnView_append]
        rfl
      · intro htxn
        rw [World.answer, World.ask] at htxn ⊢
        rw [txnView_append]
        simp only [TxnView.next, htxn, Bool.and_true]
        cases hbefore : E.inTransaction w.engine with
        | true => exact hfailed hbefore
        | false => exact (hbegin hbefore htxn).symm
    | _ => exact ⟨hopen, hfailed, htruthful⟩
  | settle =>
    refine ⟨hopen, fun htxn => ?_, htruthful⟩
    rw [World.answer]
    have htxn : E.inTransaction w.engine = true := htxn
    rw [hfailed htxn, htxn, Bool.and_true]
  | _ => exact ⟨hopen, hfailed, htruthful⟩

theorem shown_turn (h : (∀ e ∈ w.log, BeginsFresh e) → Shown E w) (m : Frontend)
    (hfresh : ∀ e ∈ (w.turn E K m).log, BeginsFresh e) : Shown E (w.turn E K m) := by
  have hhandler := Program.run_invariant (h := World.answer E m.extended)
    (I := fun v : World σ => (∀ e ∈ v.log, BeginsFresh e) → Shown E v)
    (fun o v hv => shown_answer o hv) (handler E K m) h
  have hready (v : World σ) (hv : (∀ e ∈ v.log, BeginsFresh e) → Shown E v)
      (hlog : ∀ e ∈ (v.ready E).log, BeginsFresh e) : Shown E (v.ready E) :=
    shown_ready (hv fun e he => hlog e (by simp [World.ready, he]))
  unfold World.turn at hfresh ⊢
  cases m with
  | query sql => exact hready _ hhandler hfresh
  | sync =>
    refine hready _ (fun hlog => ?_) hfresh
    obtain ⟨hopen, hfailed, htruthful⟩ := hhandler hlog
    exact ⟨hopen, hfailed, htruthful⟩
  | _ => exact hhandler hfresh

/-- The turn begins no transaction while one is still marked as failed. -/
def NoStaleBegin (E : Engine σ) (K : Codec) (w : World σ) (m : Frontend) : Prop :=
  ∀ e ∈ (w.turn E K m).log.drop w.log.length, BeginsFresh e

theorem turn_log_prefix (w : World σ) (m : Frontend) : w.log <+: (w.turn E K m).log := by
  have hhandler : w.log <+: ((handler E K m).run (World.answer E m.extended) w).2.log := by
    refine Program.run_invariant (I := fun v : World σ => w.log <+: v.log) (fun o v hv => ?_) _ (List.prefix_refl _)
    cases o with
    | engine o => cases o <;> first | exact hv | exact hv.trans (List.prefix_append _ _)
    | _ => first | exact hv | exact hv.trans (List.prefix_append _ _)
  unfold World.turn
  cases m <;> first | exact hhandler | exact hhandler.trans (List.prefix_append _ _)

/-- **The transaction status.** In every run of a session that begins no transaction while
one is marked as failed, every `ReadyForQuery` tells whether the engine has a transaction
open and whether anything failed since it began. -/
theorem transaction_status {engine : σ} (hidle : E.inTransaction engine = false)
    (hrun : RunWhere (World.step E K) (NoStaleBegin E K) (World.init E engine) w) :
    Truthful w.log ∧ (txnView w.log).isOpen = E.inTransaction w.engine := by
  have hboth : (∀ e ∈ w.log, BeginsFresh e) ∧ Shown E w := by
    refine hrun.invariant (I := fun w => (∀ e ∈ w.log, BeginsFresh e) ∧ Shown E w) ?_ fun w v m hw hfresh hstep => ?_
    · have hinit : Shown E (⟨engine, ∅, ∅, false, false, false, []⟩ : World σ) :=
        ⟨hidle.symm, fun hopen => absurd (hidle.symm.trans hopen) (by simp), fun i status h => by simp at h⟩
      exact ⟨by simp [World.init, World.ready, BeginsFresh], shown_ready hinit⟩
    · obtain ⟨hlog, hshown⟩ := hw
      obtain rfl : w.turn E K m = v := by
        unfold World.step at hstep
        split at hstep
        · cases hstep
        · exact Option.some.inj hstep
      have hnext : ∀ e ∈ (w.turn E K m).log, BeginsFresh e := by
        obtain ⟨es, hes⟩ := turn_log_prefix (E := E) (K := K) w m
        intro e he
        rw [NoStaleBegin, ← hes, List.drop_left] at hfresh
        rw [← hes] at he
        rcases List.mem_append.1 he with he | he
        · exact hlog e he
        · exact hfresh e he
      exact ⟨hnext, shown_turn (fun _ => hshown) m hnext⟩
  exact ⟨hboth.2.truthful, hboth.2.isOpen⟩

/-- A `BEGIN`, then a text that does not parse. -/
theorem transaction_status_failed :
    let w := ((World.init Engine.ledger (false, [])).turn Engine.ledger Codec.ascii (.query "BEGIN".toList)).turn
      Engine.ledger Codec.ascii (.query "oops".toList)
    Truthful w.log ∧ (txnView w.log).isOpen = true := by
  intro w
  let first := (World.init Engine.ledger (false, [])).turn Engine.ledger Codec.ascii (.query "BEGIN".toList)
  have hbegin : World.step Engine.ledger Codec.ascii (World.init Engine.ledger (false, [])) (.query "BEGIN".toList) =
    some first := rfl
  have hoops : World.step Engine.ledger Codec.ascii first (.query "oops".toList) = some w := rfl
  have hidle : Engine.ledger.inTransaction (false, []) = false := rfl
  refine transaction_status hidle ((RunWhere.nil.snoc ?_ hbegin).snoc ?_ hoops)
  · intro e he
    have he : e ∈ [Event.ran .begin [] false true false, .sent (.commandComplete "BEGIN"), .ready .active] := he
    simp only [List.mem_cons, List.not_mem_nil, or_false] at he
    rcases he with rfl | rfl | rfl
    · exact fun _ _ => rfl
    · trivial
    · trivial
  · intro e he
    have he : e ∈ [Event.failed ("42601", "unsupported statement starting at Word(\"oops\")"), .ready .failed] := he
    simp only [List.mem_cons, List.not_mem_nil, or_false] at he
    rcases he with rfl | rfl <;> trivial

/-- A failed transaction that a `Describe` ends, then another one. -/
def staleMessages : List Frontend := [.query "BEGIN".toList, .query "oops".toList, .parse "s" "ROLLBACK".toList [],
  .bind "p" "s" [] [] [], .describe 'P' "p", .sync, .query "BEGIN".toList]

def staleWorld : World (Bool × List Stmt) :=
  staleMessages.foldl (World.turn Engine.ledger Codec.ascii) (World.init Engine.ledger (false, []))

/-- The new transaction is reported as failed, and nothing failed in it. -/
theorem transaction_status_stale :
    Reach (World.step Engine.ledger Codec.ascii) (World.init Engine.ledger (false, [])) staleWorld ∧
      staleWorld.log.getLast? = some (.ready .failed) ∧ (txnView staleWorld.log).status = .active ∧
      ¬ Truthful staleWorld.log := by
  have hview : (txnView staleWorld.log).status = .active := by decide
  refine ⟨reach_of_play .nil staleMessages rfl, by rfl, hview, fun htruthful => ?_⟩
  have hlast := htruthful (staleWorld.log.length - 1) .failed (by rfl)
  exact absurd hlast (by decide)

end Twill.Server
