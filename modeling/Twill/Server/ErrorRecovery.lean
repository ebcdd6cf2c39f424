/-
Errors of the extended protocol (`session.rs`: `fail`, the `skip_until_sync` test of
each handler, the command loop).

After an error every message up to the next `Sync` is to be ignored. The handlers of
`Close`, `Query` and of a message the server does not know do not look.
-/
import Twill.Lib.Transition
import Twill.Server.Session

namespace Twill.Server

open Transition

variable {σ : Type} {E : Engine σ} {K : Codec} {w : World σ} {m : Frontend}

def Event.isError : Event → Bool
  | .failed _ => true
  | _ => false

def Event.isReady : Event → Bool
  | .ready _ => true
  | _ => false

/-- What happens in a turn. -/
def World.events (E : Engine σ) (K : Codec) (w : World σ) (m : Frontend) : List Event :=
  (w.turn E K m).log.drop w.log.length

/-- A session, and whether a message of the extended protocol has failed since the last
`Sync`. -/
structure Tracked (σ : Type) where
  world : World σ
  inError : Bool

def Tracked.step (E : Engine σ) (K : Codec) (t : Tracked σ) (m : Frontend) : Option (Tracked σ) :=
  (t.world.step E K m).map fun w => ⟨w, match m with
    | .sync => false
    | .query _ => t.inError
    | _ => t.inError || (t.world.events E K m).any Event.isError⟩

def Tracked.init (E : Engine σ) (engine : σ) : Tracked σ := ⟨World.init E engine, false⟩

/-- How many times a message is answered with a `ReadyForQuery`. -/
def readies (inError : Bool) : Frontend → Nat
  | .sync => 1
  | .query _ => if inError then 0 else 1
  | _ => 0

/-- What error recovery asks of a turn. -/
structure Recovers (E : Engine σ) (K : Codec) (t : Tracked σ) (m : Frontend) : Prop where
  /-- Up to the next `Sync`, nothing is sent or run, and nothing is stored or dropped. -/
  silent : t.inError = true → m ≠ .sync → t.world.events E K m = [] ∧
    (t.world.turn E K m).stmts = t.world.stmts ∧ (t.world.turn E K m).portals = t.world.portals
  ready : (t.world.events E K m).countP Event.isReady = readies t.inError m

/-- The message is one whose handler looks whether to skip, or there is nothing to skip. -/
def Heeded (t : Tracked σ) (m : Frontend) : Prop := t.world.skipUntilSync = true → match m with
  | .close _ _ | .query _ | .unsupported _ => False
  | _ => True

/-- What a handler does to the log and to the skipping. -/
def Grown (extended : Bool) (w v : World σ) : Prop := ∃ es, v.log = w.log ++ es ∧ es.countP Event.isReady = 0 ∧
  v.skipUntilSync = (w.skipUntilSync || (extended && es.any Event.isError))

theorem grown_answer {extended : Bool} (o : Op) (v : World σ) (h : Grown extended w v) :
    Grown extended w (v.answer E extended o).2 := by
  obtain ⟨es, hlog, hready, hskip⟩ := h
  cases o with
  | send m =>
    exact ⟨es ++ [.sent m], by simp [World.answer, hlog], by simp [hready, Event.isReady],
      by simp [World.answer, hskip, Event.isError]⟩
  | error fault =>
    refine ⟨es ++ [.failed fault], by simp [World.answer, hlog], by simp [hready, Event.isReady], ?_⟩
    simp only [World.answer, hskip, List.any_append, List.any_cons, List.any_nil, Event.isError, Bool.or_false]
    cases extended <;> simp
  | engine o => cases o with
    | run stmt args =>
      exact ⟨es ++ [.ran stmt args (E.inTransaction v.engine) (E.inTransaction (E.run v.engine stmt args).2) v.failedTxn],
        by simp [World.answer, World.ask, hlog], by simp [hready, Event.isReady],
        by simp [World.answer, World.ask, hskip, Event.isError]⟩
    | _ => exact ⟨es, hlog, hready, hskip⟩
  | _ => exact ⟨es, hlog, hready, hskip⟩

theorem grown_handler (w : World σ) (m : Frontend) :
    Grown m.extended w ((handler E K m).run (World.answer E m.extended) w).2 :=
  Program.run_invariant (fun o v => grown_answer o v) _ ⟨[], by simp, rfl, by simp⟩

/-- The handlers that look do nothing while messages are skipped. -/
theorem handler_skipped (hskip : w.skipUntilSync = true) : match m with
    | .parse _ _ _ | .bind _ _ _ _ _ | .describe _ _ | .execute _ _ =>
      (handler E K m).run (World.answer E true) w = ((), w)
    | _ => True := by
  cases m with
  | parse => simp [handler, parse, hskip]
  | bind => simp [handler, bind, hskip]
  | describe => simp [handler, describe, hskip]
  | execute => simp [handler, executePortal, hskip]
  | _ => trivial

/-- A turn that is not skipped: its replies, and whether it starts the skipping. -/
theorem turn_events (w : World σ) (m : Frontend) :
    (w.events E K m).countP Event.isReady = readies false m ∧
      (w.turn E K m).skipUntilSync = (match m with
        | .sync => false
        | .query _ => w.skipUntilSync
        | _ => w.skipUntilSync || (w.events E K m).any Event.isError) := by
  obtain ⟨es, hlog, hready, hskip⟩ := grown_handler (E := E) (K := K) w m
  unfold World.events World.turn
  generalize ((handler E K m).run (World.answer E m.extended) w).2 = v at hlog hskip
  cases m with
  | query sql => simpa [World.ready, hlog, hready, readies, Event.isReady, Frontend.extended] using hskip
  | sync => simp [World.ready, hlog, hready, readies, Event.isReady]
  | _ => simp [hlog, hready, readies, hskip, Frontend.extended]

/-- A heeded message that is not a `Sync` leaves a skipping session as it is. -/
theorem turn_skipped {t : Tracked σ} (hheeded : Heeded t m) (hskip : t.world.skipUntilSync = true) (hsync : m ≠ .sync) :
    t.world.events E K m = [] ∧ (t.world.turn E K m).stmts = t.world.stmts ∧
      (t.world.turn E K m).portals = t.world.portals := by
  have hm := hheeded hskip
  have hhandler := handler_skipped (E := E) (K := K) (m := m) hskip
  cases m with
  | parse | bind | describe | execute => simp [World.events, World.turn, Frontend.extended, hhandler]
  | flush => simp [World.events, World.turn, handler]
  | terminate => simp [World.events, World.turn, handler, stop, Program.op, Program.run, World.answer]
  | sync => exact absurd rfl hsync
  | _ => exact absurd hm id

/-- The skipping of a session is what the errors say. -/
theorem inError_eq_skip {engine : σ} {t : Tracked σ}
    (hrun : RunWhere (Tracked.step E K) Heeded (Tracked.init E engine) t) : t.inError = t.world.skipUntilSync := by
  refine hrun.invariant (I := fun t => t.inError = t.world.skipUntilSync) rfl fun t u m ht _ hstep => ?_
  obtain ⟨w, hw, rfl⟩ := Option.map_eq_some_iff.1 hstep
  obtain rfl : t.world.turn E K m = w := by
    unfold World.step at hw
    split at hw
    · cases hw
    · exact Option.some.inj hw
  rw [(turn_events t.world m).2]
  cases m <;> simp only [ht]

/-- **Error recovery.** In every run in which no `Close`, `Query` or unknown message arrives
while messages are skipped, every turn is silent after an error and readied as it should
be. -/
theorem error_recovery {engine : σ} {t : Tracked σ}
    (hrun : RunWhere (Tracked.step E K) Heeded (Tracked.init E engine) t) (hheeded : Heeded t m) : Recovers E K t m := by
  have hskip := inError_eq_skip hrun
  refine ⟨fun herror hsync => turn_skipped hheeded (hskip ▸ herror) hsync, ?_⟩
  rw [(turn_events t.world m).1]
  cases m with
  | query sql =>
    have hno : t.inError = false := by
      rw [hskip, ← Bool.not_eq_true]
      exact fun hskipping => hheeded hskipping
    simp [readies, hno]
  | _ => rfl

/-- After an `Execute` of a portal there is none of. -/
def failedExecute : Tracked (Bool × List Stmt) :=
  ⟨⟨(false, []), ∅, ∅, true, false, false, [.ready .idle, .failed ("34000", "unknown portal 'p'")]⟩, true⟩

theorem failedExecute_step : Tracked.step Engine.ledger Codec.ascii (Tracked.init Engine.ledger (false, [])) (.execute "p" 0) =
    some failedExecute := by
  rfl

/-- A `Parse` after a failed `Execute` is skipped. -/
theorem error_recovery_parse :
    Recovers Engine.ledger Codec.ascii failedExecute (.parse "s" "SAVEPOINT a".toList []) :=
  error_recovery (RunWhere.nil.snoc (by intro h; trivial) failedExecute_step) (by intro h; trivial)

/-- A `Close` after a failed `Execute` is answered. -/
theorem error_recovery_breaks :
    Reach (Tracked.step Engine.ledger Codec.ascii) (Tracked.init Engine.ledger (false, [])) failedExecute ∧
      failedExecute.world.events Engine.ledger Codec.ascii (.close 'P' "p") = [.sent .closeComplete] ∧
      ¬ Recovers Engine.ledger Codec.ascii failedExecute (.close 'P' "p") := by
  have hevents : failedExecute.world.events Engine.ledger Codec.ascii (.close 'P' "p") = [.sent .closeComplete] := by rfl
  refine ⟨RunWhere.nil.snoc trivial failedExecute_step, hevents, fun h => ?_⟩
  have hsilent := (h.silent rfl (by simp)).1
  rw [hevents] at hsilent
  cases hsilent

end Twill.Server
