/-
The session principal across transactions (`conn.rs`: `run`, `begin`, `commit`,
`rollback`, `apply_session_set`; `sql.rs`: `set_stmt`, `reset_stmt`).

The parser eats `SESSION` and `LOCAL` and forgets them, and neither end of a
transaction touches the principal, so a transaction leaves behind whatever its
last `SET`s assigned.
-/
import Twill.Statement

namespace Twill

def SessionContext.apply (s : SessionContext) : SessionSet → SessionContext
  | .role r => { s with role := r }
  | .claims c => { s with claims := c }
  | .bypass on => { s with bypass := on }

/-- What of a connection decides its principal: the principal, and whether an explicit
transaction is open. -/
structure Handle where
  session : SessionContext
  txn : Bool
  deriving DecidableEq

/-- `run`, whatever the engine answers: a second `BEGIN` and a `COMMIT` or `ROLLBACK`
without a transaction are refused, a `COMMIT` takes the transaction before it is
durable, and no other statement leaves or enters an explicit transaction. -/
def Handle.run (h : Handle) : Stmt → Handle
  | .setSession set => { h with session := h.session.apply set }
  | .begin => { h with txn := true }
  | .commit => { h with txn := false }
  | .rollback => { h with txn := false }
  | _ => h

def Handle.runText (G : Grammar) (h : Handle) (sql : List Char) : Handle :=
  match parseSql G sql with
  | .ok (stmt, _) => h.run stmt
  | .error _ => h

/-- Whether `set_stmt` eats a `LOCAL`. -/
def isLocal (sql : List Char) : Bool := match lex sql with
  | .ok (_ :: ts) => Toks.isKw "local" ts
  | _ => false

/-- The principal's mutations among some statements, with whether they are `LOCAL`. -/
def principalSets (G : Grammar) (texts : List (List Char)) : List (Bool × SessionSet) :=
  texts.filterMap fun sql => match parseSql G sql with
    | .ok (.setSession set, _) => some (isLocal sql, set)
    | _ => none

/-- The ones that outlive their transaction. -/
def keptSets (G : Grammar) (texts : List (List Char)) (committed : Bool) : List SessionSet :=
  if committed then ((principalSets G texts).filter fun s => !s.1).map (·.2) else []

/-- A statement that neither opens nor closes a transaction. -/
def Inside (G : Grammar) (sql : List Char) : Prop := match parseSql G sql with
  | .ok (.begin, _) | .ok (.commit, _) | .ok (.rollback, _) => False
  | _ => True

/-- An explicit transaction of a connection that was in none: its `BEGIN`, its statements,
and the statement that ends it. -/
structure IsTransaction (G : Grammar) (h : Handle) (first : List Char) (texts : List (List Char)) (last : List Char)
    (committed : Bool) : Prop where
  idle : h.txn = false
  begins : ∃ n, parseSql G first = .ok (.begin, n)
  inside : ∀ sql ∈ texts, Inside G sql
  ends : (∃ n, parseSql G last = .ok (.commit, n)) ∨ committed = false ∧ ∃ n, parseSql G last = .ok (.rollback, n)

/-- After the transaction the principal is the one before it, under the mutations that
outlive it. -/
def Restored (G : Grammar) (h : Handle) (first : List Char) (texts : List (List Char)) (last : List Char)
    (committed : Bool) : Prop :=
  ((first :: texts ++ [last]).foldl (Handle.runText G) h).session =
    (keptSets G texts committed).foldl SessionContext.apply h.session

/-! ## What a list of mutations leaves -/

def SessionSet.role? : SessionSet → Option (Option String)
  | .role r => some r
  | _ => none

def SessionSet.claims? : SessionSet → Option (Option String)
  | .claims c => some c
  | _ => none

def SessionSet.bypass? : SessionSet → Option Bool
  | .bypass on => some on
  | _ => none

/-- The last value some mutations assign to a part of the principal, or the one it had. -/
def lastValue {α : Type} (part : SessionSet → Option α) (before : α) (sets : List SessionSet) : α :=
  (sets.filterMap part).getLast?.getD before

theorem lastValue_cons {α : Type} (part : SessionSet → Option α) (before : α) (set : SessionSet)
    (sets : List SessionSet) :
    lastValue part before (set :: sets) = lastValue part ((part set).getD before) sets := by
  unfold lastValue
  cases hpart : part set with
  | none => simp [hpart]
  | some v =>
    rw [List.filterMap_cons_some hpart, Option.getD_some]
    cases hrest : sets.filterMap part with
    | nil => rfl
    | cons w rest => rw [List.getLast?_cons_cons, List.getLast?_eq_some_getLast (List.cons_ne_nil w rest)]; rfl

theorem foldl_apply (s : SessionContext) (sets : List SessionSet) :
    sets.foldl SessionContext.apply s = ⟨lastValue SessionSet.role? s.role sets,
      lastValue SessionSet.claims? s.claims sets, lastValue SessionSet.bypass? s.bypass sets⟩ := by
  induction sets generalizing s with
  | nil => rfl
  | cons set sets ih =>
    rw [List.foldl_cons, ih, lastValue_cons, lastValue_cons, lastValue_cons]
    cases set <;> rfl

/-! ## Runs of a transaction -/

variable {G : Grammar} {h : Handle} {first last : List Char} {texts : List (List Char)} {committed : Bool}

theorem principalSets_cons (sql : List Char) (texts : List (List Char)) : principalSets G (sql :: texts) =
    (match parseSql G sql with
      | .ok (.setSession set, _) => [(isLocal sql, set)]
      | _ => []) ++ principalSets G texts := by
  unfold principalSets
  rw [List.filterMap_cons]
  split <;> split <;> simp_all

/-- The statements of a run, in order, make every mutation, `LOCAL` or not. -/
theorem session_runTexts (h : Handle) (texts : List (List Char)) :
    (texts.foldl (Handle.runText G) h).session =
      ((principalSets G texts).map (·.2)).foldl SessionContext.apply h.session := by
  induction texts generalizing h with
  | nil => rfl
  | cons sql texts ih =>
    rw [List.foldl_cons, ih, principalSets_cons, List.map_append, List.foldl_append]
    congr 1
    unfold Handle.runText
    cases hparse : parseSql G sql with
    | error e => rfl
    | ok r =>
      obtain ⟨stmt, n⟩ := r
      cases stmt <;> rfl

theorem principalSets_transaction (htxn : IsTransaction G h first texts last committed) :
    principalSets G (first :: texts ++ [last]) = principalSets G texts := by
  obtain ⟨n, hfirst⟩ := htxn.begins
  have hlast : principalSets G [last] = [] := by
    rcases htxn.ends with ⟨m, hend⟩ | ⟨-, m, hend⟩ <;> simp [principalSets, hend]
  have happend : principalSets G (texts ++ [last]) = principalSets G texts ++ principalSets G [last] :=
    List.filterMap_append
  rw [List.cons_append, principalSets_cons, hfirst, happend, hlast, List.append_nil, List.nil_append]

/-- **When the principal does not outlive its transaction.** Exactly when, for the role, the
claims and the bypass flag, the last `SET` or `RESET` of it inside the transaction assigns
what the last one that outlives the transaction assigns, or, without one, what it was
before the `BEGIN`. -/
theorem principal_restored_iff (htxn : IsTransaction G h first texts last committed) :
    Restored G h first texts last committed ↔
      (lastValue SessionSet.role? h.session.role ((principalSets G texts).map (·.2)) =
        lastValue SessionSet.role? h.session.role (keptSets G texts committed) ∧
      lastValue SessionSet.claims? h.session.claims ((principalSets G texts).map (·.2)) =
        lastValue SessionSet.claims? h.session.claims (keptSets G texts committed) ∧
      lastValue SessionSet.bypass? h.session.bypass ((principalSets G texts).map (·.2)) =
        lastValue SessionSet.bypass? h.session.bypass (keptSets G texts committed)) := by
  rw [Restored, session_runTexts, principalSets_transaction htxn, foldl_apply, foldl_apply, SessionContext.mk.injEq]

/-- A `SET ROLE` that is not `LOCAL`, in a transaction that commits, after a `LOCAL` one. -/
theorem principal_restored_committed :
    let texts := ["SET LOCAL ROLE admin".toList, "SET ROLE editor".toList]
    Restored Grammar.bare ⟨⟨none, none, false⟩, false⟩ "BEGIN".toList texts "COMMIT".toList true := by
  intro texts
  refine (principal_restored_iff ⟨rfl, ⟨0, by rfl⟩, ?_, .inl ⟨0, by rfl⟩⟩).2 ⟨by decide, by decide, by decide⟩
  intro sql hsql
  simp only [texts, List.mem_cons, List.not_mem_nil, or_false] at hsql
  rcases hsql with rfl | rfl <;> trivial

/-- The role of a `SET LOCAL ROLE` stays when its transaction rolls back. -/
theorem principal_leaks :
    let texts := ["SET LOCAL ROLE admin".toList]
    let h : Handle := ⟨⟨none, none, false⟩, false⟩
    IsTransaction Grammar.bare h "BEGIN".toList texts "ROLLBACK".toList false ∧
      (("BEGIN".toList :: texts ++ ["ROLLBACK".toList]).foldl (Handle.runText Grammar.bare) h).session =
        ⟨some "admin", none, false⟩ ∧
      ¬ Restored Grammar.bare h "BEGIN".toList texts "ROLLBACK".toList false := by
  intro texts h
  have hsession : (("BEGIN".toList :: texts ++ ["ROLLBACK".toList]).foldl (Handle.runText Grammar.bare) h).session =
      ⟨some "admin", none, false⟩ := by rfl
  refine ⟨⟨rfl, ⟨0, by rfl⟩, ?_, .inr ⟨rfl, 0, by rfl⟩⟩, hsession, fun hrestored => ?_⟩
  · intro sql hsql
    obtain rfl := List.mem_singleton.1 hsql
    trivial
  · rw [Restored, hsession] at hrestored
    exact absurd (congrArg SessionContext.role hrestored) (by decide)

end Twill
