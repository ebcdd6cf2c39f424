/-
POST (`session.rs`: `run_pgrst_insert`): one INSERT for each object of the body, each prepared,
executed and committed on its own.

So the portal is all-or-nothing exactly when no object's INSERT fails once the one of an object
before it has been committed.
-/
import Twill.Autocommit
import Twill.Server.JsonBody

namespace Twill.Server

/-! ## Programs that may stop -/

theorem run_bindT {Op : Type} {Res : Op → Type} {S ε α β : Type} {h : (o : Op) → S → Res o × S}
    (p : ExceptT ε (Program Op Res) α) (f : α → ExceptT ε (Program Op Res) β) (s : S) :
    (p >>= f).run.run h s = match p.run.run h s with
      | (.ok a, s) => (f a).run.run h s
      | (.error e, s) => (.error e, s) := by
  change (p.run >>= fun r => _).run h s = _
  rw [Program.run_bind]
  rcases p.run.run h s with ⟨r, s'⟩
  cases r <;> rfl

theorem run_liftT {Op : Type} {Res : Op → Type} {S ε α : Type} {h : (o : Op) → S → Res o × S} (p : Program Op Res α)
    (s : S) : (ExceptT.lift p : ExceptT ε (Program Op Res) α).run.run h s = (.ok (p.run h s).1, (p.run h s).2) := by
  exact Program.run_bind p (fun a => (pure (.ok a) : Program Op Res (Except ε α))) s

/-! ## The engine -/

/-- An engine whose write statements outside transactions are a connection's; `rest` does the
rest. -/
def Engine.autocommit (env : Env) (rest : Engine Solo) : Engine Solo :=
  { rest with
    run := fun s stmt args => match stmt with
      | .dml st =>
        if (s.sys.conns 0).txn.isNone then
          let (res, s) := s.execDml env st args
          (res.map fun r => ⟨r.columns, r.types, r.rows⟩, s)
        else rest.run s stmt args
      | _ => rest.run s stmt args }

/-! ## The objects of a body -/

section

variable (env : Env) (st : DmlStmt) (n : Nat)

/-- One object's statement, which has `n` parameters. -/
def insertObject (s : Solo) (row : Row) : Except EngineError Unit × Solo := match boundArgs n row with
  | .error e => (.error e, s)
  | .ok args => ((s.execDml env st args).1.map fun _ => (), (s.execDml env st args).2)

/-- The statements of the objects, up to the first that fails. -/
def insertObjects (s : Solo) : List Row → Except EngineError Unit × Solo
  | [] => (.ok (), s)
  | row :: rows => match insertObject env st n s row with
    | (.error e, s) => (.error e, s)
    | (.ok (), s) => insertObjects s rows

/-- An object fails once the objects before it, at least one, have been inserted. -/
def FailsLate (s : Solo) (rows : List Row) : Prop :=
  ∃ done row rest e, rows = done ++ row :: rest ∧ done ≠ [] ∧ (insertObjects env st n s done).1 = .ok () ∧
    (insertObject env st n (insertObjects env st n s done).2 row).1 = .error e

end

variable {env : Env} {st : DmlStmt} {n : Nat} {s s' : Solo} {row : Row} {rows done : List Row}

theorem insertObjects_cons_ok (h : (insertObject env st n s row).1 = .ok ()) :
    insertObjects env st n s (row :: rows) = insertObjects env st n (insertObject env st n s row).2 rows := by
  rw [insertObjects]
  split
  · next heq =>
    rw [heq] at h
    cases h
  · next heq => rw [heq]

theorem insertObjects_cons_error {e : EngineError} (h : (insertObject env st n s row).1 = .error e) :
    insertObjects env st n s (row :: rows) = (.error e, (insertObject env st n s row).2) := by
  rw [insertObjects]
  split
  · next heq =>
    rw [heq] at h
    obtain rfl := Except.error.inj h
    rw [heq]
  · next heq =>
    rw [heq] at h
    cases h

theorem insertObjects_append (h : (insertObjects env st n s done).1 = .ok ()) :
    insertObjects env st n s (done ++ rows) = insertObjects env st n (insertObjects env st n s done).2 rows := by
  induction done generalizing s with
  | nil => rfl
  | cons row done ih =>
    cases hrow : (insertObject env st n s row).1 with
    | error e =>
      rw [insertObjects_cons_error hrow] at h
      cases h
    | ok u =>
      rw [List.cons_append, insertObjects_cons_ok hrow, insertObjects_cons_ok hrow]
      rw [insertObjects_cons_ok hrow] at h
      exact ih h

/-- The objects fail at one of them, or at none. -/
theorem insertObjects_error {e : EngineError} (h : (insertObjects env st n s rows).1 = .error e) :
    ∃ done row rest, rows = done ++ row :: rest ∧ (insertObjects env st n s done).1 = .ok () ∧
      (insertObject env st n (insertObjects env st n s done).2 row).1 = .error e ∧
      (insertObjects env st n s rows).2 = (insertObject env st n (insertObjects env st n s done).2 row).2 := by
  induction rows generalizing s with
  | nil => cases h
  | cons row rows ih =>
    cases hrow : (insertObject env st n s row).1 with
    | error e' =>
      rw [insertObjects_cons_error hrow] at h ⊢
      obtain rfl := Except.error.inj h
      exact ⟨[], row, rows, rfl, rfl, hrow, rfl⟩
    | ok u =>
      rw [insertObjects_cons_ok hrow] at h ⊢
      obtain ⟨done, row', rest, rfl, hdone, hfail, hleft⟩ := ih h
      refine ⟨row :: done, row', rest, rfl, ?_, ?_, ?_⟩ <;> rw [insertObjects_cons_ok hrow]
      · exact hdone
      · exact hfail
      · exact hleft

/-- An object that fails late is where the objects fail. -/
theorem failsLate_iff : FailsLate env st n s rows ↔ (∃ e, (insertObjects env st n s rows).1 = .error e) ∧
    ∃ row rest, rows = row :: rest ∧ (insertObject env st n s row).1 = .ok () := by
  constructor
  · rintro ⟨done, row, rest, e, rfl, hne, hdone, hfail⟩
    refine ⟨⟨e, ?_⟩, ?_⟩
    · rw [insertObjects_append hdone, insertObjects_cons_error hfail]
    · obtain ⟨first, done, rfl⟩ := List.exists_cons_of_ne_nil hne
      refine ⟨first, done ++ row :: rest, rfl, ?_⟩
      cases hfirst : (insertObject env st n s first).1 with
      | error e' =>
        rw [insertObjects_cons_error hfirst] at hdone
        cases hdone
      | ok u => rfl
  · rintro ⟨⟨e, he⟩, first, rest, rfl, hfirst⟩
    obtain ⟨done, row, rest', hrows, hdone, hfail, -⟩ := insertObjects_error he
    refine ⟨done, row, rest', e, hrows, ?_, hdone, hfail⟩
    rintro rfl
    obtain ⟨rfl, -⟩ := List.cons.inj hrows
    have hfail' : (insertObject env st n s first).1 = .error e := hfail
    rw [hfirst] at hfail'
    cases hfail'

/-! ## What is committed -/

theorem insertObject_run (env : Env) (st : DmlStmt) (n : Nat) (s : Solo) (row : Row) :
    RunWhere NoDdl s.sys (insertObject env st n s row).2.sys := by
  unfold insertObject
  split
  · exact .nil _
  · exact Solo.execDml_run env s st _

theorem insertObject_rest (h : Solo.AtRest s.sys) : Solo.AtRest (insertObject env st n s row).2.sys := by
  unfold insertObject
  split
  · exact h
  · exact (Solo.execDml_ran h env st _).1

theorem insertObject_error (hinv : Sys.Inv s.sys) (h : Solo.AtRest s.sys) {e : EngineError}
    (herr : (insertObject env st n s row).1 = .error e) (k : String) :
    (insertObject env st n s row).2.sys.committed k = s.sys.committed k := by
  unfold insertObject at herr ⊢
  split
  · rfl
  · next args hargs =>
    rw [hargs] at herr
    dsimp only at herr
    cases hres : (s.execDml env st args).1 with
    | error e' => exact Solo.execDml_error hinv h hres k
    | ok rs =>
      rw [hres] at herr
      cases herr

variable {table : String} {columns : Option (List String)} {exprs : List Expr}

/-- The row, with its version, is one that the object's INSERT stages. -/
def StagedFor (env : Env) (table : String) (columns : Option (List String)) (exprs : List Expr) (n : Nat) (row : Row)
    (inserted : Nat × Row) : Prop :=
  ∃ store t wc next, store.table table = some t ∧ boundArgs n row = .ok wc.params ∧
    stageInsert env store t.schema (Solo.insertOne table columns exprs) wc = .ok ([inserted.2], next)

/-- Every object is inserted and committed, and nothing else. -/
def AllInserted (env : Env) (table : String) (columns : Option (List String)) (exprs : List Expr) (n : Nat)
    (s s' : Solo) (rows : List Row) : Prop :=
  ∃ added, List.Forall₂ (StagedFor env table columns exprs n) rows added ∧
    ∀ k, s'.sys.committed k = if k = Store.key table then s.sys.committed k ++ added else s.sys.committed k

theorem insertObject_ok (hinv : Sys.Inv s.sys) (h : Solo.AtRest s.sys)
    (hok : (insertObject env (.insert (Solo.insertOne table columns exprs)) n s row).1 = .ok ()) :
    AllInserted env table columns exprs n s (insertObject env (.insert (Solo.insertOne table columns exprs)) n s row).2
      [row] := by
  unfold insertObject at hok ⊢
  split
  · next hargs =>
    rw [hargs] at hok
    cases hok
  · next args hargs =>
    rw [hargs] at hok
    dsimp only at hok
    cases hres : (s.execDml env (.insert (Solo.insertOne table columns exprs)) args).1 with
    | error e =>
      rw [hres] at hok
      cases hok
    | ok rs =>
      obtain ⟨t, image, next, vid, ht, hstage, hcommitted⟩ := Solo.execDml_insert hinv h hres
      exact ⟨[(vid, image)], .cons ⟨_, t, s.writeCtx args, next, ht, hargs, hstage⟩ .nil, hcommitted⟩

theorem insertObjects_ok (hinv : Sys.Inv s.sys) (h : Solo.AtRest s.sys)
    (hok : (insertObjects env (.insert (Solo.insertOne table columns exprs)) n s rows).1 = .ok ()) :
    AllInserted env table columns exprs n s
      (insertObjects env (.insert (Solo.insertOne table columns exprs)) n s rows).2 rows := by
  induction rows generalizing s with
  | nil => exact ⟨[], .nil, fun k => by simp [insertObjects]⟩
  | cons row rows ih =>
    cases hrow : (insertObject env (.insert (Solo.insertOne table columns exprs)) n s row).1 with
    | error e =>
      rw [insertObjects_cons_error hrow] at hok
      cases hok
    | ok u =>
      rw [insertObjects_cons_ok hrow] at hok ⊢
      obtain ⟨first, hfirst, hcommitted⟩ := insertObject_ok hinv h hrow
      obtain ⟨others, hothers, hcommitted'⟩ := ih (hinv.runWhere (insertObject_run _ _ _ _ _)) (insertObject_rest h) hok
      refine ⟨first ++ others, List.rel_append hfirst hothers, fun k => ?_⟩
      rw [hcommitted' k, hcommitted k]
      split
      · rw [List.append_assoc]
      · rfl

theorem insertObjects_run (env : Env) (st : DmlStmt) (n : Nat) (s : Solo) (rows : List Row) :
    RunWhere NoDdl s.sys (insertObjects env st n s rows).2.sys := by
  induction rows generalizing s with
  | nil => exact .nil _
  | cons row rows ih =>
    have hrow := insertObject_run env st n s row
    cases hres : (insertObject env st n s row).1 with
    | error e =>
      rw [insertObjects_cons_error hres]
      exact hrow
    | ok u =>
      rw [insertObjects_cons_ok hres]
      exact hrow.trans (ih _)

theorem insertObjects_rest (h : Solo.AtRest s.sys) : Solo.AtRest (insertObjects env st n s rows).2.sys := by
  induction rows generalizing s with
  | nil => exact h
  | cons row rows ih =>
    cases hres : (insertObject env st n s row).1 with
    | error e =>
      rw [insertObjects_cons_error hres]
      exact insertObject_rest h
    | ok u =>
      rw [insertObjects_cons_ok hres]
      exact ih (insertObject_rest h)

/-- Either every object is inserted and committed, or the portal fails and nothing is. -/
def AllOrNothing (env : Env) (table : String) (columns : Option (List String)) (exprs : List Expr) (n : Nat)
    (s s' : Solo) (rows : List Row) (failed : Bool) : Prop :=
  (failed = false ∧ AllInserted env table columns exprs n s s' rows) ∨
    (failed = true ∧ ∀ k, s'.sys.committed k = s.sys.committed k)

/-- **The objects of a body are inserted all or not at all exactly when none fails late.** -/
theorem allOrNothing_iff (hinv : Sys.Inv s.sys) (h : Solo.AtRest s.sys) (table : String) (columns : Option (List String))
    (exprs : List Expr) (n : Nat) (rows : List Row) :
    let done := insertObjects env (.insert (Solo.insertOne table columns exprs)) n s rows
    AllOrNothing env table columns exprs n s done.2 rows (!done.1.isOk) ↔
      ¬FailsLate env (.insert (Solo.insertOne table columns exprs)) n s rows := by
  intro done
  rw [failsLate_iff]
  cases hres : done.1 with
  | ok u =>
    refine iff_of_true (.inl ⟨rfl, insertObjects_ok hinv h hres⟩) ?_
    rintro ⟨⟨e, he⟩, -⟩
    cases he
  | error e =>
    obtain ⟨before, row, rest, hrows, hbefore, hfail, hleft⟩ := insertObjects_error hres
    have hsame : ∀ k, done.2.sys.committed k =
        (insertObjects env (.insert (Solo.insertOne table columns exprs)) n s before).2.sys.committed k := by
      intro k
      rw [show done.2 = _ from hleft]
      exact insertObject_error (hinv.runWhere (insertObjects_run _ _ _ _ _)) (insertObjects_rest h) hfail k
    obtain ⟨added, hadded, hcommitted⟩ := insertObjects_ok hinv h hbefore
    cases before with
    | nil =>
      refine iff_of_true (.inr ⟨rfl, hsame⟩) ?_
      rintro ⟨-, row', rest', hrows', hfirst⟩
      obtain ⟨rfl, -⟩ := List.cons.inj (hrows.symm.trans hrows')
      exact absurd (hfail.symm.trans hfirst) (by simp)
    | cons first before =>
      refine iff_of_false ?_ fun hnot => hnot ⟨⟨e, rfl⟩, first, before ++ row :: rest, hrows, ?_⟩
      · rintro (⟨hok, -⟩ | ⟨-, hunchanged⟩)
        · cases hok
        · have hkey := hcommitted (Store.key table)
          rw [if_pos rfl, ← hsame, hunchanged] at hkey
          obtain rfl : added = [] := by simpa using hkey
          cases hadded
      · cases hfirst : (insertObject env (.insert (Solo.insertOne table columns exprs)) n s first).1 with
        | error e' =>
          rw [insertObjects_cons_error hfirst] at hbefore
          cases hbefore
        | ok u => rfl

/-! ## The portal -/

def fault (e : EngineError) : Fault := describeError e.message

@[simp] theorem run_liftFault {σ α : Type} {E : Engine σ} (r : Except EngineError α) (w : World σ) :
    (liftFault r).run.run (World.ask E) w = (r.mapError fault, w) := by
  cases r <;> rfl

variable {rest : Engine Solo} {w : World Solo} {sql : List Char}

/-- Executing a write statement outside transactions is the connection's. -/
theorem run_execute (hparse : rest.parse sql = .ok (.dml st, n)) (hrest : Solo.AtRest w.engine.sys) (row : Row) :
    let done := (execute (Engine.autocommit env rest) sql row).run.run (World.ask (Engine.autocommit env rest)) w
    done.1.map (fun _ => ()) = (insertObject env st n w.engine row).1.mapError fault ∧
      done.2.engine = (insertObject env st n w.engine row).2 := by
  have htxn : (w.engine.sys.conns 0).txn.isNone = true := by rw [hrest.idle]; rfl
  have hparse' : (Engine.autocommit env rest).parse sql = .ok (.dml st, n) := hparse
  intro done
  have hdone : done = (execute (Engine.autocommit env rest) sql row).run.run (World.ask (Engine.autocommit env rest)) w := rfl
  rw [hdone]
  unfold execute insertObject
  rw [run_bindT, run_liftFault, hparse']
  dsimp only [Except.mapError]
  rw [run_bindT, run_liftFault]
  cases hargs : boundArgs n row with
  | error e => exact ⟨rfl, rfl⟩
  | ok args =>
    dsimp only [Except.mapError]
    rw [run_bindT, show (liftM (runStmt (.dml st) args) : Try (Except EngineError ResultSet)) =
      ExceptT.lift (runStmt (.dml st) args) from rfl, run_liftT]
    have hrun : (Engine.autocommit env rest).run w.engine (.dml st) args =
        ((w.engine.execDml env st args).1.map fun r => ⟨r.columns, r.types, r.rows⟩, (w.engine.execDml env st args).2) :=
      if_pos htxn
    have hanswer : ((runStmt (.dml st) args).run (World.ask (Engine.autocommit env rest)) w).1 =
        (w.engine.execDml env st args).1.map fun r => ⟨r.columns, r.types, r.rows⟩ := by
      change ((Engine.autocommit env rest).run w.engine (.dml st) args).1 = _
      rw [hrun]
    have hengine : ((runStmt (.dml st) args).run (World.ask (Engine.autocommit env rest)) w).2.engine =
        (w.engine.execDml env st args).2 := by
      change ((Engine.autocommit env rest).run w.engine (.dml st) args).2 = _
      rw [hrun]
    rw [hanswer]
    dsimp only
    rw [run_liftFault]
    refine ⟨?_, hengine⟩
    cases (w.engine.execDml env st args).1 <;> rfl

/-- Executing the objects' statements in turn. -/
theorem run_tryMap (hparse : rest.parse sql = .ok (.dml st, n)) (hrest : Solo.AtRest w.engine.sys) (rows : List Row) :
    let done := (tryMap (execute (Engine.autocommit env rest) sql) rows).run.run
      (World.ask (Engine.autocommit env rest)) w
    done.1.map (fun _ => ()) = (insertObjects env st n w.engine rows).1.mapError fault ∧
      done.2.engine = (insertObjects env st n w.engine rows).2 := by
  induction rows generalizing w with
  | nil => exact ⟨rfl, rfl⟩
  | cons row rows ih =>
    obtain ⟨hres, hengine⟩ := run_execute hparse hrest row
    rw [tryMap, run_bindT]
    generalize (execute (Engine.autocommit env rest) sql row).run.run (World.ask (Engine.autocommit env rest)) w = first at hres hengine ⊢
    obtain ⟨res, w'⟩ := first
    cases hrow : (insertObject env st n w.engine row).1 with
    | error e =>
      rw [hrow] at hres
      cases res with
      | ok rs => cases hres
      | error f =>
        rw [insertObjects_cons_error hrow]
        exact ⟨hres, hengine⟩
    | ok u =>
      rw [hrow] at hres
      cases res with
      | error f => cases hres
      | ok rs =>
        rw [insertObjects_cons_ok hrow, ← hengine]
        have hrest' : Solo.AtRest w'.engine.sys := by
          rw [show w'.engine = _ from hengine]
          exact insertObject_rest hrest
        obtain ⟨hres', hengine'⟩ := ih hrest'
        dsimp only at hres' hengine' ⊢
        rw [run_bindT]
        generalize (tryMap (execute (Engine.autocommit env rest) sql) rows).run.run
          (World.ask (Engine.autocommit env rest)) w' = others at hres' hengine' ⊢
        obtain ⟨res', w''⟩ := others
        cases res' with
        | error f => exact ⟨hres', hengine'⟩
        | ok rss => exact ⟨hres', hengine'⟩

end Twill.Server
