/-
What `migrate up` and its re-runs leave behind.

A DML-only file takes effect in one commit, and its row of the tracking table in
another. `Sealed` says of an attempt that it did not stop between the two, and that
no statement of a file wrote the tracking table. In runs of such attempts the files
recorded are the first ones in version order, each took effect once, and the others
not at all: the invariant is `Good`, a split of the DML-only files into those done
and those the next attempt starts with. The induction is over the files still to do.
-/
import Twill.Cli.Migrate
import Twill.Lib.Except

namespace Twill.Migrate

open Program

/-! ## What the claim is about -/

/-- A file without DDL and without transaction control. -/
def Database.dmlOnly (D : Database) (f : MigrationFile) : Bool :=
  (splitStatements f.body).all fun s => !isDdl s && (D.control s).isNone

/-- The files `up` reads from a directory; none when it cannot read them. -/
def Directory.files (dir : Directory) : List MigrationFile :=
  match loadMigrations dir with
  | .ok files => files
  | .error _ => []

/-- The statements of a file that took effect. -/
def Image.ran (im : Image) (f : MigrationFile) : List String :=
  (im.effects.filter (·.version == f.version)).map (·.sql)

/-- The rows of the tracking table about a file. -/
def Image.rows (im : Image) (f : MigrationFile) : List Record :=
  (im.tracking.getD []).filter (·.version == f.version)

/-- A file is recorded in one row, with the checksum of its body. -/
def Image.Recorded (im : Image) (f : MigrationFile) : Prop :=
  ∃ at', im.rows f = [{ version := f.version, name := f.name, checksum := fnv1aHex f.body, appliedAt := at' }]

/-- The version of a DML-only file. -/
def Database.dmlVersion (D : Database) (files : List MigrationFile) (v : String) : Bool :=
  files.any fun f => D.dmlOnly f && f.version == v

/-- Every DML-only file is recorded and took effect once, or neither; the effects are in
version order. -/
structure AppliedOnce (D : Database) (files : List MigrationFile) (im : Image) : Prop where
  once : ∀ f ∈ files, D.dmlOnly f = true →
    (im.Recorded f ∧ im.ran f = splitStatements f.body) ∨ (im.rows f = [] ∧ im.ran f = [])
  ordered : (im.effects.filter fun e => D.dmlVersion files e.version).Pairwise fun a b => a.version ≤ b.version

/-- A COMMIT of a DML-only file with statements that took effect. -/
def Event.commits (D : Database) (e : Event) : Bool :=
  e.took && match e.origin with
    | .commit f => D.dmlOnly f && !(splitStatements f.body).isEmpty
    | _ => false

/-- The tracking insert took effect. -/
def Event.records (e : Event) : Bool :=
  e.took && match e.origin with
    | .record _ => true
    | _ => false

/-- A statement of a file that took effect, other than transaction control, leaves the
tracking table as it is. -/
def Event.spares (D : Database) (e : Event) : Prop :=
  match e.origin with
  | .statement _ sql => D.control sql = none → e.took = true → e.before = e.after
  | _ => True

instance (D : Database) (e : Event) : Decidable (e.spares D) := by
  unfold Event.spares
  split <;> infer_instance

/-- The newest event is a COMMIT. -/
def pendingCommit (D : Database) (t : List Event) : Bool := t.head?.any (Event.commits D)

/-- Of the events of an attempt, newest first: every COMMIT is followed by its insert, as
far as anything follows it, and no file writes the tracking table. -/
def Clean (D : Database) : List Event → Prop
  | [] => True
  | e :: t => (pendingCommit D t = true → e.records = true) ∧ e.spares D ∧ Clean D t

instance decidableClean (D : Database) : (t : List Event) → Decidable (Clean D t)
  | [] => .isTrue trivial
  | e :: t =>
    have := decidableClean D t
    inferInstanceAs (Decidable ((pendingCommit D t = true → e.records = true) ∧ e.spares D ∧ Clean D t))

/-- The attempt does not end with a COMMIT. -/
def Settled (D : Database) (t : List Event) : Prop := pendingCommit D t = false

/-- No stop between a file's COMMIT and its tracking insert, and no write to the tracking
table by a file. -/
def Sealed (D : Database) (t : List Event) : Prop := Clean D t ∧ Settled D t

instance (D : Database) (t : List Event) : Decidable (Sealed D t) :=
  inferInstanceAs (Decidable (Clean D t ∧ pendingCommit D t = false))

/-! ## What an image says of the DML-only files -/

/-- The effects of a file. -/
def MigrationFile.effects (f : MigrationFile) : List Effect := (splitStatements f.body).map fun s => ⟨f.version, s⟩

/-- The files `done` took effect, in this order, and are recorded; no other DML-only file
did, or is. -/
structure Good (D : Database) (files done : List MigrationFile) (im : Image) : Prop where
  effects : (im.effects.filter fun e => D.dmlVersion files e.version) = done.flatMap (·.effects)
  rows : ((im.tracking.getD []).filter fun r => D.dmlVersion files r.version).map
      (fun r => (r.version, r.name, r.checksum)) = done.map fun f => (f.version, f.name, fnv1aHex f.body)

variable {D : Database} {files done rest : List MigrationFile} {f : MigrationFile} {db db' : Db} {im : Image}
  {t : List Event}

theorem dmlVersion_of_mem (hf : f ∈ files) (hdml : D.dmlOnly f = true) : D.dmlVersion files f.version = true :=
  List.any_eq_true.2 ⟨f, hf, by simp [hdml]⟩

theorem dmlOnly_of_dmlVersion (hnodup : (files.map (·.version)).Nodup) (hf : f ∈ files) :
    D.dmlVersion files f.version = D.dmlOnly f := by
  cases hdml : D.dmlOnly f
  · refine Bool.eq_false_iff.2 fun hany => ?_
    obtain ⟨g, hg, hboth⟩ := List.any_eq_true.1 hany
    simp only [Bool.and_eq_true, beq_iff_eq] at hboth
    obtain rfl : g = f := List.inj_on_of_nodup_map hnodup hg hf hboth.2
    simp [hdml] at hboth
  · exact dmlVersion_of_mem hf hdml

theorem Good.empty : Good D files [] Image.empty := ⟨rfl, rfl⟩

theorem Good.createTracking (h : Good D files done im) : Good D files done im.createTracking := ⟨h.effects, h.rows⟩

/-- The statement of a file with another version leaves the DML-only files as they are. -/
theorem Good.statement (h : Good D files done im) {v sql : String} (hv : D.dmlVersion files v = false)
    {tracking : Option (List Record)} (hrows : tracking = im.tracking) :
    Good D files done { effects := im.effects ++ [⟨v, sql⟩], tracking } := by
  subst hrows
  refine ⟨?_, h.rows⟩
  rw [List.filter_append, List.filter_cons_of_neg (by simp [hv]), h.effects]
  exact List.append_nil _

/-- The row of a file that is not DML-only. -/
theorem Good.insert_other (h : Good D files done im) {r : Record} (hv : D.dmlVersion files r.version = false)
    {im' : Image} (hinsert : im.insert r = some im') : Good D files done im' := by
  cases htracking : im.tracking with
  | none => simp [Image.insert, htracking] at hinsert
  | some rows =>
    have hrows := h.rows
    simp only [Image.insert, htracking, Option.bind_eq_bind, Option.bind_some] at hinsert
    split at hinsert
    · cases hinsert
    · cases hinsert
      refine ⟨h.effects, ?_⟩
      rw [htracking] at hrows
      rw [Option.getD_some, List.filter_append, List.filter_cons_of_neg (by simp [hv]), List.filter_nil, List.append_nil]
      exact hrows

/-- The row of a DML-only file that just took effect. -/
theorem Good.insert_done (h : Good D files done im) (hv : D.dmlVersion files f.version = true) {at' : String}
    {im' : Image} (hinsert : Image.insert { im with effects := im.effects ++ f.effects }
      { version := f.version, name := f.name, checksum := fnv1aHex f.body, appliedAt := at' } = some im') :
    Good D files (done ++ [f]) im' := by
  cases htracking : im.tracking with
  | none => simp [Image.insert, htracking] at hinsert
  | some rows =>
    have hrows := h.rows
    simp only [Image.insert, htracking, Option.bind_eq_bind, Option.bind_some] at hinsert
    split at hinsert
    · cases hinsert
    · cases hinsert
      have hall : f.effects.filter (fun e => D.dmlVersion files e.version) = f.effects :=
        List.filter_eq_self.2 fun e he => by
          obtain ⟨s, -, rfl⟩ := List.mem_map.1 he
          exact hv
      refine ⟨?_, ?_⟩
      · rw [List.filter_append, h.effects, hall, List.flatMap_append, List.flatMap_singleton]
      · rw [htracking, Option.getD_some] at hrows
        rw [Option.getD_some, List.filter_append, List.filter_cons_of_pos (by simpa using hv), List.filter_nil,
          List.map_append, hrows, List.map_append]
        rfl

/-! ## What a good image says of each file -/

theorem filter_version {l : List MigrationFile} (hsorted : l.Pairwise fun a b => a.version < b.version) (hf : f ∈ l) :
    l.filter (·.version == f.version) = [f] := by
  induction l with
  | nil => cases hf
  | cons a l ih =>
    obtain ⟨hfirst, hrest⟩ := List.pairwise_cons.1 hsorted
    rcases List.mem_cons.1 hf with rfl | hmem
    · have hnone : l.filter (·.version == f.version) = [] :=
        List.filter_eq_nil_iff.2 fun b hb => by simpa using (hfirst b hb).ne'
      rw [List.filter_cons_of_pos (by simp), hnone]
    · rw [List.filter_cons_of_neg (by simpa using (hfirst f hmem).ne), ih hrest hmem]

theorem filter_effects (l : List MigrationFile) (v : String) :
    (l.flatMap (·.effects)).filter (·.version == v) = (l.filter (·.version == v)).flatMap (·.effects) := by
  induction l with
  | nil => rfl
  | cons a l ih =>
    rw [List.flatMap_cons, List.filter_append, ih]
    by_cases hv : a.version = v
    · have hall : a.effects.filter (·.version == v) = a.effects := List.filter_eq_self.2 fun e he => by
        obtain ⟨s, -, rfl⟩ := List.mem_map.1 he
        simpa using hv
      rw [hall, List.filter_cons_of_pos (by simpa using hv), List.flatMap_cons]
    · have hnone : a.effects.filter (·.version == v) = [] := List.filter_eq_nil_iff.2 fun e he => by
        obtain ⟨s, -, rfl⟩ := List.mem_map.1 he
        simpa using hv
      rw [hnone, List.filter_cons_of_neg (by simpa using hv), List.nil_append]

theorem filter_of_imp {α : Type} {p q : α → Bool} {l : List α} (h : ∀ a, q a = true → p a = true) :
    (l.filter p).filter q = l.filter q := by
  rw [List.filter_filter]
  refine List.filter_congr fun a _ => ?_
  cases hq : q a
  · rfl
  · simp [h a hq]

theorem Good.ran (h : Good D files done im) (hv : D.dmlVersion files f.version = true) :
    im.ran f = ((done.filter (·.version == f.version)).flatMap (·.effects)).map (·.sql) := by
  have hbelow : ∀ e : Effect, (e.version == f.version) = true → D.dmlVersion files e.version = true := fun e he => by
    rw [beq_iff_eq.1 he]
    exact hv
  rw [Image.ran, ← filter_of_imp hbelow, h.effects, filter_effects]

theorem Good.rows_of (h : Good D files done im) (hv : D.dmlVersion files f.version = true) :
    (im.rows f).map (fun r => (r.version, r.name, r.checksum)) =
      (done.filter (·.version == f.version)).map fun g => (g.version, g.name, fnv1aHex g.body) := by
  have hbelow : ∀ r : Record, (r.version == f.version) = true → D.dmlVersion files r.version = true := fun r hr => by
    rw [beq_iff_eq.1 hr]
    exact hv
  have hrows := congrArg (List.filter fun x => x.1 == f.version) h.rows
  rw [List.filter_map, List.filter_map] at hrows
  rw [Image.rows, ← filter_of_imp hbelow]
  exact hrows

theorem Good.recorded (h : Good D files done im) (hsorted : done.Pairwise fun a b => a.version < b.version)
    (hv : D.dmlVersion files f.version = true) (hf : f ∈ done) :
    im.Recorded f ∧ im.ran f = splitStatements f.body := by
  refine ⟨?_, ?_⟩
  · have hrows := h.rows_of hv
    rw [filter_version hsorted hf, List.map_singleton, List.map_eq_singleton_iff] at hrows
    obtain ⟨⟨version, name, checksum, at'⟩, hrow, hfields⟩ := hrows
    simp only [Prod.mk.injEq] at hfields
    obtain ⟨rfl, rfl, rfl⟩ := hfields
    exact ⟨at', hrow⟩
  · rw [h.ran hv, filter_version hsorted hf, List.flatMap_singleton, MigrationFile.effects, List.map_map]
    exact List.map_id _

/-- The first of the DML-only files are done, the others not begun. -/
theorem Good.appliedOnce (h : Good D files done im) (hsorted : files.Pairwise fun a b => a.version < b.version)
    (hsplit : files.filter D.dmlOnly = done ++ rest) : AppliedOnce D files im := by
  have hboth : (done ++ rest).Pairwise fun a b => a.version < b.version := hsplit ▸ hsorted.filter _
  obtain ⟨hdone, -, hbefore⟩ := List.pairwise_append.1 hboth
  refine ⟨fun f hf hdml => ?_, ?_⟩
  · have hv := dmlVersion_of_mem hf hdml
    rcases List.mem_append.1 (hsplit ▸ List.mem_filter.2 ⟨hf, hdml⟩ : f ∈ done ++ rest) with hmem | hmem
    · exact .inl (h.recorded hdone hv hmem)
    · have hnone : done.filter (·.version == f.version) = [] :=
        List.filter_eq_nil_iff.2 fun g hg => by simpa using (hbefore g hg f hmem).ne
      have hrows := h.rows_of hv
      have hran := h.ran hv
      rw [hnone] at hrows hran
      exact .inr ⟨List.map_eq_nil_iff.1 hrows, hran⟩
  · rw [h.effects, List.pairwise_flatMap]
    refine ⟨fun f _ => List.pairwise_map.2 (List.pairwise_of_forall fun _ _ => le_rfl), hdone.imp fun hab x hx y hy => ?_⟩
    obtain ⟨-, -, rfl⟩ := List.mem_map.1 hx
    obtain ⟨-, -, rfl⟩ := List.mem_map.1 hy
    exact hab.le

/-! ## The database -/

/-- Every image a session could come back to. -/
def Db.All (P : Image → Prop) (db : Db) : Prop :=
  P db.durable ∧ ∀ t, db.txn = some t → P t.image ∧ ∀ p ∈ t.savepoints, P p.2

theorem Db.All.image {P : Image → Prop} (h : db.All P) : P db.image := by
  cases htxn : db.txn with
  | none => simpa [Db.image, htxn] using h.1
  | some t => simpa [Db.image, htxn] using (h.2 t htxn).1

theorem Db.All.put {P : Image → Prop} (h : db.All P) (him : P im) : (db.put im).All P := by
  cases htxn : db.txn with
  | none =>
    rw [Db.put, htxn]
    exact ⟨him, fun t ht => nomatch ht⟩
  | some t =>
    rw [Db.put, htxn]
    refine ⟨h.1, fun t' ht' => ?_⟩
    cases ht'
    exact ⟨him, (h.2 t htxn).2⟩

@[simp] theorem Db.image_put (db : Db) (im : Image) : (db.put im).image = im := by
  rw [Db.put]
  split <;> rename_i htxn
  · rfl
  · rw [Db.image, htxn]
    rfl

/-- A transaction-control statement goes back to an image there was. -/
theorem Db.All.control {P : Image → Prop} (h : db.All P) {c : Control} (hc : db.control c = some db') : db'.All P := by
  have hnone : Db.All P { durable := db.durable, txn := none } := ⟨h.1, fun t ht => nomatch ht⟩
  cases htxn : db.txn with
  | none =>
    cases c <;> simp [Db.control, htxn] at hc
    subst hc
    refine ⟨h.1, fun t ht => ?_⟩
    cases ht
    exact ⟨h.1, fun p hp => nomatch hp⟩
  | some t =>
    obtain ⟨hopen, hsaved⟩ := h.2 t htxn
    cases c with
    | begin => simp [Db.control, htxn] at hc
    | commit =>
      simp only [Db.control, htxn, Option.map_some, Option.some.injEq] at hc
      subst hc
      exact ⟨hopen, fun t ht => nomatch ht⟩
    | rollback =>
      simp only [Db.control, htxn, Option.map_some, Option.some.injEq] at hc
      subst hc
      exact hnone
    | savepoint name =>
      simp only [Db.control, htxn, Option.map_some, Option.some.injEq] at hc
      subst hc
      refine ⟨h.1, fun t' ht' => ?_⟩
      cases ht'
      exact ⟨hopen, List.forall_mem_cons.2 ⟨hopen, hsaved⟩⟩
    | rollbackTo name =>
      simp only [Db.control, htxn, Option.bind_eq_bind, Option.bind_some] at hc
      have hkept : ∀ p ∈ t.savepoints.dropWhile (·.1 != name), P p.2 := fun p hp =>
        hsaved p ((List.dropWhile_sublist _).subset hp)
      split at hc
      · cases hc
      · rename_i n im rest hdrop
        cases hc
        rw [hdrop] at hkept
        refine ⟨h.1, fun t' ht' => ?_⟩
        cases ht'
        exact ⟨hkept _ List.mem_cons_self, hkept⟩
    | release name =>
      simp only [Db.control, htxn, Option.bind_eq_bind, Option.bind_some] at hc
      have hkept : ∀ p ∈ t.savepoints.dropWhile (·.1 != name), P p.2 := fun p hp =>
        hsaved p ((List.dropWhile_sublist _).subset hp)
      split at hc
      · cases hc
      · rename_i p rest hdrop
        cases hc
        rw [hdrop] at hkept
        refine ⟨h.1, fun t' ht' => ?_⟩
        cases ht'
        exact ⟨hopen, fun q hq => hkept q (List.mem_cons_of_mem _ hq)⟩

/-! ## Statements sent -/

/-- An assertion about the database and the trace. -/
abbrev Assertion := Db → List Event → Prop

def Assertion.at (P : Assertion) (w : World) : Prop := P w.db w.trace

/-- The event of a statement that took effect. -/
def Database.tookEvent (o : Origin) (db db' : Db) : Event := ⟨o, true, db.image.tracking, db'.image.tracking⟩

/-- The event of a statement without effect. -/
def Database.missedEvent (o : Origin) (db : Db) : Event := ⟨o, false, db.image.tracking, db.image.tracking⟩

open Database (tookEvent missedEvent)

theorem exec_cases (D : Database) (o : Origin) (w : World) :
    (∃ db, D.perform w.db o = some db ∧ (D.exec o w).2.db = db ∧ (D.exec o w).2.trace = tookEvent o w.db db :: w.trace) ∨
    ((D.exec o w).2.db = w.db ∧ (D.exec o w).2.trace = missedEvent o w.db :: w.trace ∧
      ∃ e, (D.exec o w).1 = .error e) := by
  cases halive : w.alive
  · exact .inr (by simp [Database.exec, halive, World.log, missedEvent])
  · rw [Database.exec, if_pos halive]
    generalize w.fates.headD .done = fate
    cases hperform : D.perform w.db o with
    | none =>
      refine .inr ?_
      rcases fate with _ | ⟨message, took | took, alive⟩ <;>
        simp [Database.answer, Fate.took, hperform, World.log, missedEvent]
    | some db =>
      rcases fate with _ | ⟨message, took | took, alive⟩
      · exact .inl ⟨db, rfl, by simp [Database.answer, Fate.took, hperform, World.log],
          by simp [Database.answer, Fate.took, hperform, World.log, tookEvent]⟩
      · exact .inr (by simp [Database.answer, Fate.took, World.log, missedEvent])
      · exact .inl ⟨db, rfl, by simp [Database.answer, Fate.took, hperform, World.log],
          by simp [Database.answer, Fate.took, hperform, World.log, tookEvent]⟩

/-- **A statement sent**: it took effect, answered or not, or it failed without. -/
theorem exec_triple {P Q E : Assertion} {o : Origin} {sql : String}
    (htook : ∀ db t db', P db t → D.perform db o = some db' →
      Q db' (tookEvent o db db' :: t) ∧ E db' (tookEvent o db db' :: t))
    (hmissed : ∀ db t, P db t → E db (missedEvent o db :: t)) :
    Triple D.handler P.at (exec o sql) (fun _ => Q.at) fun _ => E.at := by
  intro w hw
  change Outcome _ _ (D.exec o w)
  have hcases := exec_cases D o w
  generalize D.exec o w = r at hcases
  obtain ⟨answer, w'⟩ := r
  rcases hcases with ⟨db, hperform, hdb, htrace⟩ | ⟨hdb, htrace, e, rfl⟩
  · obtain ⟨hq, he⟩ := htook w.db w.trace db hw hperform
    dsimp only at hdb htrace
    cases answer
    · change E w'.db w'.trace
      rw [hdb, htrace]
      exact he
    · change Q w'.db w'.trace
      rw [hdb, htrace]
      exact hq
  · change E w'.db w'.trace
    dsimp only at hdb htrace
    rw [hdb, htrace]
    exact hmissed w.db w.trace hw

/-! ## What an attempt keeps -/

/-- Nothing is left unrecorded, and in a clean attempt `P` holds of the database. -/
def Holding (D : Database) (P : Db → Prop) : Assertion := fun db t => Settled D t ∧ (Clean D t → P db)

/-- The files still to do are the ones after those done, in every image. -/
def Ready (D : Database) (files rest : List MigrationFile) (db : Db) : Prop :=
  ∃ done, files.filter D.dmlOnly = done ++ rest.filter D.dmlOnly ∧ db.All (Good D files done)

/-- The DML-only files split into those done, durably, and the others. -/
def Split (D : Database) (files : List MigrationFile) (db : Db) : Prop :=
  ∃ done rest, files.filter D.dmlOnly = done ++ rest ∧ Good D files done db.durable

/-- What a stop leaves durable. -/
def Stopped (D : Database) (files : List MigrationFile) : Assertion := fun db t =>
  Clean D t → Settled D t → Split D files db

theorem settled_cons {e : Event} (h : ∀ f, D.dmlOnly f = true → e.origin ≠ .commit f) (t : List Event) :
    Settled D (e :: t) := by
  change e.commits D = false
  cases horigin : e.origin with
  | commit f =>
    have hdml : D.dmlOnly f = false := by
      by_contra hne
      exact h f (Bool.eq_true_of_not_eq_false hne) horigin
    simp [Event.commits, horigin, hdml]
  | _ => simp [Event.commits, horigin]

theorem Holding.stopped (h : Holding D (Split D files) db t) : Stopped D files db t := fun hclean _ => h.2 hclean

theorem Ready.split (h : Ready D files rest db) : Split D files db := by
  obtain ⟨done, hsplit, hall⟩ := h
  exact ⟨done, _, hsplit, hall.1⟩

/-- A statement other than COMMIT: with its effect it turns `P` into `Q`, and without it
keeps `P`. -/
theorem exec_holding {P Q R : Db → Prop} {o : Origin} {sql : String} (horigin : ∀ f, D.dmlOnly f = true → o ≠ .commit f)
    (hkeep : ∀ db db', P db → D.perform db o = some db' → (tookEvent o db db').spares D → Q db')
    (hP : ∀ db, P db → R db) (hQ : ∀ db, Q db → R db) :
    Triple D.handler (Holding D P).at (exec o sql) (fun _ => (Holding D Q).at) fun _ => (Holding D R).at := by
  refine exec_triple (fun db t db' hholds hperform => ?_) fun db t hholds =>
    ⟨settled_cons horigin t, fun hclean => hP db (hholds.2 hclean.2.2)⟩
  have hnext (hclean : Clean D (tookEvent o db db' :: t)) : Q db' :=
    hkeep db db' (hholds.2 hclean.2.2) hperform hclean.2.1
  exact ⟨⟨settled_cons horigin t, hnext⟩, settled_cons horigin t, fun hclean => hQ db' (hnext hclean)⟩

/-! ## A file with DDL -/

theorem Db.All.statement (h : db.All (Good D files done)) (hv : D.dmlVersion files f.version = false) {sql : String}
    (hperform : D.perform db (.statement f sql) = some db')
    (hspares : (tookEvent (.statement f sql) db db').spares D) : db'.All (Good D files done) := by
  simp only [Database.perform] at hperform
  cases hcontrol : D.control sql with
  | some c =>
    rw [hcontrol] at hperform
    exact h.control hperform
  | none =>
    rw [hcontrol] at hperform
    cases hperform
    have hkept := hspares hcontrol rfl
    simp only [tookEvent, Db.image_put] at hkept
    exact h.put (h.image.statement hv hkept.symm)

/-- A program that keeps an assertion, also where it stops. -/
def Keeps (D : Database) (P : Db → Prop) {α : Type} (p : Migrate α) : Prop :=
  Triple D.handler (Holding D P).at p (fun _ => (Holding D P).at) fun _ => (Holding D P).at

theorem exec_keeps {P : Db → Prop} {o : Origin} {sent : String} (horigin : ∀ f, D.dmlOnly f = true → o ≠ .commit f)
    (hkeep : ∀ db db', P db → D.perform db o = some db' → (tookEvent o db db').spares D → P db') :
    Keeps D P (exec o sent) := exec_holding horigin hkeep (fun _ => id) fun _ => id

theorem Keeps.forM {P : Db → Prop} {α : Type} {p : α → Migrate Unit} (h : ∀ a, Keeps D P (p a)) (l : List α) :
    Keeps D P (l.forM p) :=
  Triple.forM (I := fun _ => (Holding D P).at) (fun a _ => h a) l

/-- A statement sent for a file that is not DML-only. -/
theorem other_keeps (hv : D.dmlVersion files f.version = false) (hdml : D.dmlOnly f = false) {o : Origin} {sent : String}
    (ho : o = .begin f ∨ o = .commit f ∨ o = .rollback f ∨ ∃ sql, o = .statement f sql) :
    Keeps D (Ready D files rest) (exec o sent) := by
  refine exec_keeps ?_ ?_
  · rintro g hg rfl
    rcases ho with h | h | h | ⟨sql, h⟩ <;> cases h
    rw [hdml] at hg
    cases hg
  · rintro db db' ⟨done, hsplit, hall⟩ hperform hspares
    refine ⟨done, hsplit, ?_⟩
    rcases ho with rfl | rfl | rfl | ⟨sql, rfl⟩
    · exact Db.All.control (c := .begin) hall hperform
    · exact Db.All.control (c := .commit) hall hperform
    · exact Db.All.control (c := .rollback) hall hperform
    · exact hall.statement hv hperform hspares

theorem applyWithin_keeps (hv : D.dmlVersion files f.version = false) (hdml : D.dmlOnly f = false) (s : String × Nat) :
    Keeps D (Ready D files rest) (applyWithin f s) := by
  have hstatement : Keeps D (Ready D files rest) (exec (.statement f s.1) s.1) :=
    other_keeps hv hdml (.inr (.inr (.inr ⟨s.1, rfl⟩)))
  have hrollback : Keeps D (Ready D files rest) (exec (.rollback f) "ROLLBACK") :=
    other_keeps hv hdml (.inr (.inr (.inl rfl)))
  refine Triple.bind (Q := fun _ => (Holding D (Ready D files rest)).at) (Triple.attempt hstatement) fun r => ?_
  cases r with
  | ok a => exact Triple.pure fun _ hw => hw
  | error e =>
    exact Triple.bind (Q := fun _ => (Holding D (Ready D files rest)).at) (Triple.attempt hrollback)
      fun _ => Triple.throw fun _ hw => hw

theorem applyStatements_keeps (hv : D.dmlVersion files f.version = false) (hdml : D.dmlOnly f = false) :
    Keeps D (Ready D files rest) (applyStatements f) := by
  unfold applyStatements
  dsimp only
  split
  · exact Keeps.forM (fun s : String × Nat => Triple.adapt (other_keeps hv hdml (.inr (.inr (.inr ⟨s.1, rfl⟩))))) _
  · refine Triple.bind (other_keeps hv hdml (.inl rfl)) fun _ => ?_
    exact Triple.bind (Keeps.forM (applyWithin_keeps hv hdml) _) fun _ => other_keeps hv hdml (.inr (.inl rfl))

/-- The row of a file that is not DML-only. -/
theorem recordApplied_keeps (hv : D.dmlVersion files f.version = false) {name checksum : String} {now : Int} :
    Keeps D (Ready D files rest) (recordApplied f.version name checksum now) := by
  refine Triple.adapt (exec_keeps (fun g _ hg => nomatch hg) ?_)
  rintro db db' ⟨done, hsplit, hall⟩ hperform -
  obtain ⟨im, hinsert, rfl⟩ := Option.map_eq_some_iff.1 hperform
  exact ⟨done, hsplit, hall.put (hall.image.insert_other hv hinsert)⟩

/-! ## A DML-only file -/

/-- Inside the transaction of a file, after its statements `ran`. -/
def Within (D : Database) (files rest : List MigrationFile) (f : MigrationFile) (ran : List String) (db : Db) : Prop :=
  ∃ done, files.filter D.dmlOnly = done ++ f :: rest.filter D.dmlOnly ∧ Good D files done db.durable ∧
    db.txn = some ⟨{ db.durable with effects := db.durable.effects ++ ran.map fun s => ⟨f.version, s⟩ }, []⟩

theorem Within.split {ran : List String} (h : Within D files rest f ran db) : Split D files db := by
  obtain ⟨done, hsplit, hgood, -⟩ := h
  exact ⟨done, _, hsplit, hgood⟩

theorem begin_triple (hdml : D.dmlOnly f = true) {sql : String} :
    Triple D.handler (Holding D (Ready D files (f :: rest))).at (exec (.begin f) sql)
      (fun _ => (Holding D (Within D files rest f [])).at) fun _ => (Holding D (Split D files)).at := by
  refine exec_holding (fun g _ hg => nomatch hg) ?_ (fun _ => Ready.split) fun _ => Within.split
  rintro db db' ⟨done, hsplit, hall⟩ hperform -
  rw [List.filter_cons_of_pos hdml] at hsplit
  simp only [Database.perform, Db.control] at hperform
  split at hperform
  · cases hperform
  · cases hperform
    exact ⟨done, hsplit, hall.1, by simp⟩

theorem within_triple {ran : List String} {sql sent : String} (hcontrol : D.control sql = none) :
    Triple D.handler (Holding D (Within D files rest f ran)).at (exec (.statement f sql) sent)
      (fun _ => (Holding D (Within D files rest f (ran ++ [sql]))).at) fun _ => (Holding D (Split D files)).at := by
  refine exec_holding (fun g _ hg => nomatch hg) ?_ (fun _ => Within.split) fun _ => Within.split
  rintro db db' ⟨done, hsplit, hgood, htxn⟩ hperform hspares
  simp only [Database.perform, hcontrol] at hperform
  cases hperform
  have hkept := hspares hcontrol rfl
  simp only [tookEvent, Db.image_put] at hkept
  have himage : db.image.tracking = db.durable.tracking := by rw [Db.image, htxn]; rfl
  rw [himage] at hkept
  refine ⟨done, hsplit, ?_, ?_⟩
  · rw [Db.put, htxn]
    exact hgood
  · simp [Db.put, Db.image, htxn, ← hkept]

/-- A statement of the file, or a rollback and a stop. -/
theorem applyWithin_triple {ran : List String} {s : String × Nat} (hcontrol : D.control s.1 = none) :
    Triple D.handler (Holding D (Within D files rest f ran)).at (applyWithin f s)
      (fun _ => (Holding D (Within D files rest f (ran ++ [s.1]))).at) fun _ => (Holding D (Split D files)).at := by
  refine Triple.bind (Q := fun r => match r with
    | .ok _ => (Holding D (Within D files rest f (ran ++ [s.1]))).at
    | .error _ => (Holding D (Split D files)).at) (Triple.attempt (within_triple hcontrol)) fun r => ?_
  cases r with
  | ok a => exact Triple.pure fun _ hw => hw
  | error e =>
    refine Triple.bind (Q := fun _ => (Holding D (Split D files)).at) (Triple.attempt ?_)
      fun _ => Triple.throw fun _ hw => hw
    refine exec_holding (fun g _ hg => nomatch hg) ?_ (fun _ => id) fun _ => id
    rintro db db' ⟨done, rest, hsplit, hgood⟩ hperform -
    obtain ⟨txn, -, rfl⟩ := Option.map_eq_some_iff.1 hperform
    exact ⟨done, rest, hsplit, hgood⟩

/-- The statements of the file. -/
theorem statements_triple (hdml : D.dmlOnly f = true) :
    Triple D.handler (Holding D (Within D files rest f [])).at ((splitStatements f.body).zipIdx.forM (applyWithin f))
      (fun _ => (Holding D (Within D files rest f (splitStatements f.body))).at)
      fun _ => (Holding D (Split D files)).at := by
  -- What is left to run, after what ran, is the file.
  let I (left : List (String × Nat)) : Assertion := fun db t => (∀ s ∈ left, D.control s.1 = none) ∧
    ∃ ran, ran ++ left.map (·.1) = splitStatements f.body ∧ Holding D (Within D files rest f ran) db t
  have hloop : ∀ left, Triple D.handler (I left).at (left.forM (applyWithin f)) (fun _ => (I []).at)
      fun _ => (Holding D (Split D files)).at := by
    refine Triple.forM (I := fun left => (I left).at) fun s left w hw => ?_
    obtain ⟨hcontrol, ran, hran, hholds⟩ := hw
    have hone := applyWithin_triple (hcontrol s List.mem_cons_self) w hholds
    generalize (applyWithin f s).run.run D.handler w = r at hone
    obtain ⟨e | a, w'⟩ := r
    · exact hone
    · exact ⟨fun s' hs' => hcontrol s' (List.mem_cons_of_mem _ hs'), ran ++ [s.1], by simpa using hran, hone⟩
  have hall : ∀ s ∈ splitStatements f.body, D.control s = none := fun s hs => by
    have hs' := List.all_eq_true.1 hdml s hs
    simp only [Bool.and_eq_true, Option.isNone_iff_eq_none] at hs'
    exact hs'.2
  intro w hw
  have hstart : (I (splitStatements f.body).zipIdx).at w := by
    refine ⟨fun s hs => hall s.1 ?_, [], ?_, hw⟩
    · exact List.fst_mem_of_mem_zipIdx hs
    · simp
  have hend := hloop _ w hstart
  generalize (List.forM _ (applyWithin f)).run.run D.handler w = r at hend ⊢
  obtain ⟨e | a, w'⟩ := r
  · exact hend
  · obtain ⟨-, ran, hran, hholds⟩ := hend
    rw [List.map_nil, List.append_nil] at hran
    subst hran
    exact hholds

/-- Just after the COMMIT of a file. -/
def Committed (D : Database) (files rest : List MigrationFile) (f : MigrationFile) : Assertion := fun db t =>
  (∃ c, t.head? = some c ∧ c.origin = .commit f ∧ c.took = true) ∧ (Clean D t →
    ∃ done im, files.filter D.dmlOnly = done ++ f :: rest.filter D.dmlOnly ∧ db.txn = none ∧ Good D files done im ∧
      db.durable = { im with effects := im.effects ++ f.effects })

/-- A file committed and not recorded had no statement, if nothing went wrong. -/
theorem Committed.split (h : Committed D files rest f db t) (hdml : D.dmlOnly f = true) (hclean : Clean D t)
    (hnone : pendingCommit D t = false) : Split D files db := by
  obtain ⟨⟨c, hc, horigin, htook⟩, hstate⟩ := h
  obtain ⟨done, im, hsplit, -, hgood, hdurable⟩ := hstate hclean
  have hempty : splitStatements f.body = [] := by
    rw [pendingCommit, hc, Option.any_some, Event.commits, htook, horigin] at hnone
    simpa [hdml] using hnone
  refine ⟨done, _, hsplit, ?_⟩
  rw [hdurable, MigrationFile.effects, hempty, List.map_nil, List.append_nil]
  exact hgood

theorem commit_triple (hdml : D.dmlOnly f = true) {sent : String} :
    Triple D.handler (Holding D (Within D files rest f (splitStatements f.body))).at (exec (.commit f) sent)
      (fun _ => (Committed D files rest f).at) fun _ => (Stopped D files).at := by
  refine exec_triple (fun db t db' hholds hperform => ?_) fun db t hholds hclean _ => (hholds.2 hclean.2.2).split
  have hcommitted : Committed D files rest f db' (tookEvent (.commit f) db db' :: t) := by
    refine ⟨⟨_, rfl, rfl, rfl⟩, fun hclean => ?_⟩
    obtain ⟨done, hsplit, hgood, htxn⟩ := hholds.2 hclean.2.2
    simp only [Database.perform, Db.control, htxn, Option.map_some, Option.some.injEq] at hperform
    subst hperform
    exact ⟨done, db.durable, hsplit, rfl, hgood, rfl⟩
  exact ⟨hcommitted, fun hclean hsettled => hcommitted.split hdml hclean hsettled⟩

/-- The row of a DML-only file. -/
theorem recordApplied_triple (hv : D.dmlVersion files f.version = true) (hdml : D.dmlOnly f = true) {now : Int} :
    Triple D.handler (Committed D files rest f).at (recordApplied f.version f.name (fnv1aHex f.body) now)
      (fun _ => (Holding D (Ready D files rest)).at) fun _ => (Stopped D files).at := by
  refine Triple.adapt ?_
  refine exec_triple (fun db t db' hcommitted hperform => ?_) fun db t hcommitted hclean _ => ?_
  · have hready (hclean : Clean D t) : Ready D files rest db' := by
      obtain ⟨done, im, hsplit, htxn, hgood, hdurable⟩ := hcommitted.2 hclean
      obtain ⟨im', hinsert, rfl⟩ := Option.map_eq_some_iff.1 hperform
      have himage : db.image = db.durable := by rw [Db.image, htxn]; rfl
      rw [himage, hdurable] at hinsert
      refine ⟨done ++ [f], by rw [hsplit, List.append_assoc]; rfl, ?_⟩
      rw [Db.put, htxn]
      exact ⟨hgood.insert_done hv hinsert, fun t ht => nomatch ht⟩
    exact ⟨⟨settled_cons (by simp [tookEvent]) t, fun hclean => hready hclean.2.2⟩,
      fun hclean _ => (hready hclean.2.2).split⟩
  · refine hcommitted.split hdml hclean.2.2 (Bool.eq_false_iff.2 fun hpending => ?_)
    have hrecords := hclean.1 hpending
    simp [Event.records, missedEvent] at hrecords

/-! ## The files in order -/

/-- **One file**: done and recorded, or a stop between two files. -/
theorem applyOne_triple (hnodup : (files.map (·.version)).Nodup) (hf : f ∈ files) {now : Int} :
    Triple D.handler (Holding D (Ready D files (f :: rest))).at (applyOne f now)
      (fun _ => (Holding D (Ready D files rest)).at) fun _ => (Stopped D files).at := by
  have hversion := dmlOnly_of_dmlVersion (D := D) hnodup hf
  cases hdml : D.dmlOnly f
  · rw [hdml] at hversion
    have hsame : Ready D files (f :: rest) = Ready D files rest := by
      funext db
      rw [Ready, Ready, List.filter_cons_of_neg (by simp [hdml])]
    rw [hsame]
    have hstop : ∀ (e : String) (w : World), (Holding D (Ready D files rest)).at w → (Stopped D files).at w :=
      fun _ w hw hclean _ => (hw.2 hclean).split
    exact Triple.bind ((applyStatements_keeps hversion hdml).stop hstop)
      fun _ => (recordApplied_keeps hversion).stop hstop
  · rw [hdml] at hversion
    have hstop : ∀ (e : String) (w : World), (Holding D (Split D files)).at w → (Stopped D files).at w :=
      fun _ w hw => hw.stopped
    have hnoddl : (splitStatements f.body).any isDdl = false := by
      rw [List.any_eq_false]
      intro s hs
      have hs' := List.all_eq_true.1 hdml s hs
      simp only [Bool.and_eq_true, Bool.not_eq_true'] at hs'
      simp [hs'.1]
    refine Triple.bind ?_ fun _ => recordApplied_triple hversion hdml
    unfold applyStatements
    dsimp only
    rw [if_neg (by simp [hnoddl])]
    exact Triple.bind ((begin_triple hdml).stop hstop) fun _ =>
      Triple.bind ((statements_triple hdml).stop hstop) fun _ => commit_triple hdml

theorem applyPending_triple (hnodup : (files.map (·.version)).Nodup) (now : Int) :
    ∀ {pending : List MigrationFile}, (∀ f ∈ pending, f ∈ files) → ∀ (out : String) (count : Nat),
      Triple D.handler (Holding D (Ready D files pending)).at (applyPending now pending out count)
        (fun _ => (Holding D (Ready D files [])).at) fun _ => (Stopped D files).at
  | [], _, out, count => Triple.pure fun _ hw => hw
  | f :: pending, hsub, out, count =>
    Triple.bind (Triple.adapt (applyOne_triple hnodup (hsub f List.mem_cons_self))) fun _ =>
      applyPending_triple hnodup now (fun g hg => hsub g (List.mem_cons_of_mem _ hg)) _ _

/-! ## Which files are pending -/

theorem pairwise_lt_of_sharedVersion : ∀ {l : List MigrationFile}, (l.Pairwise fun a b => a.version ≤ b.version) →
    sharedVersion l = none → l.Pairwise fun a b => a.version < b.version
  | [], _, _ => .nil
  | [a], _, _ => List.pairwise_singleton _ _
  | a :: b :: l, hsorted, hnone => by
    obtain ⟨hfirst, hrest⟩ := List.pairwise_cons.1 hsorted
    rw [sharedVersion] at hnone
    split at hnone
    · cases hnone
    · rename_i hne
      have hstrict := pairwise_lt_of_sharedVersion hrest hnone
      have hab : a.version < b.version := lt_of_le_of_ne (hfirst b List.mem_cons_self) hne
      refine List.pairwise_cons.2 ⟨List.forall_mem_cons.2 ⟨hab, fun c hc => ?_⟩, hstrict⟩
      exact hab.trans ((List.pairwise_cons.1 hstrict).1 c hc)

/-- The files come in version order, no two of one version. -/
theorem loadMigrations_sorted {dir : Directory} (h : loadMigrations dir = .ok files) :
    files.Pairwise fun a b => a.version < b.version := by
  unfold loadMigrations at h
  cases hlisting : dir.listing with
  | none =>
    rw [hlisting] at h
    cases h
    exact .nil
  | some listing =>
    simp only [hlisting] at h
    obtain ⟨entries, -, h⟩ := Except.bind_eq_ok.1 h
    obtain ⟨loaded, -, h⟩ := Except.bind_eq_ok.1 h
    split at h
    · cases h
    · rename_i hnone
      cases h
      exact pairwise_lt_of_sharedVersion (List.pairwise_insertionSort _ _) hnone

/-- What the tracking table of a good image does not list is still to do. -/
theorem Good.pending (h : Good D files done im) (hsorted : files.Pairwise fun a b => a.version < b.version)
    (hsplit : files.filter D.dmlOnly = done ++ rest) {applied : List (String × String)}
    (happlied : ∀ v, (∃ c, (v, c) ∈ applied) ↔ ∃ r ∈ im.tracking.getD [], r.version = v) :
    (files.filter fun f => !applied.any fun a => a.1 == f.version).filter D.dmlOnly = rest := by
  have hboth : (done ++ rest).Pairwise fun a b => a.version < b.version := hsplit ▸ hsorted.filter _
  obtain ⟨hdone, -, hbefore⟩ := List.pairwise_append.1 hboth
  have hmem : ∀ f ∈ done ++ rest, D.dmlVersion files f.version = true := fun f hf => by
    obtain ⟨hfiles, hdml⟩ := List.mem_filter.1 (hsplit ▸ hf)
    exact dmlVersion_of_mem hfiles hdml
  have hany : ∀ f : MigrationFile, (applied.any fun a => a.1 == f.version) = true ↔ im.rows f ≠ [] := fun f => by
    have hv := happlied f.version
    simp only [List.any_eq_true, beq_iff_eq, Image.rows, ne_eq, List.filter_eq_nil_iff, not_forall, not_not]
    constructor
    · rintro ⟨⟨v, c⟩, ha, rfl⟩
      obtain ⟨r, hr, hrv⟩ := hv.1 ⟨c, ha⟩
      exact ⟨r, hr, hrv⟩
    · rintro ⟨r, hr, hrv⟩
      obtain ⟨c, hc⟩ := hv.2 ⟨r, hr, hrv⟩
      exact ⟨(f.version, c), hc, rfl⟩
  rw [List.filter_comm, hsplit, List.filter_append]
  have hnone : done.filter (fun f => !applied.any fun a => a.1 == f.version) = [] :=
    List.filter_eq_nil_iff.2 fun f hf => by
      obtain ⟨at', hrows⟩ := (h.recorded hdone (hmem f (List.mem_append_left _ hf)) hf).1
      have hf' := (hany f).2 (by simp [hrows])
      simp [hf']
  have hall : rest.filter (fun f => !applied.any fun a => a.1 == f.version) = rest :=
    List.filter_eq_self.2 fun f hf => by
      have hnil : done.filter (·.version == f.version) = [] :=
        List.filter_eq_nil_iff.2 fun g hg => by simpa using (hbefore g hg f hf).ne
      have hrows := h.rows_of (hmem f (List.mem_append_right _ hf))
      rw [hnil] at hrows
      have hf' : ¬ (applied.any fun a => a.1 == f.version) = true := fun htrue =>
        (hany f).1 htrue (List.map_eq_nil_iff.1 hrows)
      rw [Bool.not_eq_true] at hf'
      simp only [hf', Bool.not_false]
  rw [hnone, hall, List.nil_append]

/-! ## One attempt -/

/-- Outside a transaction, as an attempt begins. -/
def Fresh (D : Database) (files : List MigrationFile) (db : Db) : Prop := db.txn = none ∧ Split D files db

theorem ensureTrackingTable_keeps : Keeps D (Fresh D files) ensureTrackingTable := by
  refine Triple.adapt (exec_keeps (fun g _ hg => nomatch hg) ?_)
  rintro db db' ⟨htxn, done, rest, hsplit, hgood⟩ hperform -
  cases hperform
  rw [Db.put, htxn, Db.image, htxn]
  exact ⟨rfl, done, rest, hsplit, hgood.createTracking⟩

theorem appliedVersions_triple (hsorted : files.Pairwise fun a b => a.version < b.version) :
    Triple D.handler (Holding D (Fresh D files)).at appliedVersions
      (fun applied => (Holding D (Ready D files (files.filter fun f => !applied.any fun a => a.1 == f.version))).at)
      fun _ => (Stopped D files).at := by
  refine Triple.adapt fun w hw => ?_
  change Outcome _ _ (D.applied w)
  have hstopped : ∀ w' : World, w'.db = w.db → w'.trace = w.trace → (Stopped D files).at w' := fun w' hdb htrace => by
    rw [Assertion.at, hdb, htrace]
    exact fun hclean _ => (hw.2 hclean).2
  unfold Database.applied
  split
  · exact hstopped w rfl rfl
  · dsimp only
    split
    · exact hstopped _ rfl rfl
    · split
      · exact hstopped _ rfl rfl
      · rename_i rows hrows
        refine ⟨hw.1, fun hclean => ?_⟩
        obtain ⟨htxn, done, rest, hsplit, hgood⟩ := hw.2 hclean
        have himage : w.db.image = w.db.durable := by rw [Db.image, htxn]; rfl
        rw [himage] at hrows
        refine ⟨done, ?_, hgood, fun t ht => absurd (htxn.symm.trans ht) (by simp)⟩
        rw [hsplit, hgood.pending hsorted hsplit fun v => ?_]
        rw [hrows, Option.getD_some]
        constructor
        · rintro ⟨c, hc⟩
          obtain ⟨r, hr, hrv⟩ := List.mem_map.1 hc
          cases hrv
          exact ⟨r, (List.mem_insertionSort _).1 hr, rfl⟩
        · rintro ⟨r, hr, rfl⟩
          exact ⟨r.checksum, List.mem_map.2 ⟨r, (List.mem_insertionSort _).2 hr, rfl⟩⟩

/-- **One attempt** does the first of the files still to do, and all of them when it
answers. -/
theorem up_triple {dir : Directory} (hload : loadMigrations dir = .ok files) (now : Int) :
    Triple D.handler (Holding D (Fresh D files)).at (up dir now) (fun _ => (Holding D (Ready D files [])).at)
      fun _ => (Stopped D files).at := by
  have hsorted := loadMigrations_sorted hload
  have hnodup : (files.map (·.version)).Nodup := List.pairwise_map.2 (hsorted.imp fun h => ne_of_lt h)
  refine Triple.bind (ensureTrackingTable_keeps.stop fun _ w hw hclean _ => (hw.2 hclean).2) fun _ => ?_
  rw [hload]
  refine Triple.bind (Q := fun loaded w => loaded = files ∧ (Holding D (Fresh D files)).at w)
    (Triple.pure fun _ hw => ⟨rfl, hw⟩) fun loaded => ?_
  intro w ⟨hloaded, hw⟩
  subst hloaded
  refine Triple.bind (appliedVersions_triple hsorted) (fun applied => ?_) w hw
  dsimp only
  split
  · rename_i hempty
    rw [List.isEmpty_iff.1 hempty]
    exact Triple.pure fun _ hw => hw
  · exact applyPending_triple hnodup now (fun f hf => (List.mem_filter.1 hf).1) _ _

/-! ## Every run and its re-runs -/

theorem Good.of_nil (im : Image) : Good D [] [] im :=
  ⟨List.filter_eq_nil_iff.2 fun e _ => by simp [Database.dmlVersion],
    List.map_eq_nil_iff.2 (List.filter_eq_nil_iff.2 fun r _ => by simp [Database.dmlVersion])⟩

/-- A sealed attempt leaves the files split, and done when it answers. -/
theorem attempt_split {dir : Directory} {a : Attempt} (hsplit : Split D dir.files ⟨im, none⟩)
    (hsealed : Sealed D (attempt D dir im a).2.trace) : Split D dir.files (attempt D dir im a).2.db ∧
      ∀ out, (attempt D dir im a).1 = .ok out → Ready D dir.files [] (attempt D dir im a).2.db := by
  cases hload : loadMigrations dir with
  | error e =>
    have hfiles : dir.files = [] := by rw [Directory.files, hload]
    rw [hfiles]
    have hgood : ∀ im : Image, Good D [] [] im := Good.of_nil
    refine ⟨⟨[], [], rfl, hgood _⟩, fun out _ => ⟨[], rfl, hgood _, fun t _ => ⟨hgood _, fun p _ => hgood _⟩⟩⟩
  | ok files =>
    have hfiles : dir.files = files := by rw [Directory.files, hload]
    rw [hfiles] at hsplit ⊢
    have hend := up_triple (D := D) hload a.now { db := ⟨im, none⟩, alive := true, fates := a.fates, trace := [] }
      ⟨rfl, fun _ => ⟨rfl, hsplit⟩⟩
    change Outcome _ _ (attempt D dir im a) at hend
    generalize attempt D dir im a = r at hend hsealed ⊢
    obtain ⟨e | out, w⟩ := r
    · exact ⟨hend hsealed.1 hsealed.2, fun out hout => nomatch hout⟩
    · exact ⟨(hend.2 hsealed.1).split, fun _ _ => hend.2 hsealed.1⟩

theorem attempts_split {dir : Directory} (as : List Attempt) : ∀ {im : Image}, Split D dir.files ⟨im, none⟩ →
    (∀ r ∈ attempts D dir im as, Sealed D r.2.trace) → ∀ r ∈ attempts D dir im as,
      Split D dir.files r.2.db ∧ ∀ out, r.1 = .ok out → Ready D dir.files [] r.2.db := by
  induction as with
  | nil => intro im _ _ r hr; cases hr
  | cons a as ih =>
    intro im hsplit hsealed r hr
    rw [attempts] at hsealed hr
    obtain ⟨hfirst, hrest⟩ := List.forall_mem_cons.1 hsealed
    have hone := attempt_split hsplit hfirst
    rcases List.mem_cons.1 hr with rfl | hr
    · exact hone
    · exact ih hone.1 hrest r hr

theorem Directory.sorted (dir : Directory) : dir.files.Pairwise fun a b => a.version < b.version := by
  cases hload : loadMigrations dir with
  | error e =>
    rw [Directory.files, hload]
    exact .nil
  | ok files =>
    rw [Directory.files, hload]
    exact loadMigrations_sorted hload

/-- A database that takes every statement as neither transaction control nor a write to
the tracking table. -/
def Database.plain : Database := {
  control := fun _ => none
  tracked := fun _ rows => rows
  refusal := fun _ => "refused"
  lost := "connection lost" }

/-- One migration: an insert. -/
def oneMigration : Directory := {
  path := "migrations"
  listing := some (.ok [.ok ⟨"migrations/1_a.sql", some "sql", some "1_a", .ok "INSERT INTO t VALUES (1);"⟩]) }

end Twill.Migrate
