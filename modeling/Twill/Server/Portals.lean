/-
Portals and what they run (`session.rs`: `bind`, `describe`, `execute`, `close`,
`materialize`).

A portal keeps the name of its statement and looks it up when it first runs. What it
was bound to is followed beside the session, together with the result of the run it
holds.
-/
import Twill.Lib.Transition
import Twill.LexFacts
import Twill.Server.Session

namespace Twill.Server

open Transition

variable {σ D : Type} {E : Engine σ} {K : Codec}

/-- What a `Bind` gave a portal: the statement its name denoted, the parameters and the
result formats. -/
structure Bound where
  prep : Prepared
  params : List Value
  formats : List Int16

/-- One run of what a portal is bound to. -/
def once (E : Engine σ) (K : Codec) (w : World σ) (b : Bound) : Except Fault Mat × World σ :=
  (produce E K b.prep b.params).run.run (World.ask E) w

/-- A session with what its portals are bound to, and the results of the runs they hold. -/
structure Traced (σ : Type) where
  world : World σ
  bound : String → Option Bound
  held : String → Option Mat

def Traced.init (E : Engine σ) (engine : σ) : Traced σ := ⟨World.init E engine, fun _ => none, fun _ => none⟩

/-- What a message binds, drops or leaves in a portal. -/
def Traced.follow (E : Engine σ) (K : Codec) (t : Traced σ) (w : World σ) : Frontend → Traced σ
  | .bind portal stmt paramFormats params formats =>
    match if t.world.skipUntilSync then none else t.world.stmts.lookup stmt with
    | none => { t with world := w }
    | some prep =>
      let values := params.zipIdx.map fun (raw, i) => decodeParam K raw (fmtAt paramFormats i)
      ⟨w, Function.update t.bound portal (some ⟨prep, values, formats⟩), Function.update t.held portal none⟩
  | .describe kind name =>
    match if t.world.skipUntilSync ∨ kind = 'S' then none else t.bound name, t.held name with
    | some b, none => ⟨w, t.bound, Function.update t.held name (once E K t.world b).1.toOption⟩
    | _, _ => { t with world := w }
  | .execute name _ =>
    if t.world.skipUntilSync then { t with world := w } else ⟨w, t.bound, Function.update t.held name none⟩
  | .close kind name =>
    if kind = 'S' then { t with world := w }
    else ⟨w, Function.update t.bound name none, Function.update t.held name none⟩
  | _ => { t with world := w }

def Traced.step (E : Engine σ) (K : Codec) (t : Traced σ) (m : Frontend) : Option (Traced σ) :=
  (t.world.step E K m).map fun w => t.follow E K w m

/-- The replies that hand a result out. -/
def delivered (mat : Mat) (formats : List Int16) : List Event :=
  (if mat.hasRows then mat.rows.map fun row => .sent (.dataRow (cells formats row)) else []) ++
    [.sent (.commandComplete mat.tag)]

def described (mat : Mat) (formats : List Int16) : Event :=
  .sent (if mat.hasRows then .rowDescription (fields mat.columns mat.oids formats) else .noData)

/-- A turn answers from one result: the one a portal holds, with nothing run, or that of
running, once, what the portal is bound to. -/
def AnswersFrom (E : Engine σ) (K : Codec) (t : Traced σ) (m : Frontend) (name : String) (b : Bound)
    (answer : Mat → List Event) : Prop :=
  match t.held name with
  | some mat => (t.world.turn E K m).engine = t.world.engine ∧ (t.world.turn E K m).log = t.world.log ++ answer mat
  | none => (t.world.turn E K m).engine = (once E K t.world b).2.engine ∧
      (t.world.turn E K m).log = (once E K t.world b).2.log ++ (match (once E K t.world b).1 with
        | .ok mat => answer mat
        | .error fault => [.failed fault])

/-- What is asked of a turn outside the skipping of an error; `contents` is the database. -/
structure RunsOnce (contents : σ → D) (E : Engine σ) (K : Codec) (t : Traced σ) (m : Frontend) : Prop where
  execute : ∀ name maxRows b, m = .execute name maxRows → t.bound name = some b →
    AnswersFrom E K t m name b fun mat => delivered mat b.formats
  describe : ∀ kind name b, m = .describe kind name → kind ≠ 'S' → t.bound name = some b →
    AnswersFrom E K t m name b fun mat => [described mat b.formats]
  quiet : (match m with
    | .bind _ _ _ _ _ | .describe _ _ | .close _ _ => True
    | _ => False) → contents (t.world.turn E K m).engine = contents t.world.engine

/-! ## When it is met -/

def readsOnly : Stmt → Bool
  | .select _ | .show _ | .explain _ | .noop | .setVectorEf _ | .setSession _ => true
  | _ => false

/-- The database is what only a statement that may write changes, and a text that starts
like a query is one. -/
structure EngineReads (contents : σ → D) (E : Engine σ) : Prop where
  run : ∀ s stmt args, readsOnly stmt = true → contents (E.run s stmt args).2 = contents s
  rows : ∀ sql stmt n, E.parse sql = .ok (stmt, n) → isRowReturning sql = true → readsOnly stmt = true

/-- Running the prepared statement changes nothing: it is answered by the server, it does not
parse, or it only reads. -/
def preparedReads (E : Engine σ) (K : Codec) (prep : Prepared) : Prop := match prep.postprocess with
  | .pgrstInsert _ | .pgrstUpdate _ | .pgrstDelete _ => False
  | .pgrstEmbed _ => True
  | .pgrstRead => ∀ stmt n, E.parse prep.sql = .ok (stmt, n) → readsOnly stmt = true
  | .none => intercept prep.sql K.user K.database K.pid = .pass →
    ∀ stmt n, E.parse prep.sql = .ok (stmt, n) → readsOnly stmt = true

/-- The message runs the statement of a portal that holds no result. -/
def Opens (t : Traced σ) (m : Frontend) (name : String) : Prop :=
  t.world.skipUntilSync = false ∧ t.held name = none ∧
    ((∃ maxRows, m = .execute name maxRows) ∨ ∃ kind, m = .describe kind name ∧ kind ≠ 'S')

/-- A portal whose statement is run finds under its name what it was bound to, and a
`Describe` only runs what reads. -/
structure Keeps (E : Engine σ) (K : Codec) (t : Traced σ) (m : Frontend) : Prop where
  name : ∀ name b p, Opens t m name → t.bound name = some b → t.world.portals.lookup name = some p →
    t.world.stmts.lookup p.stmt = some b.prep
  reads : ∀ kind name b, m = .describe kind name → Opens t m name → t.bound name = some b → preparedReads E K b.prep

/-- What is followed is what the portals hold. -/
def Followed (t : Traced σ) : Prop := ∀ name, match t.world.portals.lookup name with
  | none => t.bound name = none ∧ t.held name = none
  | some p => ∃ b, t.bound name = some b ∧ p.params = b.params ∧ p.resultFormats = b.formats ∧
    p.materialized = t.held name

/-! ## What a run leaves alone -/

/-- Running statements changes the engine and the log only. -/
structure SameSession (w v : World σ) : Prop where
  stmts : v.stmts = w.stmts
  portals : v.portals = w.portals
  skip : v.skipUntilSync = w.skipUntilSync
  ended : v.ended = w.ended
  failedTxn : v.failedTxn = w.failedTxn

theorem sameSession_ask {α : Type} (p : Asking α) (w : World σ) : SameSession w (p.run (World.ask E) w).2 := by
  refine Program.run_invariant (I := SameSession w) (fun o v hv => ?_) p ⟨rfl, rfl, rfl, rfl, rfl⟩
  cases o <;> exact ⟨hv.stmts, hv.portals, hv.skip, hv.ended, hv.failedTxn⟩

theorem run_sendRows {extended : Bool} (formats : List Int16) (rows : List Row) (w : World σ) :
    (sendRows formats rows).run (World.answer E extended) w =
      ((), { w with log := w.log ++ rows.map fun row => .sent (.dataRow (cells formats row)) }) := by
  induction rows generalizing w with
  | nil => simp [sendRows]
  | cons row rows ih => simp [sendRows, ih]

/-! ## The run of a portal -/

/-- **What materialising a portal does**, when its statement's name denotes what it was bound
to: nothing if the portal holds a result, else one run of it. -/
theorem run_materialize {t : Traced σ} (hfollowed : Followed t) {name : String} {b : Bound} (hb : t.bound name = some b)
    (hname : t.held name = none → ∀ p, t.world.portals.lookup name = some p →
      t.world.stmts.lookup p.stmt = some b.prep) :
    ∃ p, t.world.portals.lookup name = some p ∧ p.params = b.params ∧ p.resultFormats = b.formats ∧
      p.materialized = t.held name ∧
      (materialize E K name).run (World.answer E true) t.world = match t.held name with
        | some mat => (.ok (p, mat), t.world)
        | none => match (once E K t.world b).1 with
          | .error fault => (.error fault, (once E K t.world b).2)
          | .ok mat => (.ok (p, mat), { (once E K t.world b).2 with
              portals := (once E K t.world b).2.portals.insert name { p with materialized := some mat } }) := by
  have hportal := hfollowed name
  cases hlookup : t.world.portals.lookup name with
  | none =>
    rw [hlookup] at hportal
    rw [hportal.1] at hb
    cases hb
  | some p =>
    rw [hlookup] at hportal
    obtain ⟨b', hb', hparams, hformats, hheld⟩ := hportal
    obtain rfl : b = b' := Option.some.inj (hb.symm.trans hb')
    refine ⟨p, rfl, hparams, hformats, hheld, ?_⟩
    unfold materialize
    rw [Program.run_bind, run_portals, hlookup]
    cases hmat : t.held name with
    | some mat =>
      dsimp only
      rw [hheld, hmat]
      rfl
    | none =>
      dsimp only
      rw [hheld, hmat]
      dsimp only
      rw [Program.run_bind, run_stmts, hname hmat p hlookup]
      dsimp only
      rw [Program.run_bind, run_asking, hparams]
      change Program.run _ (match (once E K t.world b).1 with
        | .error fault => _
        | .ok mat => _) (once E K t.world b).2 = _
      cases honce : (once E K t.world b).1 with
      | error fault => rfl
      | ok mat => rfl

theorem sameSession_once (w : World σ) (b : Bound) : SameSession w (once E K w b).2 := sameSession_ask _ w

theorem lookup_insert_eq {α : Type} (m : AList fun _ : String => α) (name : String) (a : α) (name' : String) :
    (m.insert name a).lookup name' = if name' = name then some a else m.lookup name' := by
  split
  · rename_i h
    rw [h, AList.lookup_insert]
  · rename_i h
    exact AList.lookup_insert_ne h

/-- The rest of an `Execute`, once there is a result. -/
theorem run_deliver (p : Portal) (mat : Mat) (name : String) (w : World σ) :
    (show Session Unit from do
      if mat.hasRows then sendRows p.resultFormats mat.rows
      send (.commandComplete mat.tag)
      settle
      putPortal name { p with materialized := none }).run (World.answer E true) w =
    ((), { w with
      log := w.log ++ delivered mat p.resultFormats
      failedTxn := w.failedTxn && E.inTransaction w.engine
      portals := w.portals.insert name { p with materialized := none } }) := by
  cases hrows : mat.hasRows <;> simp [hrows, run_sendRows, delivered, putPortal]

theorem turn_execute {t : Traced σ} (hfollowed : Followed t) (hskip : t.world.skipUntilSync = false) {name : String}
    {b : Bound} (hb : t.bound name = some b) (maxRows : Int32)
    (hname : t.held name = none → ∀ p, t.world.portals.lookup name = some p →
      t.world.stmts.lookup p.stmt = some b.prep) :
    AnswersFrom E K t (.execute name maxRows) name b (fun mat => delivered mat b.formats) ∧
      (t.world.turn E K (.execute name maxRows)).stmts = t.world.stmts ∧
      ∃ p, t.world.portals.lookup name = some p ∧ p.params = b.params ∧ p.resultFormats = b.formats ∧
        ∀ name', (t.world.turn E K (.execute name maxRows)).portals.lookup name' =
          if name' = name then some { p with materialized := none } else t.world.portals.lookup name' := by
  obtain ⟨p, hlookup, hparams, hformats, hheld, hrun⟩ := run_materialize (E := E) (K := K) hfollowed hb hname
  have hturn : t.world.turn E K (.execute name maxRows) =
      ((executePortal E K name).run (World.answer E true) t.world).2 := rfl
  have hsame := sameSession_once (E := E) (K := K) t.world b
  unfold AnswersFrom
  rw [hturn]
  unfold executePortal
  rw [Program.run_bind, run_skipping, hskip]
  simp only [Bool.false_eq_true, if_false]
  rw [Program.run_bind, hrun]
  cases hmat : t.held name with
  | some mat =>
    dsimp only
    rw [run_deliver]
    exact ⟨⟨rfl, by rw [hformats]⟩, rfl, p, hlookup, hparams, hformats, lookup_insert_eq _ _ _⟩
  | none =>
    cases honce : (once E K t.world b).1 with
    | error fault =>
      refine ⟨⟨rfl, rfl⟩, hsame.stmts, p, hlookup, hparams, hformats, fun name' => ?_⟩
      have hnone : p.materialized = none := hheld.trans hmat
      have hportals : (once E K t.world b).2.portals.lookup name' = t.world.portals.lookup name' := by rw [hsame.portals]
      refine hportals.trans ?_
      split
      · rename_i heq
        rw [heq, hlookup, ← hnone]
      · rfl
    | ok mat =>
      dsimp only
      rw [run_deliver]
      refine ⟨⟨rfl, by rw [hformats]⟩, hsame.stmts, p, hlookup, hparams, hformats, fun name' => ?_⟩
      dsimp only
      rw [lookup_insert_eq, lookup_insert_eq, hsame.portals]
      split <;> rfl

theorem turn_describe {t : Traced σ} (hfollowed : Followed t) (hskip : t.world.skipUntilSync = false) {name : String}
    {b : Bound} (hb : t.bound name = some b) {kind : Char} (hkind : kind ≠ 'S')
    (hname : t.held name = none → ∀ p, t.world.portals.lookup name = some p →
      t.world.stmts.lookup p.stmt = some b.prep) :
    AnswersFrom E K t (.describe kind name) name b (fun mat => [described mat b.formats]) ∧
      (t.world.turn E K (.describe kind name)).stmts = t.world.stmts ∧
      ∃ p, t.world.portals.lookup name = some p ∧ p.params = b.params ∧ p.resultFormats = b.formats ∧
        ∀ name', (t.world.turn E K (.describe kind name)).portals.lookup name' =
          if name' = name then some { p with materialized := (t.held name).or (once E K t.world b).1.toOption }
          else t.world.portals.lookup name' := by
  obtain ⟨p, hlookup, hparams, hformats, hheld, hrun⟩ := run_materialize (E := E) (K := K) hfollowed hb hname
  have hturn : t.world.turn E K (.describe kind name) =
      ((describe E K kind name).run (World.answer E true) t.world).2 := rfl
  have hsame := sameSession_once (E := E) (K := K) t.world b
  have hself (name' : String) : t.world.portals.lookup name' =
      if name' = name then some { p with materialized := t.held name } else t.world.portals.lookup name' := by
    split
    · rename_i heq
      rw [heq, hlookup, ← hheld]
    · rfl
  unfold AnswersFrom
  rw [hturn]
  unfold describe
  rw [Program.run_bind, run_skipping, hskip]
  simp only [Bool.false_eq_true, if_false, if_neg hkind]
  rw [Program.run_bind, hrun]
  cases hmat : t.held name with
  | some mat =>
    refine ⟨⟨rfl, ?_⟩, rfl, p, hlookup, hparams, hformats, fun name' => ?_⟩
    · dsimp only
      rw [run_send, hformats]
      rfl
    · exact (hself name').trans (by rw [hmat]; rfl)
  | none =>
    cases honce : (once E K t.world b).1 with
    | error fault =>
      refine ⟨⟨rfl, rfl⟩, hsame.stmts, p, hlookup, hparams, hformats, fun name' => ?_⟩
      have hportals : (once E K t.world b).2.portals.lookup name' = t.world.portals.lookup name' := by rw [hsame.portals]
      exact (hportals.trans (hself name')).trans (by rw [hmat]; rfl)
    | ok mat =>
      refine ⟨⟨rfl, ?_⟩, hsame.stmts, p, hlookup, hparams, hformats, fun name' => ?_⟩
      · dsimp only
        rw [run_send, hformats]
        rfl
      · dsimp only
        rw [run_send]
        dsimp only
        rw [lookup_insert_eq, hsame.portals]
        rfl

/-! ## Messages that leave the portals alone -/

/-- A call that does not store portals. -/
def SparesPortals : Op → Prop
  | .setPortals _ => False
  | _ => True

theorem only_asking {α : Type} {P : Op → Prop} {Q : EngineOp → Prop} (h : ∀ o, Q o → P (.engine o)) {p : Asking α}
    (hp : p.Only Q) : (asking p).Only P := by
  have hop (o : EngineOp) (ho : Q o) : (Program.op (Op.engine o) : Session o.Answer).Only P := ⟨h o ho, fun _ => trivial⟩
  exact Program.only_interpret hop hp

theorem spares_asking {α : Type} (p : Asking α) : (asking p).Only SparesPortals :=
  only_asking (fun _ _ => trivial) (Program.only_of_forall (fun _ => trivial) p : p.Only fun _ => True)

theorem spares_send (m : Reply) : (send m).Only SparesPortals := Program.only_op trivial

theorem spares_fail (fault : Fault) : (fail fault).Only SparesPortals := Program.only_op trivial

theorem spares_sendRows (formats : List Int16) (rows : List Row) : (sendRows formats rows).Only SparesPortals := by
  induction rows with
  | nil => exact Program.only_pure _
  | cons row rows ih => exact Program.only_bind (spares_send _) fun _ => ih

theorem spares_sendTable (t : Table) : (sendTable t).Only SparesPortals :=
  Program.only_bind (spares_send _) fun _ => Program.only_bind (spares_sendRows _ _) fun _ => spares_send _

theorem spares_runSimpleOne (sql : List Char) : (runSimpleOne E K sql).Only SparesPortals := by
  refine Program.only_bind (spares_asking _) fun inspected => ?_
  cases inspected with
  | rows t => exact Program.only_bind (spares_sendTable _) fun _ => Program.only_pure _
  | tag tag => exact Program.only_bind (spares_send _) fun _ => Program.only_pure _
  | pass =>
    dsimp only
    split
    · exact Program.only_bind (spares_fail _) fun _ => Program.only_pure _
    · refine Program.only_bind (spares_asking _) fun result => ?_
      cases result with
      | error fault => exact Program.only_bind (spares_fail _) fun _ => Program.only_pure _
      | ok rs =>
        dsimp only
        split
        · exact Program.only_bind (spares_asking _) fun _ =>
            Program.only_bind (spares_send _) fun _ => Program.only_pure _
        · exact Program.only_bind (spares_sendTable _) fun _ => Program.only_pure _

theorem spares_runSimple (texts : List (List Char)) : (runSimple E K texts).Only SparesPortals := by
  induction texts with
  | nil => exact Program.only_pure _
  | cons sql texts ih =>
    refine Program.only_bind (spares_runSimpleOne sql) fun ok => ?_
    cases ok with
    | false => exact Program.only_pure _
    | true => exact Program.only_bind (Program.only_op trivial) fun _ => ih

theorem spares_putStmt (name : String) (prep : Prepared) : (putStmt name prep).Only SparesPortals :=
  Program.only_bind (Program.only_op trivial) fun _ => Program.only_op trivial

theorem spares_store (name : String) (prep : Prepared) :
    (do putStmt name prep; send .parseComplete : Session Unit).Only SparesPortals :=
  Program.only_bind (spares_putStmt name prep) fun _ => spares_send _

theorem spares_prepareText (name : String) (sql : List Char) (paramOids : List Int32) (engineSql : List Char)
    (postprocess : Postprocess) : (prepareText E K name sql paramOids engineSql postprocess).Only SparesPortals := by
  unfold prepareText
  dsimp only
  split
  · exact spares_fail _
  · split
    · split
      · exact spares_fail _
      · exact spares_store _ _
    · exact spares_store _ _

theorem spares_parse (name : String) (sql : List Char) (paramOids : List Int32) :
    (parse E K name sql paramOids).Only SparesPortals := by
  refine Program.only_bind (Program.only_op trivial) fun skip => ?_
  split
  · exact Program.only_pure _
  · split
    · exact spares_store _ _
    · split
      · exact Program.only_op trivial
      · exact spares_store _ _
      · split
        · exact Program.only_op trivial
        · unfold parseEngine
          split <;> exact spares_prepareText _ _ _ _ _

theorem spares_describePrepared (prep : Prepared) : (describePrepared E K prep).Only SparesPortals := by
  unfold describePrepared
  split
  · exact spares_send _
  · exact spares_send _
  · exact spares_send _
  · exact spares_send _
  · exact spares_send _
  · refine Program.only_bind (spares_asking _) fun inspected => ?_
    cases inspected with
    | rows t => exact spares_send _
    | tag tag => exact spares_send _
    | pass =>
      dsimp only
      split
      · refine Program.only_bind (spares_asking _) fun result => ?_
        split
        · exact spares_send _
        · exact spares_send _
        · exact spares_fail _
      · exact spares_send _

theorem spares_run {p : Session Unit} {extended : Bool} (hp : p.Only SparesPortals) (w : World σ) :
    (p.run (World.answer E extended) w).2.portals = w.portals := by
  refine Program.run_only (I := fun v : World σ => v.portals = w.portals) (fun o v ho hv => ?_) hp rfl
  cases o with
  | engine o => cases o <;> exact hv
  | setPortals p => exact absurd ho id
  | _ => exact hv

/-! ## What is followed stays what the portals hold -/

variable {t : Traced σ} {m : Frontend}

theorem followed_same (hfollowed : Followed t) {w : World σ} (h : w.portals = t.world.portals) :
    Followed { t with world := w } := by
  intro name
  have hportal := hfollowed name
  rwa [← h] at hportal

/-- A turn that looks a portal up and stores it with what it is bound to. -/
theorem followed_update (hfollowed : Followed t) {w : World σ} {name : String} {p : Portal} {b : Bound}
    (hparams : p.params = b.params) (hformats : p.resultFormats = b.formats)
    (hlookup : ∀ name', w.portals.lookup name' = if name' = name then some p else t.world.portals.lookup name') :
    Followed ⟨w, Function.update t.bound name (some b), Function.update t.held name p.materialized⟩ := by
  intro name'
  dsimp only
  rw [hlookup]
  by_cases hname : name' = name
  · rw [if_pos hname, hname, Function.update_self, Function.update_self]
    exact ⟨b, rfl, hparams, hformats, rfl⟩
  · rw [if_neg hname, Function.update_of_ne hname, Function.update_of_ne hname]
    exact hfollowed name'

theorem lookup_of_not_bound (hfollowed : Followed t) {name : String} (hb : t.bound name = none) :
    t.world.portals.lookup name = none ∧ t.held name = none := by
  have hportal := hfollowed name
  cases hlookup : t.world.portals.lookup name with
  | none =>
    rw [hlookup] at hportal
    exact ⟨rfl, hportal.2⟩
  | some p =>
    rw [hlookup] at hportal
    obtain ⟨b, hb', -⟩ := hportal
    rw [hb] at hb'
    cases hb'

theorem followed_execute (hfollowed : Followed t) (hskip : t.world.skipUntilSync = false) {name : String}
    {maxRows : Int32} (hkeeps : Keeps E K t (.execute name maxRows)) :
    Followed (t.follow E K (t.world.turn E K (.execute name maxRows)) (.execute name maxRows)) := by
  simp only [Traced.follow, hskip, Bool.false_eq_true, if_false]
  cases hb : t.bound name with
  | none =>
    obtain ⟨hlookup, hheld⟩ := lookup_of_not_bound hfollowed hb
    have hportals : (t.world.turn E K (.execute name maxRows)).portals = t.world.portals := by
      simp [World.turn, handler, executePortal, materialize, hskip, hlookup, Frontend.extended]
    rw [← hheld, Function.update_eq_self]
    exact followed_same hfollowed hportals
  | some b =>
    have hname (hheld : t.held name = none) (p : Portal) (hp : t.world.portals.lookup name = some p) :=
      hkeeps.name name b p ⟨hskip, hheld, .inl ⟨maxRows, rfl⟩⟩ hb hp
    obtain ⟨-, -, p, -, hparams, hformats, hlookup⟩ := turn_execute hfollowed hskip hb maxRows hname
    have hfollow := followed_update (p := { p with materialized := none }) hfollowed hparams hformats hlookup
    rwa [← hb, Function.update_eq_self] at hfollow

theorem followed_describe (hfollowed : Followed t) (hskip : t.world.skipUntilSync = false) {kind : Char}
    {name : String} (hkind : kind ≠ 'S') (hkeeps : Keeps E K t (.describe kind name)) :
    Followed (t.follow E K (t.world.turn E K (.describe kind name)) (.describe kind name)) := by
  simp only [Traced.follow, hskip, hkind, Bool.false_eq_true, or_self, if_false]
  cases hb : t.bound name with
  | none =>
    obtain ⟨hlookup, hheld⟩ := lookup_of_not_bound hfollowed hb
    have hportals : (t.world.turn E K (.describe kind name)).portals = t.world.portals := by
      simp [World.turn, handler, describe, materialize, hskip, hkind, hlookup, Frontend.extended]
    exact followed_same hfollowed hportals
  | some b =>
    have hname (hheld : t.held name = none) (p : Portal) (hp : t.world.portals.lookup name = some p) :=
      hkeeps.name name b p ⟨hskip, hheld, .inr ⟨kind, rfl, hkind⟩⟩ hb hp
    obtain ⟨-, -, p, -, hparams, hformats, hlookup⟩ := turn_describe hfollowed hskip hb hkind hname
    have hfollow := followed_update (p := { p with materialized := (t.held name).or (once E K t.world b).1.toOption })
      hfollowed hparams hformats hlookup
    rw [← hb, Function.update_eq_self] at hfollow
    cases hheld : t.held name with
    | some mat =>
      dsimp only at hfollow
      rw [hheld, Option.some_or, ← hheld, Function.update_eq_self] at hfollow
      exact hfollow
    | none =>
      dsimp only at hfollow
      rwa [hheld, Option.none_or] at hfollow

/-- A skipped `Bind`, `Describe` or `Execute`. -/
theorem turn_skipped_portals {w : World σ} (hskip : w.skipUntilSync = true) : match m with
    | .bind _ _ _ _ _ | .describe _ _ | .execute _ _ => (w.turn E K m).portals = w.portals
    | _ => True := by
  cases m with
  | bind => simp [World.turn, handler, bind, hskip]
  | describe => simp [World.turn, handler, describe, hskip]
  | execute => simp [World.turn, handler, executePortal, hskip]
  | _ => trivial

theorem followed_bind (hfollowed : Followed t) (hskip : t.world.skipUntilSync = false) {portal stmt : String}
    {paramFormats : List Int16} {params : List (Option (List UInt8))} {formats : List Int16} :
    Followed (t.follow E K (t.world.turn E K (.bind portal stmt paramFormats params formats))
      (.bind portal stmt paramFormats params formats)) := by
  simp only [Traced.follow, hskip, Bool.false_eq_true, if_false]
  cases hstmt : t.world.stmts.lookup stmt with
  | none =>
    refine followed_same hfollowed ?_
    simp [World.turn, handler, bind, hskip, hstmt, Frontend.extended]
  | some prep =>
    dsimp only
    refine followed_update
      (p := ⟨stmt, params.zipIdx.map fun (raw, i) => decodeParam K raw (fmtAt paramFormats i), formats, none⟩)
      hfollowed rfl rfl fun name' => ?_
    simp [World.turn, handler, bind, hskip, hstmt, Frontend.extended, putPortal, lookup_insert_eq]

theorem followed_close (hfollowed : Followed t) {kind : Char} {name : String} :
    Followed (t.follow E K (t.world.turn E K (.close kind name)) (.close kind name)) := by
  unfold Traced.follow
  dsimp only
  by_cases hkind : kind = 'S'
  · rw [if_pos hkind]
    refine followed_same hfollowed ?_
    simp [World.turn, handler, close, hkind, Frontend.extended]
  · rw [if_neg hkind]
    have hportals : (t.world.turn E K (.close kind name)).portals = t.world.portals.erase name := by
      simp [World.turn, handler, close, hkind, Frontend.extended]
    intro name'
    dsimp only
    rw [hportals]
    by_cases hname : name' = name
    · rw [hname, AList.lookup_erase, Function.update_self, Function.update_self]
      exact ⟨rfl, rfl⟩
    · rw [AList.lookup_erase_ne hname, Function.update_of_ne hname, Function.update_of_ne hname]
      exact hfollowed name'

theorem spares_query (sql : List Char) (w : World σ) : (w.turn E K (.query sql)).portals = w.portals := by
  have hsimple : (simpleQuery E K sql).Only SparesPortals := by
    unfold simpleQuery
    split
    · exact spares_send _
    · exact spares_runSimple _
  exact spares_run hsimple w

theorem spares_describe (name : String) (w : World σ) : (w.turn E K (.describe 'S' name)).portals = w.portals := by
  have hdescribe : (describe E K 'S' name).Only SparesPortals := by
    refine Program.only_bind (Program.only_op trivial) fun skip => ?_
    split
    · exact Program.only_pure _
    · refine Program.only_bind (Program.only_op trivial) fun stmts => ?_
      split
      · exact spares_fail _
      · exact Program.only_bind (spares_send _) fun _ => spares_describePrepared _
  exact spares_run hdescribe w

theorem followed_step (hfollowed : Followed t) (hkeeps : Keeps E K t m) :
    Followed (t.follow E K (t.world.turn E K m) m) := by
  cases hskip : t.world.skipUntilSync with
  | true =>
    have hskipped := turn_skipped_portals (E := E) (K := K) (m := m) hskip
    cases m with
    | bind | describe | execute =>
      simp only [Traced.follow, hskip, true_or, if_true]
      exact followed_same hfollowed hskipped
    | close kind name => exact followed_close hfollowed
    | parse name sql paramOids => exact followed_same hfollowed (spares_run (spares_parse name sql paramOids) t.world)
    | query sql => exact followed_same hfollowed (spares_query sql t.world)
    | _ => exact followed_same hfollowed rfl
  | false =>
    cases m with
    | bind => exact followed_bind hfollowed hskip
    | execute => exact followed_execute hfollowed hskip hkeeps
    | describe kind name =>
      by_cases hkind : kind = 'S'
      · simp only [Traced.follow, hkind, or_true, if_true]
        exact followed_same hfollowed (spares_describe name t.world)
      · exact followed_describe hfollowed hskip hkind hkeeps
    | close kind name => exact followed_close hfollowed
    | parse name sql paramOids => exact followed_same hfollowed (spares_run (spares_parse name sql paramOids) t.world)
    | query sql => exact followed_same hfollowed (spares_query sql t.world)
    | _ => exact followed_same hfollowed rfl

/-! ## What only reads -/

variable {contents : σ → D}

/-- A call that has the engine run nothing that may write. -/
def ReadsOp : EngineOp → Prop
  | .run stmt _ => readsOnly stmt = true
  | _ => True

theorem reads_liftFault {α : Type} (r : Except EngineError α) : (liftFault r).run.Only ReadsOp := by
  cases r <;> exact Program.only_pure _

theorem reads_execute {sql : List Char} (h : ∀ stmt n, E.parse sql = .ok (stmt, n) → readsOnly stmt = true)
    (values : List Value) : (execute E sql values).run.Only ReadsOp := by
  cases hparse : E.parse sql with
  | error e =>
    unfold execute
    rw [hparse]
    exact Program.only_pure _
  | ok r =>
    have hexecute : execute E sql values = (do
        let args ← liftFault (boundArgs r.2 values)
        let result ← runStmt r.1 args
        liftFault result) := by
      unfold execute
      rw [hparse]
      rfl
    rw [hexecute]
    refine Program.only_bindT (reads_liftFault _) fun args => ?_
    exact Program.only_bindT (Program.only_liftT (Program.only_op (h r.1 r.2 hparse))) fun _ => reads_liftFault _

theorem reads_runEngine {sql : List Char} (h : ∀ stmt n, E.parse sql = .ok (stmt, n) → readsOnly stmt = true)
    (params : List Value) (order : List Nat) : (runEngine E sql params order).run.Only ReadsOp := by
  refine Program.only_bindT (reads_execute h _) fun rs => ?_
  split
  · exact Program.only_bindT (Program.only_liftT (Program.only_op trivial)) fun _ => Program.only_pure _
  · exact Program.only_pure _

theorem reads_dummyColumns {sql : List Char} (h : ∀ stmt n, E.parse sql = .ok (stmt, n) → readsOnly stmt = true)
    (orderLen : Nat) : (dummyColumns E sql orderLen).run.Only ReadsOp :=
  Program.only_bindT (reads_execute h _) fun _ => Program.only_pure _

theorem reads_inspect (sql : List Char) : (inspect K sql).Only ReadsOp := by
  unfold inspect
  split <;> first | exact Program.only_pure _ | exact Program.only_bind (Program.only_op trivial) fun _ => Program.only_pure _

theorem only_tryMap {α β : Type} {P : EngineOp → Prop} {f : α → Try β} (h : ∀ a, (f a).run.Only P) (l : List α) :
    (tryMap f l).run.Only P := by
  induction l with
  | nil => exact Program.only_pure _
  | cons a l ih => exact Program.only_bindT (h a) fun b => Program.only_bindT ih fun bs => Program.only_pure _

/-- Rewriting placeholders keeps a `SELECT` at the start. -/
theorem isRowReturning_rewrite (rest : List Char) :
    isRowReturning (rewritePlaceholders ("SELECT ".toList ++ rest)).1 = true := by
  rfl

theorem reads_runPgrstEmbed (hE : EngineReads contents E) (plan : EmbedRead) (params : List Value) :
    (runPgrstEmbed E K plan params).run.Only ReadsOp := by
  have hrelation (e : Embed) (key : Value) : (runEmbedRelation E e key).run.Only ReadsOp :=
    Program.only_bindT (reads_execute (fun stmt n hparse => hE.rows _ stmt n hparse rfl) _) fun _ => Program.only_pure _
  have hmember (base : Mat) (row : Row) (item : EmbedItem) : (embedMember E K base row item).run.Only ReadsOp := by
    cases item with
    | column key column => exact Program.only_pure _
    | relation e => exact Program.only_bindT (hrelation e _) fun _ => Program.only_pure _
  refine Program.only_bindT (reads_runEngine (fun stmt n hparse => hE.rows _ stmt n hparse ?_) _ _) fun base => ?_
  · rw [List.append_assoc, List.append_assoc, List.append_assoc]
    exact isRowReturning_rewrite _
  · refine Program.only_bindT (only_tryMap (fun row => ?_) _) fun objects => Program.only_pure _
    exact Program.only_bindT (only_tryMap (hmember base row) _) fun _ => Program.only_pure _

theorem reads_produce (hE : EngineReads contents E) {prep : Prepared} (hreads : preparedReads E K prep)
    (params : List Value) : (produce E K prep params).run.Only ReadsOp := by
  unfold preparedReads at hreads
  unfold produce
  cases hpost : prep.postprocess with
  | pgrstInsert | pgrstUpdate | pgrstDelete =>
    rw [hpost] at hreads
    exact absurd hreads id
  | pgrstEmbed plan => exact Program.only_bindT (reads_runPgrstEmbed hE plan params) fun _ => Program.only_pure _
  | pgrstRead =>
    rw [hpost] at hreads
    exact Program.only_bindT (reads_runEngine hreads _ _) fun _ => Program.only_pure _
  | none =>
    rw [hpost] at hreads
    dsimp only
    unfold inspect
    cases hanswer : intercept prep.sql K.user K.database K.pid with
    | rows | tag => exact Program.only_pure _
    | reflect | stats | catalog => exact ⟨trivial, fun _ => trivial⟩
    | pass => exact reads_runEngine (hreads hanswer) _ _

theorem contents_ask (hE : EngineReads contents E) {α : Type} {p : Asking α} (hp : p.Only ReadsOp) (w : World σ) :
    contents (p.run (World.ask E) w).2.engine = contents w.engine := by
  refine Program.run_only (I := fun v : World σ => contents v.engine = contents w.engine) (fun o v ho hv => ?_) hp rfl
  cases o with
  | run stmt args => exact (hE.run v.engine stmt args ho).trans hv
  | _ => exact hv

theorem contents_once (hE : EngineReads contents E) {b : Bound} (hreads : preparedReads E K b.prep) (w : World σ) :
    contents (once E K w b).2.engine = contents w.engine := contents_ask hE (reads_produce hE hreads b.params) w

/-- The calls of a handler that has the engine write nothing. -/
def ReadsCall : Op → Prop
  | .engine o => ReadsOp o
  | _ => True

theorem contents_run (hE : EngineReads contents E) {p : Session Unit} {extended : Bool} (hp : p.Only ReadsCall)
    (w : World σ) : contents (p.run (World.answer E extended) w).2.engine = contents w.engine := by
  refine Program.run_only (I := fun v : World σ => contents v.engine = contents w.engine) (fun o v ho hv => ?_) hp rfl
  cases o with
  | engine o => cases o with
    | run stmt args => exact (hE.run v.engine stmt args ho).trans hv
    | _ => exact hv
  | _ => exact hv

theorem reads_asking {α : Type} {p : Asking α} (hp : p.Only ReadsOp) : (asking p).Only ReadsCall :=
  only_asking (fun _ ho => ho) hp

theorem reads_describePrepared (hE : EngineReads contents E) (prep : Prepared) :
    (describePrepared E K prep).Only ReadsCall := by
  have hsend (m : Reply) : (send m).Only ReadsCall := Program.only_op trivial
  unfold describePrepared
  split
  · exact hsend _
  · exact hsend _
  · exact hsend _
  · exact hsend _
  · exact hsend _
  · refine Program.only_bind (reads_asking (reads_inspect _)) fun inspected => ?_
    cases inspected with
    | rows t => exact hsend _
    | tag tag => exact hsend _
    | pass =>
      dsimp only
      split
      · rename_i hrows
        refine Program.only_bind (reads_asking (reads_dummyColumns (fun stmt n h => hE.rows _ stmt n h hrows) _))
          fun result => ?_
        split
        · exact hsend _
        · exact hsend _
        · exact Program.only_op trivial
      · exact hsend _

theorem reads_describeStatement (hE : EngineReads contents E) (name : String) : (describe E K 'S' name).Only ReadsCall := by
  refine Program.only_bind (Program.only_op trivial) fun skip => ?_
  split
  · exact Program.only_pure _
  · refine Program.only_bind (Program.only_op trivial) fun stmts => ?_
    split
    · exact Program.only_op trivial
    · exact Program.only_bind (Program.only_op trivial) fun _ => reads_describePrepared hE _

theorem reads_bind (portal stmt : String) (paramFormats : List Int16) (params : List (Option (List UInt8)))
    (formats : List Int16) : (bind K portal stmt paramFormats params formats).Only ReadsCall := by
  refine Program.only_bind (Program.only_op trivial) fun skip => ?_
  split
  · exact Program.only_pure _
  · refine Program.only_bind (Program.only_op trivial) fun stmts => ?_
    split
    · exact Program.only_op trivial
    · refine Program.only_bind (Program.only_bind (Program.only_op trivial) fun _ => Program.only_op trivial) fun _ => ?_
      exact Program.only_op trivial

theorem reads_close (kind : Char) (name : String) : (close kind name).Only ReadsCall := by
  unfold close
  split
  · exact Program.only_bind (Program.only_op trivial) fun _ => Program.only_bind (Program.only_op trivial) fun _ =>
      Program.only_op trivial
  · exact Program.only_bind (Program.only_op trivial) fun _ => Program.only_bind (Program.only_op trivial) fun _ =>
      Program.only_op trivial

theorem contents_describePortal (hE : EngineReads contents E) (hfollowed : Followed t)
    (hskip : t.world.skipUntilSync = false) {kind : Char} {name : String} (hkind : kind ≠ 'S')
    (hname : ∀ {b}, t.bound name = some b → t.held name = none → ∀ p, t.world.portals.lookup name = some p →
      t.world.stmts.lookup p.stmt = some b.prep)
    (hreads : ∀ {b}, t.bound name = some b → t.held name = none → preparedReads E K b.prep) :
    contents (t.world.turn E K (.describe kind name)).engine = contents t.world.engine := by
  cases hb : t.bound name with
  | none =>
    obtain ⟨hlookup, -⟩ := lookup_of_not_bound hfollowed hb
    simp [World.turn, handler, describe, materialize, hskip, hkind, hlookup, Frontend.extended]
  | some b =>
    obtain ⟨hanswers, -⟩ := turn_describe (E := E) (K := K) hfollowed hskip hb hkind (hname hb)
    unfold AnswersFrom at hanswers
    cases hheld : t.held name with
    | some mat =>
      rw [hheld] at hanswers
      rw [hanswers.1]
    | none =>
      rw [hheld] at hanswers
      rw [hanswers.1]
      exact contents_once hE (hreads hb hheld) t.world

theorem keywords_alpha (stmt : Stmt) : ∀ kw ∈ stmt.keywords, kw.toList.all Char.isAlpha = true := by
  cases stmt <;> (simp only [Stmt.keywords]; decide)

theorem takeWhile_alpha {s : List Char} (h : ∀ x ∈ s.takeWhile isWordChar, x.isAlpha = true) :
    s.takeWhile Char.isAlpha = s.takeWhile isWordChar := by
  induction s with
  | nil => rfl
  | cons c s ih =>
    cases hc : isWordChar c with
    | true =>
      rw [List.takeWhile_cons_of_pos hc] at h ⊢
      rw [List.takeWhile_cons_of_pos (h c List.mem_cons_self), ih fun x hx => h x (List.mem_cons_of_mem c hx)]
    | false =>
      have halpha : c.isAlpha = false := by
        rw [← Bool.not_eq_true]
        intro halpha
        simp [isWordChar, Char.isAlphanum, halpha] at hc
      rw [List.takeWhile_cons_of_neg (by simp [halpha]), List.takeWhile_cons_of_neg (by simp [hc])]

/-- The leading keyword of a parsed text is one of its statement, unless a comment or a quote
comes first. -/
theorem classify_of_parseSql {G : Grammar} {sql : List Char} {stmt : Stmt} {n : Nat}
    (h : parseSql G sql = .ok (stmt, n)) : classify sql = [] ∨
      ∃ kw ∈ stmt.keywords, classify sql = kw.toList.map Char.toUpper := by
  obtain ⟨kw, hkw, pre, c, rest, rfl, hpre, hc⟩ := opening_of_parseSql h
  have htrim (hspace : isWhitespace c = false) :
      classify (pre ++ c :: rest) = ((c :: rest).takeWhile Char.isAlpha).map Char.toUpper := by
    rw [classify, Text.trimStart, List.dropWhile_append_of_pos fun x hx => isWhitespace_of_ascii (hpre x hx),
      List.dropWhile_cons_of_neg (by simp [hspace])]
  rcases hc with rfl | rfl | rfl | hword
  · exact .inl (htrim (by decide))
  · exact .inl (htrim (by decide))
  · exact .inl (htrim (by decide))
  · refine .inr ⟨kw, hkw, ?_⟩
    have halpha : ∀ x ∈ (c :: rest).takeWhile isWordChar, x.isAlpha = true := by
      intro x hx
      have hmem : x.toLower ∈ kw.toList := hword ▸ List.mem_map_of_mem hx
      rw [← Char.isAlpha_toLower_eq_isAlpha]
      exact List.all_eq_true.1 (keywords_alpha stmt kw hkw) _ hmem
    have hne : (c :: rest).takeWhile isWordChar ≠ [] := by
      intro hnil
      rw [hnil] at hword
      exact stmt.keyword_ne_nil kw hkw hword.symm
    have hc : isWordChar c = true := by
      rw [← Bool.not_eq_false]
      exact fun hc => hne (List.takeWhile_cons_of_neg (by simp [hc]))
    rw [htrim (not_isWhitespace_of_isWordChar hc), takeWhile_alpha halpha, ← hword, List.map_map]
    exact List.map_congr_left fun x _ => (Char.toUpper_toLower_eq_toUpper x).symm

theorem keywords_not_rows {stmt : Stmt} (h : readsOnly stmt = false) : ∀ kw ∈ stmt.keywords,
    (["SELECT", "VALUES", "WITH", "SHOW"].any fun row => kw.toList.map Char.toUpper == row.toList) = false := by
  cases stmt <;> first | (simp only [Stmt.keywords]; decide) | cases h

/-- The engine's parser takes a text that starts like a query for one. -/
theorem reads_of_parseSql {G : Grammar} {sql : List Char} {stmt : Stmt} {n : Nat}
    (h : parseSql G sql = .ok (stmt, n)) (hrows : isRowReturning sql = true) : readsOnly stmt = true := by
  unfold isRowReturning at hrows
  rcases classify_of_parseSql h with hnil | ⟨kw, hkw, hclass⟩
  · rw [hnil] at hrows
    exact absurd hrows (by decide)
  · rw [hclass] at hrows
    by_contra hwrites
    rw [keywords_not_rows (Bool.not_eq_true _ ▸ hwrites) kw hkw] at hrows
    cases hrows

/-- The ledger's database: the statements that may have written. -/
def written (s : Bool × List Stmt) : List Stmt := s.2.filter fun stmt => !readsOnly stmt

theorem ledger_reads : EngineReads written Engine.ledger := by
  refine ⟨fun s stmt args hreads => ?_, fun sql stmt n hparse hrows => ?_⟩
  · cases stmt <;> first | exact absurd hreads Bool.false_ne_true | simp [Engine.ledger, written, readsOnly]
  · refine reads_of_parseSql (G := Grammar.bare) (n := n) ?_ hrows
    unfold Engine.ledger at hparse
    dsimp only at hparse
    split at hparse
    · rename_i r hr
      rw [hr, ← Except.ok.inj hparse]
    · cases hparse
    · cases hparse

/-- The statement of a `Parse` of a text without parameters. -/
def plain (sql : String) : Prepared := ⟨sql.toList, [], 0, [], .none⟩

def preparedTrace : Traced (Bool × List Stmt) :=
  ⟨⟨(false, []), (∅ : Stmts).insert "s" (plain "SAVEPOINT a"), ∅, false, false, false,
    [.ready .idle, .sent .parseComplete]⟩, fun _ => none, fun _ => none⟩

/-- After a `Bind` of it, -/
def boundTrace : Traced (Bool × List Stmt) :=
  ⟨⟨(false, []), (∅ : Stmts).insert "s" (plain "SAVEPOINT a"), (∅ : Portals).insert "p" ⟨"s", [], [], none⟩, false, false, false,
    [.ready .idle, .sent .parseComplete, .sent .bindComplete]⟩,
    Function.update (fun _ => none) "p" (some ⟨plain "SAVEPOINT a", [], []⟩), Function.update (fun _ => none) "p" none⟩

/-- and after a `Parse` of another text under its name. -/
def reparsedTrace : Traced (Bool × List Stmt) :=
  ⟨⟨(false, []), (∅ : Stmts).insert "s" (plain "SAVEPOINT b"), (∅ : Portals).insert "p" ⟨"s", [], [], none⟩, false, false, false,
    [.ready .idle, .sent .parseComplete, .sent .bindComplete, .sent .parseComplete]⟩, boundTrace.bound, boundTrace.held⟩

theorem boundTrace_step : Traced.step Engine.ledger Codec.ascii preparedTrace (.bind "p" "s" [] [] []) =
    some boundTrace := by
  rfl


theorem preparedTrace_step : Traced.step Engine.ledger Codec.ascii (Traced.init Engine.ledger (false, []))
    (.parse "s" "SAVEPOINT a".toList []) = some preparedTrace := by
  rfl

theorem reparsedTrace_step : Traced.step Engine.ledger Codec.ascii boundTrace
    (.parse "s" "SAVEPOINT b".toList []) = some reparsedTrace := by
  rfl

theorem keeps_unopened (t : Traced (Bool × List Stmt)) {m : Frontend} (hm : match m with
    | .execute _ _ | .describe _ _ => False
    | _ => True) : Keeps Engine.ledger Codec.ascii t m := by
  refine ⟨fun name b p hopens => ?_, fun kind name b h => ?_⟩
  · rcases hopens.2.2 with ⟨maxRows, rfl⟩ | ⟨kind, rfl, -⟩ <;> exact absurd hm id
  · subst h
    exact absurd hm id

theorem boundTrace_reach : RunWhere (Traced.step Engine.ledger Codec.ascii) (Keeps Engine.ledger Codec.ascii)
    (Traced.init Engine.ledger (false, [])) boundTrace :=
  (RunWhere.nil.snoc (keeps_unopened _ trivial) preparedTrace_step).snoc (keeps_unopened _ trivial) boundTrace_step

theorem boundTrace_keeps : Keeps Engine.ledger Codec.ascii boundTrace (.execute "p" 0) := by
  refine ⟨fun name b p hopens hb hp => ?_, fun kind name b h => nomatch h⟩
  obtain rfl : "p" = name := by
    rcases hopens.2.2 with ⟨maxRows, h⟩ | ⟨kind, h, -⟩
    · exact (Frontend.execute.inj h).1
    · cases h
  obtain rfl : (⟨plain "SAVEPOINT a", [], []⟩ : Bound) = b := Option.some.inj hb
  obtain rfl : (⟨"s", [], [], none⟩ : Portal) = p := Option.some.inj hp
  rfl

theorem reparsed_execute : (reparsedTrace.world.turn Engine.ledger Codec.ascii (.execute "p" 0)).engine =
    (false, [.savepoint "b"]) := by
  rfl

theorem reparsed_once : (once Engine.ledger Codec.ascii reparsedTrace.world ⟨plain "SAVEPOINT a", [], []⟩).2.engine =
    (false, [.savepoint "a"]) := by
  rfl

theorem bound_describe : (boundTrace.world.turn Engine.ledger Codec.ascii (.describe 'P' "p")).engine =
    (false, [.savepoint "a"]) := by
  rfl

end Twill.Server
