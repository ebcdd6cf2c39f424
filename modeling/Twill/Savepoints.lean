/-
Savepoints.

While a savepoint stays on its transaction's stack, the log keeps what was
buffered when it was set (`Holds`). Going back to it cuts the log there; and
where going back is clean, what is pending is again what the log says, so the
pending versions and the rows the transaction sees are those of the moment the
savepoint was set. The version ids a savepoint saves are those of all tables
together, which is where going back is not always clean.
-/
import Twill.Mirror

namespace Twill

open Mvcc (PENDING Op)
open Mvcc.Rows


/-- The rows a writer sees, with their ids. -/
def Store.seenBy (s : Store) (snapshot owner : Nat) (k : String) : Set (Nat × Row) :=
  {p | ∃ r ∈ s.rowsAt k, r.visibleToWriter snapshot owner = true ∧ (r.vid, r.values) = p}

namespace Sys

variable {σ τ : Sys} {c i : Nat} {t₀ t : Txn} {sp : Savepoint}

/-- The connection is in a transaction with more than `i` savepoints. -/
def StillSet (c i : Nat) (σ : Sys) : Prop := ∃ t, (σ.conns c).txn = some t ∧ i < t.savepoints.length

/-- The transaction `t` goes on from `t₀`, with `sp` set there as its savepoint
number `i`. -/
structure Holds (t₀ : Txn) (sp : Savepoint) (i : Nat) (t : Txn) : Prop where
  owner : t.owner = t₀.owner
  snapshot : t.snapshot = t₀.snapshot
  logged : t.walOps.take sp.walLen = t₀.walOps
  set : t.savepoints[i]? = some sp

theorem Holds.step {F : Prop} {a : Act} (hc : Complete F σ)
    (hprev : ∃ t, (σ.conns c).txn = some t ∧ Holds t₀ sp i t) (hs : Stepped σ a τ) (hlive : StillSet c i τ) :
    ∃ t, (τ.conns c).txn = some t ∧ Holds t₀ sp i t := by
  obtain ⟨t, ht, h⟩ := hprev
  obtain ⟨t', ht', hlen⟩ := hlive
  refine ⟨t', ht', ?_⟩
  have hsaved := (hc.txn c t ht).2
  have hlog := (hsaved.saved sp (List.mem_of_getElem? h.set)).len
  cases txnStep_of_stepped hs ht' with
  | opened => simp at hlen
  | @dml t₁ E st params m w ht₁ hact hrun hstore =>
    obtain rfl : t = t₁ := Option.some.inj (ht.symm.trans ht₁)
    exact ⟨h.owner, h.snapshot, by rw [List.take_append_of_le_length hlog, h.logged], h.set⟩
  | @dmlFail t₁ E st params e w ht₁ hact hrun hstore =>
    obtain rfl : t = t₁ := Option.some.inj (ht.symm.trans ht₁)
    exact ⟨h.owner, h.snapshot, h.logged, h.set⟩
  | @savepoint t₁ name ht₁ hact hstore =>
    obtain rfl : t = t₁ := Option.some.inj (ht.symm.trans ht₁)
    have hi : i < t.savepoints.length := (List.getElem?_eq_some_iff.1 h.set).1
    exact ⟨h.owner, h.snapshot, h.logged, (List.getElem?_append_left hi).trans h.set⟩
  | @release t₁ name j ht₁ hact hstore =>
    obtain rfl : t = t₁ := Option.some.inj (ht.symm.trans ht₁)
    have hi : i < j := by
      rw [List.length_take] at hlen
      omega
    exact ⟨h.owner, h.snapshot, h.logged, by rw [List.getElem?_take_of_lt hi, h.set]⟩
  | @rollbackTo t₁ name j sp' ht₁ hact hat hsp' hstore =>
    obtain rfl : t = t₁ := Option.some.inj (ht.symm.trans ht₁)
    have hi : i < j + 1 := by
      rw [List.length_take] at hlen
      omega
    -- the savepoint gone back to was set no earlier
    have hle : sp.walLen ≤ sp'.walLen := by
      obtain ⟨hi', rfl⟩ := List.getElem?_eq_some_iff.1 h.set
      obtain ⟨hj', rfl⟩ := List.getElem?_eq_some_iff.1 hsp'
      rcases Nat.lt_or_ge i j with hlt | hge
      · exact List.pairwise_iff_getElem.1 hsaved.sorted i j hi' hj' hlt
      · obtain rfl : i = j := by omega
        exact le_rfl
    refine ⟨h.owner, h.snapshot, ?_, ?_⟩
    · rw [List.take_take, min_eq_left hle, h.logged]
    · rw [List.getElem?_take_of_lt hi, h.set]
  | kept ht₁ hact =>
    obtain rfl : t = t' := Option.some.inj (ht.symm.trans ht₁)
    exact h

/-- **A savepoint that stays on the stack keeps its place in the log.** -/
theorem Holds.runWhere {F : Prop} {P : Sys → Act → Prop} (hP : ∀ υ a, P υ a → F → StealFreeStep υ a)
    (hlive : ∀ υ a, P υ a → StillSet c i υ) (h : Inv σ) (hc : Complete F σ) (hrun : RunWhere P σ τ)
    (hset : ∃ t, (σ.conns c).txn = some t ∧ Holds t₀ sp i t) (hend : StillSet c i τ) :
    ∃ t, (τ.conns c).txn = some t ∧ Holds t₀ sp i t := by
  induction hrun with
  | nil => exact hset
  | @snoc υ τ a hrun hsat hstep ih =>
    exact Holds.step (hc.runWhere hP h hrun) (ih (hlive υ a hsat)) (stepped_of_step hstep) hend

/-- A savepoint is set on top of the stack, at the end of the log. -/
theorem holds_of_savepoint {name : String} (ht : (σ.conns c).txn = some t)
    (hstep : Twill.step σ (.savepoint c name) = some τ) :
    σ.conns c = ⟨some t, .idle⟩ ∧ ∃ sp t', (τ.conns c).txn = some t' ∧ Holds t sp t.savepoints.length t' := by
  cases stepped_of_step hstep with
  | @savepoint _ t₁ _ hconn =>
    obtain rfl : t₁ = t := by simpa [hconn] using ht
    have hset : ∀ l (sp : Savepoint), (l ++ [sp])[l.length]? = some sp := fun l sp => by simp
    exact ⟨hconn, _, _, congrArg Connection.txn conns_setConn_self, ⟨rfl, rfl, List.take_length, hset t₁.savepoints
      ⟨name, (σ.store.pendingSnapshot t₁.owner).1, (σ.store.pendingSnapshot t₁.owner).2, t₁.walOps.length⟩⟩⟩

/-- What a transaction is once it has gone back. -/
theorem conns_of_rollbackTo {name : String} (ht : (σ.conns c).txn = some t) (hat : savepointAt t name = some i)
    (hstep : Twill.step σ (.rollbackTo c name) = some τ) :
    ∃ sp, t.savepoints[i]? = some sp ∧ τ.conns c = ⟨some { t with
      walOps := t.walOps.take sp.walLen, savepoints := t.savepoints.take (i + 1) }, .idle⟩ := by
  cases stepped_of_step hstep with
  | @rollbackTo _ t₁ _ j sp hconn hat' hsp =>
    obtain rfl : t₁ = t := by simpa [hconn] using ht
    obtain rfl : j = i := Option.some.inj (hat'.symm.trans hat)
    exact ⟨sp, hsp, conns_setConn_self⟩

/-! ## What is pending is what is logged -/

/-- In runs that undo cleanly a transaction between statements has pending
exactly what it has buffered. -/
theorem pending_eq (hc : Complete False σ) (hsrc : Sourced σ) (hconn : σ.conns c = ⟨some t, .idle⟩) (k : String) :
    inserted t.owner (σ.store.rowsAt k) = insertsOf (opsAt k t.walOps) ∧
      deleted t.owner (σ.store.rowsAt k) = deletesOf (opsAt k t.walOps) := by
  obtain ⟨hbuffered, -⟩ := hc.txn c t (by rw [hconn])
  obtain ⟨hi, hd⟩ := hsrc.txn c t (by rw [hconn]) (by simp [hconn]) k
  exact ⟨hi.antisymm (hbuffered k).1, hd.antisymm (hbuffered k).2⟩

/-- A writer sees its snapshot and its own pending inserts, less its own pending
deletes. -/
theorem seenBy_eq (h : Inv σ) {s : Nat} (hs : s ≤ σ.store.committedLsn) (o : Nat) (k : String) :
    σ.store.seenBy s o k = {p | (p ∈ (σ.store.rowsAt k).visible s ∨ p ∈ inserted o (σ.store.rowsAt k)) ∧
      p.1 ∉ deleted o (σ.store.rowsAt k)} := by
  have hsound := h.sound k
  ext p
  constructor
  · rintro ⟨r, hr, hvis, rfl⟩
    obtain ⟨hmade, hkept⟩ := (Mvcc.Version.visibleToWriter_iff (h.version hr) hs h.committed_lt).1 hvis
    refine ⟨?_, ?_⟩
    · rcases hmade with hread | hown
      · exact .inl ((mem_visible_iff hsound hr).2 hread)
      · exact .inr ⟨r, hr, hown, rfl⟩
    · rintro ⟨r', hr', hdel, hvid⟩
      obtain rfl := hsound.eq_of_vid hr' hr hvid
      simp [hdel] at hkept
  · rintro ⟨hmade, hkept⟩
    obtain ⟨r, hr, rfl, hread⟩ : ∃ r ∈ σ.store.rowsAt k, (r.vid, r.values) = p ∧
        (r.visibleToReader s = true ∨ r.ownInsert o = true) := by
      rcases hmade with hread | ⟨r, hr, hown, hp⟩
      · obtain ⟨r, hr, hp⟩ := List.mem_map.1 hread
        obtain ⟨hr, hvis⟩ := List.mem_filter.1 hr
        exact ⟨r, hr, hp, .inl hvis⟩
      · exact ⟨r, hr, hp, .inr hown⟩
    refine ⟨r, hr, (Mvcc.Version.visibleToWriter_iff (h.version hr) hs h.committed_lt).2 ⟨hread, ?_⟩, rfl⟩
    by_contra hdel
    exact hkept ⟨r, hr, by simpa using hdel, rfl⟩

theorem Sourced.recoverable {E₀ : Env} (h : Inv σ) (hc : Complete False σ) (hsrc : Sourced σ)
    (hrun : RunWhere (Recoverable E₀) σ τ) : Sourced τ := by
  induction hrun with
  | nil => exact hsrc
  | @snoc υ τ a hrun hsat hstep ih =>
    have hcomplete := hc.runWhere (fun _ _ _ => False.elim) h hrun
    exact ih.step (h.runWhere hrun) hcomplete hstep hsat.atomic hsat.clean

end Sys

open Sys

/-- A step with recoverable effects, no DDL, and the savepoint still there. -/
structure Within (E₀ : Env) (c i : Nat) (σ : Sys) (a : Act) : Prop where
  recoverable : Recoverable E₀ σ a
  noDdl : NoDdl σ a
  live : StillSet c i σ

theorem Recoverable.quiet {E₀ : Env} {σ : Sys} {a : Act} (hdml : ∀ c E st params, a ≠ .dml c E st params)
    (hback : ∀ c name, a ≠ .rollbackTo c name) (hddl : ∀ c E st outcome, a ≠ .ddl c E st outcome) :
    Recoverable E₀ σ a :=
  ⟨fun c E st params _ h => absurd h (hdml c E st params), fun c E st params _ h => absurd h (hdml c E st params),
    fun c name _ _ _ h => absurd h (hback c name), fun c E st outcome h => absurd h (hddl c E st outcome)⟩

theorem Recoverable.back {E₀ : Env} {σ : Sys} {c : Nat} {name : String} (h : BacksCleanly σ (.rollbackTo c name)) :
    Recoverable E₀ σ (.rollbackTo c name) :=
  ⟨fun _ _ _ _ _ heq => absurd heq (by simp), fun _ _ _ _ _ heq => absurd heq (by simp), h,
    fun _ _ _ _ heq => absurd heq (by simp)⟩

/-- **Going back to a savepoint.** In runs that steal nothing, whose explicit
statements stop in time and whose returns are clean: a savepoint set at `σ₀` and
still on the stack at `σ₂` gives back, on ROLLBACK TO, the log, the pending
versions of every table and the rows the transaction saw when it was set; and
whenever no writer is in flight after that, the live store is the replay of the
log. -/
theorem rollbackTo_restores (E₀ : Env) (c : Nat) (name name' : String) (t₀ t₂ : Txn) (σ₀ σ₁ σ₂ σ₃ : Sys)
    (hreach : RunWhere (Recoverable E₀) Sys.init σ₀) (ht₀ : (σ₀.conns c).txn = some t₀)
    (hset : step σ₀ (.savepoint c name) = some σ₁)
    (hrun : RunWhere (Within E₀ c t₀.savepoints.length) σ₁ σ₂) (ht₂ : (σ₂.conns c).txn = some t₂)
    (hat : savepointAt t₂ name' = some t₀.savepoints.length) (hclean : BacksCleanly σ₂ (.rollbackTo c name'))
    (hback : step σ₂ (.rollbackTo c name') = some σ₃) :
    (∃ t₃, (σ₃.conns c).txn = some t₃ ∧ t₃.walOps = t₀.walOps ∧ ∀ k,
      inserted t₃.owner (σ₃.store.rowsAt k) = inserted t₀.owner (σ₀.store.rowsAt k) ∧
        deleted t₃.owner (σ₃.store.rowsAt k) = deleted t₀.owner (σ₀.store.rowsAt k) ∧
        σ₃.store.seenBy t₃.snapshot t₃.owner k = σ₀.store.seenBy t₀.snapshot t₀.owner k) ∧
    ∀ σ₄, RunWhere (Recoverable E₀) σ₃ σ₄ → σ₄.inFlight = [] → σ₄.lane = none →
      Store.SameData (replay E₀ Store.empty σ₄.log) σ₄.store := by
  have hreach₁ : RunWhere (Recoverable E₀) Sys.init σ₁ := .snoc hreach (.quiet (by simp) (by simp) (by simp)) hset
  have hreach₂ := hreach₁.trans (hrun.mono fun _ _ h => h.recoverable)
  have hreach₃ := hreach₂.snoc (Recoverable.back hclean) hback
  have hinv : ∀ {υ}, RunWhere (Recoverable E₀) Sys.init υ → Inv υ := Inv.init.runWhere
  have hcomplete : ∀ {υ}, RunWhere (Recoverable E₀) Sys.init υ → Complete False υ :=
    Complete.init.runWhere (fun _ _ _ => False.elim) Inv.init
  have hsourced : ∀ {υ}, RunWhere (Recoverable E₀) Sys.init υ → Sourced υ :=
    Sourced.init.recoverable Inv.init Complete.init
  -- no DDL from the savepoint on
  have hquiet : RunWhere NoDdl σ₀ σ₃ := by
    have hrun₁ : RunWhere NoDdl σ₀ σ₁ := (RunWhere.nil σ₀).snoc (a := .savepoint c name) rfl hset
    exact (hrun₁.trans (hrun.mono fun _ _ h => h.noDdl)).snoc (a := .rollbackTo c name') rfl hback
  obtain ⟨hconn₀, sp, hset₁⟩ := holds_of_savepoint ht₀ hset
  obtain ⟨sp', hsp', hconn₃⟩ := conns_of_rollbackTo ht₂ hat hback
  obtain ⟨t, ht, hholds⟩ := Holds.runWhere (fun _ _ _ => False.elim) (fun _ _ h => h.live) (hinv hreach₁)
    (hcomplete hreach₁) hrun hset₁ ⟨t₂, ht₂, (List.getElem?_eq_some_iff.1 hsp').1⟩
  obtain rfl : t₂ = t := Option.some.inj (ht₂.symm.trans ht)
  obtain rfl : sp = sp' := Option.some.inj (hholds.set.symm.trans hsp')
  refine ⟨⟨_, by rw [hconn₃], hholds.logged, fun k => ?_⟩, fun σ₄ hrun₄ hin hlane => ?_⟩
  · obtain ⟨hi₀, hd₀⟩ := pending_eq (hcomplete hreach) (hsourced hreach) hconn₀ k
    obtain ⟨hi₃, hd₃⟩ := pending_eq (hcomplete hreach₃) (hsourced hreach₃) hconn₃ k
    simp only [hholds.logged, hholds.owner, hholds.snapshot] at hi₃ hd₃ ⊢
    have hins := hi₃.trans hi₀.symm
    have hdel := hd₃.trans hd₀.symm
    refine ⟨hins, hdel, ?_⟩
    have hsnap := ((hinv hreach).txn c t₀ ht₀).2.2
    obtain ⟨hle, hvis⟩ := visible_run (fun _ _ h => h) (hinv hreach) hsnap hquiet
    rw [seenBy_eq (hinv hreach₃) hle, seenBy_eq (hinv hreach) hsnap, hvis, hins, hdel]
  · exact ((Mirrored.runWhere (hreach₃.trans hrun₄)).replay hin hlane).1

/-! ## Worked cases -/

theorem eq_of_mem_opsAt_insert {k table : String} {vid : Nat} {values : Row} {op : Op Row}
    (h : op ∈ opsAt k [WalOp.insert table vid values]) : op = .insert vid values := by
  simp only [opsAt, WalOp.at, List.filterMap_cons, List.filterMap_nil] at h
  split at h
  · simp at h
  · next heq =>
    split at heq
    · simp_all
    · simp at heq

/-- An explicit transaction on `items` with one row inserted. -/
def oneInserted : Sys := Sys.init.after [createItems, .begin 1, insertItem 1 1 10]

theorem oneInserted_reached : RunWhere (Recoverable Env.bare) Sys.init oneInserted := by
  have hsteps : StepsWhere (Replayable Env.bare) Sys.init [createItems, .begin 1, insertItem 1 1 10] := by
    refine ⟨.createItems _, .quiet rfl (by simp) (by simp) (by simp), ?_, trivial⟩
    refine .insert rfl fun t hconn => ?_
    obtain rfl := Option.some.inj (congrArg Connection.txn hconn)
    exact ⟨_, rfl⟩
  exact recoverable_of_replayable ((RunWhere.nil Sys.init).after hsteps)

/-- One row before the savepoint, one after it. -/
theorem rollbackTo_restores_items :
    let σ₂ := oneInserted.after [.savepoint 1 "s", insertItem 1 2 20]
    let σ₃ := σ₂.after [.rollbackTo 1 "s"]
    (σ₂.store.rowsAt "items").length = 2 ∧
      inserted 1 (σ₃.store.rowsAt "items") = inserted 1 (oneInserted.store.rowsAt "items") := by
  intro σ₂ σ₃
  refine ⟨rfl, ?_⟩
  have hset : step oneInserted (.savepoint 1 "s") = some (oneInserted.after [.savepoint 1 "s"]) := rfl
  have hinv := Inv.init.runWhere (oneInserted_reached.snoc (.quiet (by simp) (by simp) (by simp)) hset)
  have hinsert : Replayable Env.bare (oneInserted.after [.savepoint 1 "s"]) (insertItem 1 2 20) := by
    refine .insert rfl fun t hconn => ?_
    obtain rfl := Option.some.inj (congrArg Connection.txn hconn)
    exact ⟨_, rfl⟩
  have hrun : RunWhere (Within Env.bare 1 0) (oneInserted.after [.savepoint 1 "s"]) σ₂ :=
    (RunWhere.nil _).snoc (a := insertItem 1 2 20) ⟨hinsert.recoverable hinv, rfl, _, rfl, by decide⟩ rfl
  have hclean : BacksCleanly σ₂ (.rollbackTo 1 "s") := by
    intro c name t i sp heq ht hat hsp k v
    obtain ⟨rfl, rfl⟩ := Act.rollbackTo.inj heq
    obtain rfl := Option.some.inj ht
    obtain rfl : 0 = i := Option.some.inj hat
    obtain rfl := Option.some.inj hsp
    refine ⟨?_, fun hdel => absurd (eq_of_mem_opsAt_insert hdel) (by simp)⟩
    rintro ⟨values, hins⟩ hmem
    obtain ⟨rfl, -⟩ := Op.insert.inj (eq_of_mem_opsAt_insert hins)
    exact absurd hmem (by decide)
  obtain ⟨⟨t₃, ht₃, -, hk⟩, -⟩ := rollbackTo_restores Env.bare 1 "s" "s" _ _ oneInserted _ σ₂ σ₃ oneInserted_reached rfl
    hset hrun rfl rfl hclean rfl
  obtain rfl := Option.some.inj ht₃
  exact (hk "items").1

/-- `CREATE TABLE notes (id INTEGER PRIMARY KEY, n INTEGER)`, logged at LSN 3. -/
def createNotes : Act :=
  .ddl 0 Env.bare (.createTable ⟨"notes", [⟨"id", .integer, true, true, false, false, none⟩,
    ⟨"n", .integer, false, false, false, false, none⟩], [], [], [], [], false⟩) (some 3)

/-- `INSERT INTO notes VALUES (id, n)` on connection `c`. -/
def insertNote (c : Nat) (id n : Int64) : Act :=
  .dml c Env.bare (.insert ⟨"notes", none, .values [[.int id, .int n]], .error, none⟩) []

/-- The first row of `notes` has the id the savepoint saved for the first row of
`items`, so going back leaves it pending; its commit publishes a row the log
does not have. -/
theorem rollbackTo_keeps_other_table :
    let before : List Act := [createItems, createNotes, .begin 1, insertItem 1 1 10]
    let back : List Act := [.savepoint 1 "s", insertNote 1 1 5, .rollbackTo 1 "s"]
    let done : List Act := [.commit 1, .drain, .append 5, .publish]
    let σ₀ := Sys.init.after before
    let σ₃ := σ₀.after back
    let σ₄ := σ₃.after done
    Run Sys.init before σ₀ ∧ Run σ₀ back σ₃ ∧ Run σ₃ done σ₄ ∧ σ₀.store.rowsAt "notes" = [] ∧
      σ₃.store.rowsAt "notes" = [⟨1, [.int 1, .int 5], PENDING, 0, 1⟩] ∧ σ₄.inFlight.length = 0 ∧
      σ₄.lane = none ∧ ¬ Store.SameData (replay Env.bare Store.empty σ₄.log) σ₄.store := by
  intro before back done σ₀ σ₃ σ₄
  have hrest : σ₄.inFlight.length = 0 ∧ σ₄.lane = none := by decide
  have hrows : σ₀.store.rowsAt "notes" = [] ∧
      σ₃.store.rowsAt "notes" = [⟨1, [.int 1, .int 5], PENDING, 0, 1⟩] := by decide
  refine ⟨run_after (by decide), run_after (by decide), run_after (by decide), hrows.1, hrows.2, hrest.1, hrest.2, fun h => ?_⟩
  exact absurd (h.data "notes") (by decide)

end Twill
