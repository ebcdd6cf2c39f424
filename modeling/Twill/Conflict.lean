/-
Writers in flight do not disturb each other, as long as no upsert takes a
pending delete.

The upsert path reaches rows through the live-key map, which leads to a row
another writer has pending-deleted as if it were still free; superseding it
takes over that writer's stamp. Under `StealFreeStep` no stamp changes hands:
statements touch only versions no one else has marked, a published writer's
deletes are all its own, and a rolled back one leaves the history of the others
(`Mvcc.Rows.play`).
-/
import Twill.Pending
import Twill.Snapshot
import Twill.Lib.MvccTrace

namespace Twill

open Mvcc (PENDING Op Effect)
open Mvcc.Rows

namespace Sys

variable {σ τ : Sys}

/-! ## Histories -/

/-- The effects of a step on the table under a key. -/
def effects (σ : Sys) (k : String) : Act → List (Effect Row)
  | .dml c E st params => match (σ.conns c).txn with
    | some t => if k = Store.key st.table then
        [.wrote t.owner (dmlOps E st ⟨t.snapshot, t.owner, params⟩ σ.store)] else []
    | none => []
  | .rollback c => match (σ.conns c).txn with
    | some t => if t.writer then [.rolledBack t.owner] else []
    | none => []
  | .rollbackTo c name => match (σ.conns c).txn with
    | some t => match savepointAt t name >>= fun i => t.savepoints[i]? with
      | some sp => if t.writer then [.rolledTo t.owner sp.inserted sp.deleted] else []
      | none => []
    | none => []
  | .publish => match σ.flush with
    | .appended ms first => (commitLsns first ms).map fun p => .published p.1 p.2
    | _ => []
  | .discard => match σ.flush with
    | .failed ms => ms.map fun m => .rolledBack m.owner
    | _ => []
  | _ => []

/-- A step that steals nothing and is no DDL. -/
def Quiet (σ : Sys) (a : Act) : Prop := StealFreeStep σ a ∧ NoDdl σ a

/-- A run with the history of every table. -/
inductive RunTrace (P : Sys → Act → Prop) (σ : Sys) : (String → List (Effect Row)) → Sys → Prop where
  | nil : RunTrace P σ (fun _ => []) σ
  | snoc {τ υ : Sys} {es : String → List (Effect Row)} {a : Act} : RunTrace P σ es τ → P τ a →
      step τ a = some υ → RunTrace P σ (fun k => es k ++ τ.effects k a) υ

theorem RunTrace.runWhere {P : Sys → Act → Prop} {es : String → List (Effect Row)} (h : RunTrace P σ es τ) :
    RunWhere P σ τ := by
  induction h with
  | nil => exact .nil σ
  | snoc _ hP hstep ih => exact .snoc ih hP hstep

/-- Plain statements make quiet runs. -/
theorem runTrace_of_plain {acts : List Act} (h : Inv σ) (hrun : Run σ acts τ)
    (hacts : ∀ a ∈ acts, a.plain = true ∧ a.isDdl = false) :
    ∃ es, RunTrace Quiet σ es τ := by
  induction hrun with
  | nil => exact ⟨_, .nil⟩
  | @snoc τ υ acts a hrun hstep ih =>
    obtain ⟨es, hes⟩ := ih fun a' ha' => hacts a' (List.mem_append_left _ ha')
    obtain ⟨hplain, hddl⟩ := hacts a (by simp)
    exact ⟨_, .snoc hes ⟨stealFreeStep_of_plain (h.run hrun) hplain, hddl⟩ hstep⟩

theorem play_published (commits : List (Nat × Nat)) (rows : Mvcc.Rows Row) :
    play rows (commits.map fun p => .published p.1 p.2) = rows.finalizeAll commits := by
  rw [play, List.foldl_map]
  rfl

theorem play_rolledBack (ms : List Member) (rows : Mvcc.Rows Row) :
    play rows (ms.map fun m => .rolledBack m.owner) = rows.rollbackAll (ms.map (·.owner)) := by
  rw [play, rollbackAll, List.foldl_map, List.foldl_map]
  congr 1
  funext rows m
  exact Effect.on_rolledBack rows m.owner

/-- A step without DDL has its effects on every table. -/
theorem rowsAt_effects {a : Act} (hs : Stepped σ a τ) (hddl : a.isDdl = false) (k : String) :
    τ.store.rowsAt k = play (σ.store.rowsAt k) (σ.effects k a) := by
  cases hs with
  | @dml c t phase E st params m w hconn hphase hlane hrun =>
    have h := runDml_rowsAt E st ⟨t.snapshot, t.owner, params⟩ σ.store k
    rw [hrun] at h
    rw [store_setConn]
    refine h.trans ?_
    simp only [effects, hconn]
    split <;> rfl
  | @dmlFail c t phase E st params e w hconn hphase hlane hrun =>
    have h := runDml_rowsAt E st ⟨t.snapshot, t.owner, params⟩ σ.store k
    rw [hrun] at h
    rw [store_setConn]
    refine h.trans ?_
    simp only [effects, hconn]
    split <;> rfl
  | rollbackIdle hconn hwriter => simp [effects, hconn, hwriter, play]
  | @rollback c t phase hconn hwriter =>
    simp only [effects, hconn, hwriter, if_true]
    rw [Store.rowsAt_rollbackOwner]
    exact (Effect.on_rolledBack _ _).symm
  | @rollbackTo c t name i sp hconn hat hsp =>
    rw [store_setConn]
    simp only [effects, hconn, hat, Option.bind_eq_bind, Option.bind_some, hsp]
    split
    · rw [Store.rowsAt_rollbackToSavepoint]
      rfl
    · rfl
  | publish hflush =>
    rw [rowsAt_publish]
    simp only [effects, hflush, play_published]
  | discard hflush =>
    rw [rowsAt_discard]
    simp only [effects, hflush, play_rolledBack]
  | ddlNothing | ddl => simp [Act.isDdl] at hddl
  | _ => rfl

theorem fitsAll_of_forall {es : List (Effect Row)} (h : ∀ e ∈ es, ∀ rows, e.Fits rows) (rows : Mvcc.Rows Row) :
    FitsAll rows es := by
  induction es generalizing rows with
  | nil => trivial
  | cons e es ih =>
    exact ⟨h e List.mem_cons_self rows, ih (fun e' he' => h e' (List.mem_cons_of_mem _ he')) _⟩

/-- The effects of a step that steals nothing are their writers' own. -/
theorem fitsAll_effects {a : Act} (h : Inv σ) (hs : Stepped σ a τ) (hfree : StealFreeStep σ a) (k : String) :
    FitsAll (σ.store.rowsAt k) (σ.effects k a) := by
  have hdml : ∀ {c t E st params}, (σ.conns c).txn = some t → a = .dml c E st params →
      FitsAll (σ.store.rowsAt k) (σ.effects k a) := by
    rintro c t E st params ht rfl
    simp only [effects, ht]
    split
    · next hk =>
      subst hk
      exact ⟨⟨(h.txn c t ht).1.ne', h.dml_admits ht (hfree c E st params t rfl ht)⟩, trivial⟩
    · trivial
  cases hs with
  | dml hconn => exact hdml (by rw [hconn]) rfl
  | dmlFail hconn => exact hdml (by rw [hconn]) rfl
  | rollbackIdle hconn hwriter =>
    simp only [effects, hconn, hwriter]
    trivial
  | @rollback c t phase hconn hwriter =>
    simp only [effects, hconn, hwriter, if_true]
    exact ⟨(h.txn c t (by rw [hconn])).1.ne', trivial⟩
  | @rollbackTo c t name i sp hconn hat hsp =>
    simp only [effects, hconn, hat, Option.bind_eq_bind, Option.bind_some, hsp]
    split
    · exact ⟨(h.txn c t (by rw [hconn])).1.ne', trivial⟩
    · trivial
  | @publish ms first hflush =>
    simp only [effects, hflush]
    refine fitsAll_of_forall (fun e he rows => ?_) _
    obtain ⟨p, hp, rfl⟩ := List.mem_map.1 he
    have howner : p.1 ∈ ms.map (·.owner) := by
      rw [← owners_commitLsns first ms]
      exact List.mem_map_of_mem hp
    obtain ⟨m, hm, heq⟩ := List.mem_map.1 howner
    have hbounds := commitLsns_bounds p hp
    have hnext := (h.appended ms first hflush).2
    have hbound := h.bound
    refine ⟨?_, by omega⟩
    rw [← heq]
    exact (h.member m (List.mem_append_left _ (by simpa [hflush, Flush.members] using hm))).1.ne'
  | @discard ms hflush =>
    simp only [effects, hflush]
    refine fitsAll_of_forall (fun e he rows => ?_) _
    obtain ⟨m, hm, rfl⟩ := List.mem_map.1 he
    exact (h.member m (List.mem_append_left _ (by simpa [hflush, Flush.members] using hm))).1.ne'
  | _ => trivial

/-- A run plays its history, and the history fits. -/
theorem rowsAt_play {es : String → List (Effect Row)} (h : Inv σ) (hrun : RunTrace Quiet σ es τ) (k : String) :
    τ.store.rowsAt k = play (σ.store.rowsAt k) (es k) ∧ FitsAll (σ.store.rowsAt k) (es k) := by
  induction hrun with
  | nil => exact ⟨rfl, trivial⟩
  | @snoc τ υ es a hrun hquiet hstep ih =>
    have hs := stepped_of_step hstep
    obtain ⟨hplay, hfits⟩ := ih
    rw [play_append, fitsAll_append, ← hplay]
    exact ⟨rowsAt_effects hs hquiet.2 k, hfits, fitsAll_effects (h.runWhere hrun.runWhere) hs hquiet.1 k⟩

/-! ## Who has published -/

/-- The history publishes nothing of `o`. -/
def Unpublished (es : String → List (Effect Row)) (o : Nat) : Prop := ∀ k c, Effect.published o c ∉ es k

theorem published_mem_effects {a : Act} {k : String} {o c : Nat} (h : Effect.published o c ∈ σ.effects k a) :
    ∃ ms first, σ.flush = .appended ms first ∧ a = .publish ∧ ∃ m ∈ ms, m.owner = o := by
  cases a with
  | publish =>
    simp only [effects] at h
    split at h
    · next ms first hflush =>
      obtain ⟨p, hp, heq⟩ := List.mem_map.1 h
      have howner : p.1 ∈ ms.map (·.owner) := by
        rw [← owners_commitLsns first ms]
        exact List.mem_map_of_mem hp
      obtain ⟨m, hm, hmp⟩ := List.mem_map.1 howner
      exact ⟨ms, first, hflush, rfl, m, hm, hmp.trans (Effect.published.inj heq).1⟩
    · simp at h
  | dml c E st params =>
    simp only [effects] at h
    repeat' split at h
    all_goals simp at h
  | rollback c =>
    simp only [effects] at h
    repeat' split at h
    all_goals simp [Effect.rolledBack] at h
  | rollbackTo c name =>
    simp only [effects] at h
    repeat' split at h
    all_goals simp at h
  | discard =>
    simp only [effects] at h
    split at h
    · simp [Effect.rolledBack] at h
    · simp at h
  | _ => simp [effects] at h

theorem TxnStep.owner {a : Act} {c : Nat} {s : Store} {t : Txn} (h : TxnStep σ a c s t) :
    t.owner = σ.nextOwner ∨ ∃ t₀, (σ.conns c).txn = some t₀ ∧ t₀.owner = t.owner := by
  cases h with
  | opened => exact .inl rfl
  | dml ht | dmlFail ht | savepoint ht | release ht | rollbackTo ht | kept ht => exact .inr ⟨_, ht, rfl⟩

/-- Open transactions, writers in flight and owner ids not yet drawn have not
published. -/
structure Unresolved (es : String → List (Effect Row)) (σ : Sys) : Prop where
  txn : ∀ c t, (σ.conns c).txn = some t → Unpublished es t.owner
  member : ∀ m ∈ σ.inFlight, Unpublished es m.owner
  future : ∀ o, σ.nextOwner ≤ o → Unpublished es o

theorem Unresolved.step {a : Act} {es : String → List (Effect Row)} (h : Inv σ) (hu : Unresolved es σ)
    (hs : Stepped σ a τ) : Unresolved (fun k => es k ++ σ.effects k a) τ := by
  -- it is enough that the batch published here does not have the owner
  have hextend : ∀ o, Unpublished es o → (a = .publish → ∀ m ∈ σ.flush.members, m.owner ≠ o) →
      Unpublished (fun k => es k ++ σ.effects k a) o := by
    intro o hold hbatch k c hmem
    rcases List.mem_append.1 hmem with hmem | hmem
    · exact hold k c hmem
    · obtain ⟨ms, first, hflush, ha, m, hm, hown⟩ := published_mem_effects hmem
      exact hbatch ha m (by simpa [hflush, Flush.members] using hm) hown
  have hin : ∀ m ∈ σ.flush.members, m ∈ σ.inFlight := fun m hm => List.mem_append_left _ hm
  have hfuture : ∀ o, σ.nextOwner ≤ o → Unpublished (fun k => es k ++ σ.effects k a) o := fun o ho =>
    hextend o (hu.future o ho) fun _ m hm => ((h.member m (hin m hm)).2.trans_le ho).ne
  have htxn : ∀ c t, (σ.conns c).txn = some t → Unpublished (fun k => es k ++ σ.effects k a) t.owner :=
    fun c t ht => hextend t.owner (hu.txn c t ht) fun _ m hm => h.fresh c t ht m (hin m hm)
  refine ⟨fun c t ht => ?_, fun m hm => ?_, fun o ho => hfuture o ((nextOwner_mono hs).trans ho)⟩
  · rcases (txnStep_of_stepped hs ht).owner with heq | ⟨t₀, ht₀, heq⟩
    · rw [heq]
      exact hfuture _ le_rfl
    · rw [← heq]
      exact htxn c t₀ ht₀
  · rcases inFlight_of_stepped h.toOwners hs hm with ⟨hold, hbatch⟩ | ⟨c, t, -, ht, -, rfl⟩
    · exact hextend m.owner (hu.member m hold) fun ha => hbatch (.inl ha)
    · exact htxn c t ht

theorem Unresolved.run {P : Sys → Act → Prop} {es : String → List (Effect Row)} (h : Inv σ)
    (hrun : RunTrace P σ es τ) : Unresolved es τ := by
  induction hrun with
  | nil => exact ⟨fun _ _ _ _ _ => by simp, fun _ _ _ _ => by simp, fun _ _ _ _ => by simp⟩
  | snoc hrun _ hstep ih => exact ih.step (h.runWhere hrun.runWhere) (stepped_of_step hstep)

/-- Writers that had written nothing at `σ` and have not published since: rolled
back, they leave the history of the others. -/
theorem rollbackAll_history {es : String → List (Effect Row)} (h : Inv σ) (hrun : RunTrace Quiet σ es τ)
    (owners : List Nat) (hpos : ∀ o ∈ owners, o ≠ 0) (hpub : ∀ o ∈ owners, Unpublished es o)
    (hstart : ∀ o ∈ owners, ∀ k, Untouched o (σ.store.rowsAt k)) (k : String) :
    (τ.store.rowsAt k).rollbackAll owners =
      play (σ.store.rowsAt k) ((es k).filter fun e => e.owner ∉ owners) := by
  obtain ⟨hplay, hfits⟩ := rowsAt_play h hrun k
  have hnone : (σ.store.rowsAt k).rollbackAll owners = σ.store.rowsAt k := by
    clear hpos hpub
    induction owners with
    | nil => rfl
    | cons o owners ih =>
      have hhead : (σ.store.rowsAt k).rollback o = σ.store.rowsAt k := by
        rw [rollback_eq]
        exact rollbackTo_untouched (hstart o List.mem_cons_self k)
      show ((σ.store.rowsAt k).rollback o).rollbackAll owners = _
      rw [hhead]
      exact ih fun o' ho' => hstart o' (List.mem_cons_of_mem _ ho')
  rw [hplay, rollbackAll_play (h.sound k) hpos hfits fun o ho c => hpub o ho k c, hnone]

/-! ## One step -/

/-- A published version's delete is stamped with its writer's LSN. -/
theorem deleteLsn_publish {ms : List Member} {first : Nat} (h : Inv σ) (hc : Complete True σ)
    (hflush : σ.flush = .appended ms first) {m : Member} (hm : m ∈ ms) {c : Nat}
    (hlsn : (m.owner, c) ∈ commitLsns first ms) {table : String} {vid : Nat} (hop : .delete table vid ∈ m.ops) :
    (∃ r ∈ (σ.publish ms first).store.rowsAt (Store.key table), r.vid = vid) ∧
      ∀ r ∈ (σ.publish ms first).store.rowsAt (Store.key table), r.vid = vid → r.deleteLsn = c := by
  have hmem : ∀ m ∈ ms, m ∈ σ.inFlight := fun m hm => List.mem_append_left _ (by simpa [hflush, Flush.members])
  have hdel : vid ∈ deletesOf (opsAt (Store.key table) m.ops) :=
    List.mem_filterMap.2 ⟨_, hop, by simp [WalOp.at]⟩
  obtain ⟨r, hr, hown, hv⟩ := hc.deletes trivial m (hmem m hm) _ hdel
  -- the version is finalized with its own writer, and only then
  have hnodup : ((commitLsns first ms).map (·.1)).Nodup := by
    rw [owners_commitLsns]
    refine h.nodup.sublist (List.Sublist.map _ ?_)
    rw [inFlight, hflush]
    exact List.sublist_append_left _ _
  have hpos : ∀ p ∈ commitLsns first ms, p.1 ≠ 0 := by
    intro p hp
    have howner : p.1 ∈ ms.map (·.owner) := by
      rw [← owners_commitLsns first ms]
      exact List.mem_map_of_mem hp
    obtain ⟨m', hm', heq⟩ := List.mem_map.1 howner
    rw [← heq]
    exact (h.member m' (hmem m' hm')).1.ne'
  have hfin := foldl_finalize (owner_of_ownDelete hown) hlsn hnodup hpos
  have hstamp : (r.finalize m.owner c).deleteLsn = c := by
    simp only [Mvcc.Version.ownDelete, Bool.and_eq_true, beq_iff_eq] at hown
    simp [Mvcc.Version.finalize, hown.1, hown.2]
  rw [rowsAt_publish, finalizeAll_eq_map]
  refine ⟨⟨_, List.mem_map_of_mem hr, ?_⟩, fun r' hr' hv' => ?_⟩
  · rw [hfin, Mvcc.Version.vid_finalize, hv]
  · obtain ⟨r₀, hr₀, rfl⟩ := List.mem_map.1 hr'
    rw [vid_foldl_finalize] at hv'
    obtain rfl := (h.sound _).eq_of_vid hr₀ hr (hv'.trans hv.symm)
    rw [hfin, hstamp]

end Sys

open Sys

/-- What writers in flight may count on at the step `a` from `σ` to `τ`, `es`
being the history since `σ₀`. -/
structure Undisturbed (σ₀ σ τ : Sys) (es : String → List (Effect Row)) (a : Act) : Prop where
  /-- A statement leaves every version with another writer's stamp as it is. -/
  stamps : ∀ c E st params t, a = .dml c E st params → (σ.conns c).txn = some t →
    ∀ k, ∀ r ∈ σ.store.rowsAt k, r.owner ≠ 0 → r.owner ≠ t.owner → r ∈ τ.store.rowsAt k
  /-- It supersedes no version whose committed delete is newer than its snapshot. -/
  newer : ∀ c E st params t, a = .dml c E st params → (σ.conns c).txn = some t →
    ∀ k, ∀ r ∈ σ.store.rowsAt k, r.deleteLsn ≠ 0 → r.deleteLsn ≠ PENDING → t.snapshot < r.deleteLsn →
      r ∈ τ.store.rowsAt k
  /-- Every version a published transaction deleted bears the LSN of its commit. -/
  published : ∀ ms first, a = .publish → σ.flush = .appended ms first → ∀ m ∈ ms, ∀ c,
    (m.owner, c) ∈ commitLsns first ms → ∀ table vid, .delete table vid ∈ m.ops →
      (∃ r ∈ τ.store.rowsAt (Store.key table), r.vid = vid) ∧
        ∀ r ∈ τ.store.rowsAt (Store.key table), r.vid = vid → r.deleteLsn = c
  /-- A rolled back transaction that wrote since `σ₀` leaves the rows as if it had
  never run. -/
  rolledBack : ∀ c t, a = .rollback c → (σ.conns c).txn = some t →
    (∀ k, Untouched t.owner (σ₀.store.rowsAt k)) →
      ∀ k, τ.store.rowsAt k = play (σ₀.store.rowsAt k) ((es k).filter fun e => e.owner ∉ [t.owner])
  /-- So do the transactions of a batch that failed to append. -/
  discarded : ∀ ms, a = .discard → σ.flush = .failed ms →
    (∀ m ∈ ms, ∀ k, Untouched m.owner (σ₀.store.rowsAt k)) →
      ∀ k, τ.store.rowsAt k = play (σ₀.store.rowsAt k) ((es k).filter fun e => e.owner ∉ ms.map (·.owner))

/-- **Without stolen deletes, writers in flight do not disturb each other**, in
any run and at every step of it. -/
theorem undisturbed_of_stealFree (σ₀ σ τ : Sys) (es : String → List (Effect Row)) (a : Act)
    (hreach : RunWhere StealFreeStep Sys.init σ₀) (hrun : RunTrace Quiet σ₀ es σ) (hfree : StealFreeStep σ a)
    (hstep : step σ a = some τ) : Undisturbed σ₀ σ τ es a := by
  have hinv₀ : Inv σ₀ := Inv.init.runWhere hreach
  have hinv : Inv σ := hinv₀.runWhere hrun.runWhere
  have hcomplete : Complete True σ := by
    refine Complete.runWhere (fun _ _ hq _ => hq.1) hinv₀ ?_ hrun.runWhere
    exact Complete.runWhere (fun _ _ hq _ => hq) Inv.init Complete.init hreach
  have hs := stepped_of_step hstep
  have hstore := storeStep_of_stepped hs
  -- a statement keeps every version that is not free for its writer
  have hkeep : ∀ {c E st params t}, a = .dml c E st params → (σ.conns c).txn = some t → ∀ k,
      ∀ r ∈ σ.store.rowsAt k, ¬ r.Free t.owner → r ∈ τ.store.rowsAt k := by
    rintro c E st params t rfl ht k r hr hnot
    have hrows := rowsAt_effects hs rfl k
    rw [hrows]
    simp only [effects, ht]
    split
    · next hk =>
      subst hk
      have hadm := hinv.dml_admits ht (hfree c E st params t rfl ht)
      exact (hadm.kept (hinv.sound _).nodup hr).resolve_right hnot
    · exact hr
  refine ⟨?_, ?_, ?_, ?_, ?_⟩
  · intro c E st params t ha ht k r hr h0 hne
    refine hkeep ha ht k r hr fun hf => ?_
    exact Free.owner_ne (hinv.sound k) hr hf h0 hne rfl
  · intro c E st params t ha ht k r hr h0 _ _
    exact hkeep ha ht k r hr fun hf => h0 hf.1
  · rintro ms first rfl hflush m hm c hlsn table vid hop
    have hτ : τ = σ.publish ms first := by simpa [step, hflush, eq_comm] using hstep
    rw [hτ]
    exact deleteLsn_publish hinv hcomplete hflush hm hlsn hop
  · rintro c t rfl ht hstart k
    have hun : Unpublished es t.owner := (Unresolved.run hinv₀ hrun).txn c t ht
    have hhist := rollbackAll_history hinv₀ hrun [t.owner] (by simpa using (hinv.txn c t ht).1.ne')
      (by simpa using hun) (by simpa using hstart) k
    rw [← hhist]
    show τ.store.rowsAt k = (σ.store.rowsAt k).rollback t.owner
    rw [rowsAt_effects hs rfl k]
    simp only [effects, ht]
    split
    · exact Effect.on_rolledBack _ _
    · next hw =>
      rw [rollback_eq, rollbackTo_untouched (hinv.unwritten c t ht (by simpa using hw) k)]
      rfl
  · rintro ms rfl hflush hstart k
    have hmem : ∀ m ∈ ms, m ∈ σ.inFlight := fun m hm => List.mem_append_left _ (by simpa [hflush, Flush.members])
    have hun : ∀ m ∈ ms, Unpublished es m.owner := fun m hm =>
      (Unresolved.run hinv₀ hrun).member m (hmem m hm)
    have hhist := rollbackAll_history hinv₀ hrun (ms.map (·.owner))
      (by simpa using fun m hm => (hinv.member m (hmem m hm)).1.ne') (by simpa using hun) (by simpa using hstart) k
    rw [← hhist, rowsAt_effects hs rfl k]
    simp only [effects, hflush, play_rolledBack]

/-- Connection 3 rolls back an insert while connection 2's delete is in the
queue: the rows are those with the delete alone. -/
theorem undisturbed_items :
    let σ := oneItem.after [.startImplicit 2, deleteItems 2, .commit 2, .begin 3, insertItem 3 2 20]
    let τ := σ.after [.rollback 3]
    (∃ es, Undisturbed oneItem σ τ es (.rollback 3)) ∧
      τ.store.rowsAt "items" = [⟨1, [.int 1, .int 10], 4, PENDING, 2⟩] := by
  intro σ τ
  have hσ₀ : Run Sys.init [createItems, .startImplicit 1, insertItem 1 1 10, .commit 1, .drain, .append 3, .publish]
    oneItem := run_after rfl
  have hσ : Run oneItem [.startImplicit 2, deleteItems 2, .commit 2, .begin 3, insertItem 3 2 20] σ := run_after rfl
  have hinv := Inv.init.run hσ₀
  have hreach : RunWhere StealFreeStep Sys.init oneItem :=
    runWhere_of_plain Inv.init hσ₀ (by simp [Act.plain, DmlStmt.plain, createItems, insertItem])
  obtain ⟨es, hes⟩ := runTrace_of_plain hinv hσ
    (by simp [Act.plain, DmlStmt.plain, Act.isDdl, deleteItems, insertItem])
  refine ⟨⟨es, ?_⟩, rfl⟩
  exact undisturbed_of_stealFree oneItem σ τ es (.rollback 3) hreach hes
    (stealFreeStep_of_plain (hinv.run hσ) rfl) rfl

/-! ## A stolen delete -/

/-- `INSERT OR REPLACE INTO items VALUES (id, n)` on connection `c`. -/
def replaceItem (c : Nat) (id n : Int64) : Act :=
  .dml c Env.bare (.insert ⟨"items", none, .values [[.int id, .int n]], .replace, none⟩) []

/-- Connection 2 has deleted the row and its commit is in the queue; a replace on
connection 3 takes the pending delete over. -/
theorem disturbed_by_replace :
    let acts := [createItems, .startImplicit 1, insertItem 1 1 10, .commit 1, .drain, .append 3, .publish,
      .startImplicit 2, deleteItems 2, .commit 2, .startImplicit 3]
    let σ := Sys.init.after acts
    let τ := σ.after [replaceItem 3 1 20]
    Run Sys.init acts σ ∧ step σ (replaceItem 3 1 20) = some τ ∧
      ¬ Undisturbed σ σ τ (fun _ => []) (replaceItem 3 1 20) := by
  intro acts σ τ
  refine ⟨run_after rfl, rfl, fun h => ?_⟩
  have hstamp : (⟨1, [.int 1, .int 10], 4, PENDING, 2⟩ : RowVersion) ∈ τ.store.rowsAt "items" :=
    h.stamps 3 _ _ _ ⟨4, false, [], 3, []⟩ rfl rfl "items" _ List.mem_cons_self (by decide) (by decide)
  have hrows : τ.store.rowsAt "items" =
      [⟨1, [.int 1, .int 10], 4, PENDING, 3⟩, ⟨2, [.int 1, .int 20], PENDING, 0, 3⟩] := rfl
  rw [hrows] at hstamp
  simp at hstamp

end Twill
