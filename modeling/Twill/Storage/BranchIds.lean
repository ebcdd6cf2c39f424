/-
Branch ids and the places they name: `create_branch`, `delete_branch` and
`load_branches` of the two backends.

An object store keeps a branch as a pointer object and a prefix of its own; the
file backend logs its branches and keeps a sibling file for each. A write through
an overlay is whatever it leaves under the prefix or in the file. Object-store
deletes and lists may fail, after taking effect or before; `remove_file` may fail.
-/
import Twill.Storage.BranchView

namespace Twill.Storage

open StateExcept (runOn)
open Transition (RunWhere Reach)
open Object (Page LayerKey)

/-! ## A branch nothing was written to -/

/-- Scans and reads of a branch are those of its parent, up to the fork. -/
structure BranchStorage.ShowsBase (b : BranchStorage) : Prop where
  scan : ∀ after, b.scanWal after =
    (if after < b.baseLsn then (b.parent.scanWal after).map (List.filter fun e => e.lsn ≤ b.baseLsn) else .ok [])
  read : ∀ pageId query, (b.getPage pageId query).1 = (b.parent.getPage pageId (min query b.baseLsn)).1

theorem BranchStorage.showsBase_of_empty {b : BranchStorage} (h : b.overlay.Shows .empty) : b.ShowsBase := by
  refine ⟨fun after => ?_, fun pageId query => ?_⟩
  · unfold BranchStorage.scanWal
    rw [h.scanWal, h.scanWal]
    split_ifs with hafter
    · cases b.parent.scanWal after with
      | error e => rfl
      | ok base => exact congrArg Except.ok (List.append_nil _)
    · rfl
  · by_cases hfork : query ≤ b.baseLsn
    · rw [getPage_base hfork, min_eq_left hfork]
    · rw [getPage_own hfork, min_eq_right (Nat.le_of_not_le hfork)]
      rcases h.getPage (Nat.zero_le _) pageId with ⟨r, -, hlatest⟩ | ⟨⟨message, hnone⟩, -⟩
      · cases hlatest.mem
      · rw [hnone]

/-! ## The object store -/

namespace ObjectBranches

/-- An object under a branch's prefix. -/
inductive Name where
  | layer (key : LayerKey)
  | lease
  | log (seq : Nat)
  | retention
  deriving DecidableEq

/-- The objects of a prefix as a sorted listing gives them. -/
def listing (b : Object.Bucket) : List Name :=
  let deltas := (b.layers.keys.filterMap LayerKey.asDelta).insertionSort fun x y => x.lo < y.lo ∨ x.lo = y.lo ∧ x.hi ≤ y.hi
  let images := (b.layers.keys.filterMap LayerKey.asImage).insertionSort (· ≤ ·)
  deltas.map (fun d => .layer d.key) ++ images.map (fun lsn => .layer (.image lsn)) ++
    b.lease.toList.map (fun _ => .lease) ++ b.sortedLog.map (fun e => .log e.1) ++ b.retention.toList.map fun _ => .retention

/-- The prefix without some of its objects. -/
def without (b : Object.Bucket) (gone : List Name) : Object.Bucket where
  log := b.log.filter fun e => .log e.1 ∉ gone
  layers := b.layers.filterVals fun key _ => .layer key ∉ gone
  lease := if .lease ∈ gone then none else b.lease
  retention := if .retention ∈ gone then none else b.retention

structure Sys where
  /-- The handle of the database itself. -/
  parent : Object.World
  /-- The pointer objects. -/
  pointers : AList fun _ : Nat => BranchRef
  /-- The objects under each `branches/<id>/`. -/
  overlays : Nat → Object.Bucket
  branches : AList fun _ : Nat => BranchRef
  nextBranchId : Nat
  isOpen : Bool

/-- Where a call on the object store fails in `delete_branch`. -/
inductive Fault where
  | pointer (applied : Bool)
  | list
  /-- After that many objects of the prefix are gone. -/
  | object (gone : Nat)
  deriving DecidableEq

namespace Sys

def createBranch (s : Sys) (baseLsn : Nat) : Except StorageError Nat × Sys :=
  if baseLsn < s.parent.inner.retentionFloor then
    (.error (.notFound s!"base lsn {baseLsn} below PITR floor {s.parent.inner.retentionFloor}"), s)
  else
    let id := s.nextBranchId
    let bref : BranchRef := ⟨id, ROOT, baseLsn, baseLsn⟩
    -- the put is conditional
    if (s.pointers.lookup id).isSome then (.error .contended, s)
    else
      (.ok id, { s with
        pointers := s.pointers.insert id bref
        nextBranchId := id + 1
        branches := s.branches.insert id bref })

/-- The pointer goes first, then the objects one by one, the map's entry last. -/
def deleteBranch (s : Sys) (branch : Nat) (fault : Option Fault) : Except StorageError Unit × Sys :=
  if (s.branches.lookup branch).isNone then (.error (.notFound s!"branch {branch}"), s)
  else if s.branches.values.any (·.parent == branch) then
    (.error (.invalid s!"branch {branch} has live children; delete them first"), s)
  else
    let unpointed := { s with pointers := s.pointers.erase branch }
    let keys := listing (s.overlays branch)
    match fault with
    | some (.pointer applied) => (.error (.transient "delete"), if applied then unpointed else s)
    | some .list => (.error (.transient "list"), unpointed)
    | some (.object gone) =>
      (.error (.transient "delete"), { unpointed with
        overlays := Function.update s.overlays branch (without (s.overlays branch) (keys.take gone)) })
    | none =>
      (.ok (), { unpointed with
        overlays := Function.update s.overlays branch (without (s.overlays branch) keys)
        branches := s.branches.erase branch })

/-- `load_branches`: the surviving pointers, and the id after the greatest of them. -/
def loadBranches (pointers : AList fun _ : Nat => BranchRef) : (AList fun _ : Nat => BranchRef) × Nat :=
  (pointers, pointers.keys.foldl (fun next id => max next (id + 1)) 1)

/-- A new handle on the bucket. -/
def reopen (s : Sys) : Sys :=
  let (branches, nextBranchId) := loadBranches s.pointers
  { s with parent := Object.withStore s.parent.bucket, branches, nextBranchId, isOpen := true }

/-- A branch as `open_branch` opens it. -/
def openBranch (s : Sys) (config : Object.Config) (id baseLsn : Nat) : BranchStorage :=
  ⟨.object config s.parent, .object config (Object.withStore (s.overlays id)), baseLsn⟩

end Sys

inductive Act where
  | createBranch (baseLsn : Nat)
  /-- A write through an overlay handle of `branch`, leaving these objects. -/
  | write (branch : Nat) (objects : Object.Bucket)
  | deleteBranch (branch : Nat) (fault : Option Fault)
  /-- The handle is dropped and a new one opened, which fails when a listing does. -/
  | reopen (fails : Bool)

def step (s : Sys) : Act → Option Sys
  | .createBranch baseLsn => if s.isOpen then some (s.createBranch baseLsn).2 else none
  | .write branch objects => some { s with overlays := Function.update s.overlays branch objects }
  | .deleteBranch branch fault => if s.isOpen then some (s.deleteBranch branch fault).2 else none
  | .reopen fails => some (if fails then { s with isOpen := false } else s.reopen)

/-- A database without branches. -/
def start (parent : Object.World) : Sys := ⟨parent, ∅, fun _ => .empty, ∅, 1, true⟩

/-- A branch just created has no object, and shows its base. -/
def NewBranchEmpty (s : Sys) : Prop :=
  ∀ baseLsn id s', s.isOpen = true → s.createBranch baseLsn = (.ok id, s') →
    s'.overlays id = .empty ∧ ∀ config, (s'.openBranch config id baseLsn).ShowsBase

/-- A reopen finds objects only under ids up to the greatest surviving pointer, and
overlay writes are to ids the open handle has given out. -/
def Guarded (s : Sys) : Act → Prop
  | .write branch _ => s.isOpen = true → branch < s.nextBranchId
  | .reopen _ => ∀ id, s.overlays id ≠ .empty → ∃ id' ∈ s.pointers.keys, id ≤ id'
  | _ => True

theorem layer_mem_listing {b : Object.Bucket} {key : LayerKey} (h : key ∈ b.layers) : .layer key ∈ listing b := by
  have hkeys : key ∈ b.layers.keys := h
  cases key with
  | delta lo hi =>
    have hmem : (⟨lo, hi⟩ : Object.DeltaMeta) ∈ b.layers.keys.filterMap LayerKey.asDelta :=
      List.mem_filterMap.2 ⟨_, hkeys, rfl⟩
    simp only [listing, List.mem_append, List.mem_map, List.mem_insertionSort]
    exact .inl (.inl (.inl (.inl ⟨_, hmem, rfl⟩)))
  | image lsn =>
    have hmem : lsn ∈ b.layers.keys.filterMap LayerKey.asImage := List.mem_filterMap.2 ⟨_, hkeys, rfl⟩
    simp only [listing, List.mem_append, List.mem_map, List.mem_insertionSort]
    exact .inl (.inl (.inl (.inr ⟨_, hmem, rfl⟩)))

/-- Deleting all that is listed empties the prefix. -/
theorem without_listing (b : Object.Bucket) : without b (listing b) = .empty := by
  have hlog : b.log.filter (fun e => Name.log e.1 ∉ listing b) = [] := by
    rw [List.filter_eq_nil_iff]
    intro e he
    have hmem : Name.log e.1 ∈ listing b := by
      simp only [listing, List.mem_append, List.mem_map]
      exact .inl (.inr ⟨e, (List.mem_insertionSort _).2 he, rfl⟩)
    simp [hmem]
  have hlayers : b.layers.filterVals (fun key _ => Name.layer key ∉ listing b) = ∅ := by
    apply AList.ext
    refine List.filter_eq_nil_iff.2 fun e he => ?_
    have hmem : e.1 ∈ b.layers := List.mem_keys_of_mem he
    simp [layer_mem_listing hmem]
  have hlease : (if Name.lease ∈ listing b then none else b.lease) = none := by
    cases hl : b.lease with
    | none => simp
    | some epoch => simp [listing, hl]
  have hretention : (if Name.retention ∈ listing b then none else b.retention) = none := by
    cases hr : b.retention with
    | none => simp
    | some floor => simp [listing, hr]
  simp only [without, hlog, hlayers, hlease, hretention]
  rfl

theorem without_empty (gone : List Name) : without .empty gone = .empty := by
  simp only [without, Object.Bucket.empty, ite_self, List.filter_nil]
  rfl

/-- Objects are only under ids below the next one. -/
def Below (s : Sys) : Prop := s.isOpen = true → ∀ id, s.overlays id ≠ .empty → id < s.nextBranchId

theorem lt_loadBranches {pointers : AList fun _ : Nat => BranchRef} {id : Nat} (h : id ∈ pointers.keys) :
    id < (Sys.loadBranches pointers).2 := by
  have hfold : ∀ (l : List Nat) (next : Nat), next ≤ l.foldl (fun next id => max next (id + 1)) next ∧
      ∀ id ∈ l, id < l.foldl (fun next id => max next (id + 1)) next := by
    intro l
    induction l with
    | nil => exact fun next => ⟨le_rfl, fun id hid => (by cases hid)⟩
    | cons first l ih =>
      intro next
      obtain ⟨hle, hlt⟩ := ih (max next (first + 1))
      refine ⟨(le_max_left _ _).trans hle, fun id hid => ?_⟩
      rcases List.mem_cons.1 hid with rfl | hid
      · exact (le_max_right next (id + 1)).trans hle
      · exact hlt id hid
  exact (hfold _ 1).2 id h

theorem Below.delete {s : Sys} {branch : Nat} {fault : Option Fault} (h : Below s) :
    Below (s.deleteBranch branch fault).2 := by
  have hupdate : ∀ gone id, Function.update s.overlays branch (without (s.overlays branch) gone) id ≠ .empty →
      s.overlays id ≠ .empty := by
    intro gone id hne hempty
    by_cases hid : id = branch
    · subst hid
      rw [Function.update_self, hempty, without_empty] at hne
      exact hne rfl
    · rw [Function.update_of_ne hid, hempty] at hne
      exact hne rfl
  unfold Sys.deleteBranch
  split_ifs with hnone hchildren
  · exact h
  · exact h
  · intro hopen id hne
    cases fault with
    | none => exact h hopen id (hupdate _ id hne)
    | some fault => cases fault with
      | pointer applied =>
        cases applied with
        | false => exact h hopen id hne
        | true => exact h hopen id hne
      | list => exact h hopen id hne
      | object gone => exact h hopen id (hupdate _ id hne)

theorem Below.step {s t : Sys} {a : Act} (h : Below s) (hguard : Guarded s a) (hstep : step s a = some t) : Below t := by
  cases a with
  | createBranch baseLsn =>
    simp only [ObjectBranches.step] at hstep
    split_ifs at hstep with hopen
    obtain rfl := Option.some.inj hstep
    simp only [Sys.createBranch]
    split_ifs
    · exact h
    · exact h
    · exact fun _ id hne => Nat.lt_succ_of_lt (h hopen id hne)
  | write branch objects =>
    obtain rfl := Option.some.inj hstep
    intro hopen id hne
    by_cases hid : id = branch
    · subst hid
      exact hguard hopen
    · exact h hopen id (by simpa [Function.update_of_ne hid] using hne)
  | deleteBranch branch fault =>
    simp only [ObjectBranches.step] at hstep
    split_ifs at hstep with hopen
    obtain rfl := Option.some.inj hstep
    exact h.delete
  | reopen fails =>
    obtain rfl := Option.some.inj hstep
    cases fails with
    | true => exact fun hopen => absurd hopen (by simp)
    | false =>
      intro _ id hne
      obtain ⟨id', hmem, hle⟩ := hguard id hne
      exact hle.trans_lt (lt_loadBranches hmem)

theorem Below.newBranchEmpty {s : Sys} (h : Below s) : NewBranchEmpty s := by
  intro baseLsn id s' hopen hcreate
  simp only [Sys.createBranch] at hcreate
  split_ifs at hcreate with hfloor htaken
  · cases hcreate
  · cases hcreate
  · obtain ⟨hid, rfl⟩ := Prod.mk.inj hcreate
    obtain rfl := Except.ok.inj hid
    have hempty : s.overlays s.nextBranchId = .empty := by
      by_contra hne
      exact Nat.lt_irrefl _ (h hopen _ hne)
    refine ⟨hempty, fun config => BranchStorage.showsBase_of_empty ?_⟩
    show Object.ShowsLine (Object.withStore (s.overlays s.nextBranchId)) .empty
    rw [hempty]
    exact .withStore

end ObjectBranches

/-! ## The file -/

namespace LocalBranches

structure Sys where
  handle : LocalFile.Handle
  /-- The sibling files `.branch-<id>`. -/
  files : Nat → Option Bytes

/-- `LocalFileStorage::open`: a new or empty file gets its header, another is recovered
and cut behind its last good frame. -/
def openFile : Option Bytes → Except StorageError LocalFile.Handle
  | none => .ok .create
  | some file =>
    if file.length = 0 then .ok .create
    else do
      let g ← LocalFile.recover file
      return ⟨file.take g.fileEnd, g⟩

namespace Sys

def createBranch (s : Sys) (baseLsn : UInt64) : Except StorageError Nat × Sys :=
  let (res, handle) := runOn (LocalFile.createBranch none baseLsn) s.handle
  (res, { s with handle })

/-- The tombstone is logged, then the file is removed; that it could not be is ignored. -/
def deleteBranch (s : Sys) (branch : UInt64) (removed : Bool) : Except StorageError Unit × Sys :=
  let (res, handle) := runOn (LocalFile.deleteBranch none branch) s.handle
  match res with
  | .error e => (.error e, { s with handle })
  | .ok () => (.ok (), ⟨handle, if removed then Function.update s.files branch.toNat none else s.files⟩)

def reopen (s : Sys) : Option Sys :=
  match openFile (some s.handle.file) with
  | .ok handle => some { s with handle }
  | .error _ => none

end Sys

inductive Act where
  | createBranch (baseLsn : UInt64)
  /-- A write through the overlay of `branch`, leaving this file. -/
  | write (branch : Nat) (file : Bytes)
  | deleteBranch (branch : UInt64) (removed : Bool)
  | reopen

/-- `open_branch` resolves the branch first; a handle it gave out may outlive the branch,
but without the file there is nothing left to write to. -/
def step (s : Sys) : Act → Option Sys
  | .createBranch baseLsn => some (s.createBranch baseLsn).2
  | .write branch file =>
    if (s.handle.inner.branches.lookup branch).isSome ∨ (s.files branch).isSome then
      some { s with files := Function.update s.files branch (some file) }
    else none
  | .deleteBranch branch removed => some (s.deleteBranch branch removed).2
  | .reopen => s.reopen

/-- A database without branch files. -/
def start (handle : LocalFile.Handle) : Sys := ⟨handle, fun _ => none⟩

/-- A branch just created has no file, and shows its base. -/
def NewBranchEmpty (s : Sys) : Prop :=
  ∀ baseLsn id s', s.createBranch baseLsn = (.ok id, s') →
    s'.files id = none ∧ ∃ overlay, openFile (s'.files id) = .ok overlay ∧
      (BranchStorage.mk (.file s'.handle) (.file overlay) baseLsn.toNat).ShowsBase

/-- The log holds, and both the branches and the files have ids below the next. -/
structure Below (s : Sys) : Prop where
  shows : ∃ l, LocalFile.ShowsLine s.handle l
  branches : ∀ id, (s.handle.inner.branches.lookup id).isSome → id < s.handle.inner.nextBranchId
  files : ∀ id, (s.files id).isSome → id < s.handle.inner.nextBranchId

/-- No operation takes back an id. -/
theorem applied_below {g : LocalFile.Inner} (h : ∀ id, (g.branches.lookup id).isSome → id < g.nextBranchId)
    (op : LocalFile.Op) (size : Nat) :
    g.nextBranchId ≤ (op.applied g size).nextBranchId ∧
      ∀ id, ((op.applied g size).branches.lookup id).isSome → id < (op.applied g size).nextBranchId := by
  cases op with
  | createBranch baseLsn =>
    refine ⟨Nat.le_succ _, fun id hid => ?_⟩
    simp only [LocalFile.Op.applied, AList.lookup_isSome, AList.mem_insert] at hid ⊢
    rcases hid with rfl | hid
    · exact Nat.lt_succ_self _
    · exact Nat.lt_succ_of_lt (h id (AList.lookup_isSome.2 hid))
  | deleteBranch branch =>
    refine ⟨le_rfl, fun id hid => h id ?_⟩
    simp only [LocalFile.Op.applied, AList.lookup_isSome, AList.mem_erase] at hid
    exact AList.lookup_isSome.2 hid.2
  | appendWal token records => exact ⟨le_rfl, h⟩
  | putPage token pageId image => exact ⟨le_rfl, h⟩
  | acquireFence owner => exact ⟨le_rfl, h⟩
  | setRetentionFloor lsn => exact ⟨le_rfl, h⟩

/-- An operation keeps the ids below the next, and no file is above it. -/
theorem Below.exec {s : Sys} {op : LocalFile.Op} (h : Below s)
    (hshort : ∀ tag payload, op.frame s.handle.inner = .ok (tag, payload) → payload.length < 2 ^ 32 - 1) :
    Below { s with handle := (s.handle.exec none op).2 } := by
  obtain ⟨l, hshows⟩ := h.shows
  obtain ⟨frames, hlogged, -⟩ := hshows.logged
  have hshown := hshows.exec hshort
  rcases hlogged.exec_applied hshort with ⟨e, hexec⟩ | ⟨tag, payload, h', size, hexec, -, hinner, -⟩
  · rw [hexec]
    exact h
  · obtain ⟨hle, hbranches⟩ := applied_below h.branches op size
    rw [hexec] at hshown ⊢
    refine ⟨hshown, ?_, fun id hid => ?_⟩
    · dsimp only
      rw [hinner]
      exact hbranches
    · dsimp only
      rw [hinner]
      exact (h.files id hid).trans_le hle

theorem Below.live {ops : List LocalFile.Op}
    (hshort : LocalFile.Handle.create.shortFrames (LocalFile.allOk ops) = true) : Below (start (LocalFile.live ops)) := by
  have hrun : ∀ (ops : List LocalFile.Op) (h : LocalFile.Handle), Below (start h) →
      h.shortFrames (LocalFile.allOk ops) = true → Below (start (h.runAll (LocalFile.allOk ops))) := by
    intro ops
    induction ops with
    | nil => exact fun h hbelow _ => hbelow
    | cons op ops ih =>
      intro h hbelow hshort
      obtain ⟨hframe, hrest⟩ := LocalFile.shortFrames_cons hshort
      exact ih _ (hbelow.exec (s := start h) hframe) hrest
  refine hrun ops .create ⟨⟨.empty, .create⟩, fun id hid => ?_, fun id hid => ?_⟩ hshort
  · cases hid
  · cases hid

theorem exec_createBranch (h : LocalFile.Handle) (baseLsn : UInt64) :
    h.exec none (.createBranch baseLsn) = ((runOn (LocalFile.createBranch none baseLsn) h).1.map LocalFile.Ack.branch,
      (runOn (LocalFile.createBranch none baseLsn) h).2) :=
  StateExcept.run_bind_pure ..

theorem exec_deleteBranch (h : LocalFile.Handle) (branch : UInt64) :
    h.exec none (.deleteBranch branch) = ((runOn (LocalFile.deleteBranch none branch) h).1.map fun _ => LocalFile.Ack.unit,
      (runOn (LocalFile.deleteBranch none branch) h).2) :=
  StateExcept.run_bind_pure ..

theorem short_createBranch {g : LocalFile.Inner} {baseLsn : UInt64} {tag : UInt8} {payload : Bytes}
    (hframe : (LocalFile.Op.createBranch baseLsn).frame g = .ok (tag, payload)) : payload.length < 2 ^ 32 - 1 := by
  simp only [LocalFile.Op.frame] at hframe
  split_ifs at hframe
  obtain ⟨-, rfl⟩ := Prod.mk.inj (Except.ok.inj hframe)
  simp only [List.length_append, Framing.length_toLE]
  omega

theorem short_deleteBranch {g : LocalFile.Inner} {branch : UInt64} {tag : UInt8} {payload : Bytes}
    (hframe : (LocalFile.Op.deleteBranch branch).frame g = .ok (tag, payload)) : payload.length < 2 ^ 32 - 1 := by
  simp only [LocalFile.Op.frame] at hframe
  split_ifs at hframe
  obtain ⟨-, rfl⟩ := Prod.mk.inj (Except.ok.inj hframe)
  simp only [Framing.length_toLE]
  omega

/-- A recovered handle is the handle that wrote the file. -/
theorem Below.openFile {s : Sys} (h : Below s) : openFile (some s.handle.file) = .ok s.handle := by
  obtain ⟨l, hshows⟩ := h.shows
  obtain ⟨frames, hlogged, -⟩ := hshows.logged
  have hstop : LocalFile.readFrame s.handle.inner.nextLsn [] = .stop s.handle.inner.nextLsn := by
    simp [LocalFile.readFrame]
  have hrecover := hlogged.recover_append hstop
  rw [List.append_nil] at hrecover
  have hpos : s.handle.file.length ≠ 0 := by
    obtain ⟨chunks, hfile, -⟩ := hlogged.chunks
    rw [hfile, List.length_append, LocalFile.length_header]
    simp [LocalFile.HEADER_SIZE]
  simp only [LocalBranches.openFile, if_neg hpos, hrecover]
  show Except.ok _ = _
  rw [hlogged.fileEnd, List.take_length]

theorem Below.step {s t : Sys} {a : Act} (h : Below s) (hstep : step s a = some t) : Below t := by
  cases a with
  | createBranch baseLsn =>
    obtain rfl := Option.some.inj hstep
    have hexec := @Below.exec s (.createBranch baseLsn) h fun _ _ => short_createBranch
    rwa [exec_createBranch] at hexec
  | write branch file =>
    simp only [LocalBranches.step] at hstep
    split_ifs at hstep with hlive
    obtain rfl := Option.some.inj hstep
    refine ⟨h.shows, h.branches, fun id hid => ?_⟩
    by_cases heq : id = branch
    · subst heq
      exact hlive.elim (h.branches id) (h.files id)
    · exact h.files id (by simpa [Function.update_of_ne heq] using hid)
  | deleteBranch branch removed =>
    obtain rfl := Option.some.inj hstep
    have hexec := @Below.exec s (.deleteBranch branch) h fun _ _ => short_deleteBranch
    rw [exec_deleteBranch] at hexec
    unfold Sys.deleteBranch
    cases hrun : runOn (LocalFile.deleteBranch none branch) s.handle with
    | mk res handle =>
      rw [hrun] at hexec
      cases res with
      | error e => exact hexec
      | ok u =>
        cases removed with
        | false => exact hexec
        | true =>
          refine ⟨hexec.shows, hexec.branches, fun id hid => ?_⟩
          by_cases heq : id = branch.toNat
          · subst heq
            simp at hid
          · exact hexec.files id (by simpa [Function.update_of_ne heq] using hid)
  | reopen =>
    simp only [LocalBranches.step, Sys.reopen, h.openFile] at hstep
    obtain rfl := Option.some.inj hstep
    exact h

theorem Below.newBranchEmpty {s : Sys} (h : Below s) : NewBranchEmpty s := by
  intro baseLsn id s' hcreate
  obtain ⟨l, hshows⟩ := h.shows
  obtain ⟨frames, hlogged, -⟩ := hshows.logged
  cases hrun : runOn (LocalFile.createBranch none baseLsn) s.handle with
  | mk res handle =>
    simp only [Sys.createBranch, hrun] at hcreate
    obtain ⟨rfl, rfl⟩ := Prod.mk.inj hcreate
    have hid : id = s.handle.inner.nextBranchId := by
      rcases @LocalFile.Logged.exec_applied s.handle frames (.createBranch baseLsn) hlogged fun _ _ => short_createBranch with
        ⟨e, hexec⟩ | ⟨tag, payload, h', size, hexec, -⟩
      · rw [exec_createBranch, hrun] at hexec
        cases hexec
      · rw [exec_createBranch, hrun] at hexec
        exact LocalFile.Ack.branch.inj (Except.ok.inj (Prod.mk.inj hexec).1)
    have hnone : s.files id = none := by
      cases hfile : s.files id with
      | none => rfl
      | some file =>
        have := h.files id (by rw [hfile]; rfl)
        omega
    refine ⟨hnone, .create, ?_, BranchStorage.showsBase_of_empty LocalFile.ShowsLine.create⟩
    show LocalBranches.openFile (s.files id) = _
    rw [hnone]
    rfl

end LocalBranches

/-- **A new branch starts empty.** On an object store, in every run whose overlay writes
are to ids the open handle has given out and whose reopens find objects only under ids
up to the greatest surviving pointer; on a file, in every run. -/
theorem newBranch_empty (parent : Object.World) (s : ObjectBranches.Sys) (ops : List LocalFile.Op)
    (t : LocalBranches.Sys) :
    (RunWhere ObjectBranches.step ObjectBranches.Guarded (ObjectBranches.start parent) s →
      ObjectBranches.NewBranchEmpty s) ∧
    (LocalFile.Handle.create.shortFrames (LocalFile.allOk ops) = true →
      Reach LocalBranches.step (LocalBranches.start (LocalFile.live ops)) t → LocalBranches.NewBranchEmpty t) := by
  refine ⟨fun hrun => ?_, fun hshort hreach => ?_⟩
  · refine (hrun.invariant (I := ObjectBranches.Below) (fun _ id hne => absurd rfl hne) ?_).newBranchEmpty
    exact fun t u a h hguard hstep => h.step hguard hstep
  · refine (hreach.invariant (I := LocalBranches.Below) (.live hshort) ?_).newBranchEmpty
    exact fun t u a h _ hstep => h.step hstep

/-- What the first commit through a branch's overlay leaves under its prefix. -/
def committed : Object.Bucket :=
  let fenced := (runOn (Object.acquireFence 8) (Object.withStore .empty)).2
  (runOn (Object.appendWal ⟨100, 8⟩ ⟨1, 8⟩ [[7]]) fenced).2.bucket

theorem newBranch_empty_beside : (∃ s, ObjectBranches.NewBranchEmpty s ∧ s.overlays 1 = committed ∧
      (s.createBranch 0).1 = .ok 2) ∧
    ∃ s, LocalBranches.NewBranchEmpty s ∧ s.files 1 = some [1] ∧ (s.createBranch 0).1 = .ok 2 := by
  constructor
  · have hrun : RunWhere ObjectBranches.step ObjectBranches.Guarded
        (ObjectBranches.start (Object.withStore .empty)) _ := RunWhere.nil.plays
      [.createBranch 0, .write 1 committed, .reopen false]
      ⟨trivial, _, rfl, fun _ => Nat.lt_succ_self 1, _, rfl, fun id hne => ?_, _, rfl, rfl⟩
    · exact ⟨_, (newBranch_empty _ _ [] (LocalBranches.start (LocalFile.live []))).1 hrun, rfl, rfl⟩
    · by_cases hid : id = 1
      · exact ⟨1, List.mem_cons_self, hid.le⟩
      · refine absurd ?_ hne
        show Function.update (fun _ => Object.Bucket.empty) 1 committed id = .empty
        rw [Function.update_of_ne hid]
  · have hrun : Reach LocalBranches.step (LocalBranches.start (LocalFile.live [])) _ := RunWhere.nil.plays
      [.createBranch 0, .write 1 [1], .deleteBranch 1 false]
      ⟨trivial, _, rfl, trivial, _, rfl, trivial, _, rfl, rfl⟩
    exact ⟨_, (newBranch_empty (Object.withStore .empty) (ObjectBranches.start (Object.withStore .empty)) [] _).2 rfl hrun,
      rfl, rfl⟩

/-- A delete that fails once the pointer is gone, a reopen, and the id is given out again
with the old branch's commit under it. -/
theorem newBranch_keeps_old : ∃ s, Reach ObjectBranches.step (ObjectBranches.start (Object.withStore .empty)) s ∧
    (s.createBranch 0).1 = .ok 1 ∧ Object.scanWal (s.overlays 1) 0 = [⟨1, [7]⟩] ∧ ¬ ObjectBranches.NewBranchEmpty s := by
  have hrun : Reach ObjectBranches.step (ObjectBranches.start (Object.withStore .empty)) _ := RunWhere.nil.plays
    [.createBranch 0, .write 1 committed, .deleteBranch 1 (some (.object 0)), .reopen false]
    ⟨trivial, _, rfl, trivial, _, rfl, trivial, _, rfl, trivial, _, rfl, rfl⟩
  refine ⟨_, hrun, rfl, by decide, fun hempty => ?_⟩
  obtain ⟨hnone, -⟩ := hempty 0 1 _ rfl rfl
  have := congrArg Object.Bucket.log hnone
  revert this
  decide

end Twill.Storage
