/-
Branches of a branch: what a `BranchStorage` says of the branches created through it.

Its branch calls go to the overlay, with fork LSNs and floors shifted on the way in. The floor is
shifted back on the way out; a branch's record is not, and it names the overlay's root as parent.
The base keeps its own records and looks only there for children, so it deletes a branch whether
or not branches were forked from it.
-/
import Twill.Storage.BranchIds

namespace Twill.Storage

open StateExcept (runOn)
open Transition (Reach)

/-! ## Backends with their branches -/

/-- A backend with the branches it keeps. -/
inductive Node where
  | file (s : LocalBranches.Sys)
  | object (config : Object.Config) (s : ObjectBranches.Sys)

namespace Node

def backend : Node → Backend
  | .file s => .file s.handle
  | .object config s => .object config s.parent

def branches : Node → AList fun _ : Nat => BranchRef
  | .file s => s.handle.inner.branches
  | .object _ s => s.branches

def nextBranchId : Node → Nat
  | .file s => s.handle.inner.nextBranchId
  | .object _ s => s.nextBranchId

/-- A call that has nothing to do with branches. -/
def call {α : Type} (n : Node) (file : LocalFile.LocalM α) (object : Object.Config → Object.ObjM α) :
    Except StorageError α × Node :=
  match n with
  | .file s =>
    let (res, handle) := runOn file s.handle
    (res, .file { s with handle })
  | .object config s =>
    let (res, parent) := runOn (object config) s.parent
    (res, .object config { s with parent })

def acquireFence (n : Node) (owner : Nat) : Except StorageError FenceToken × Node :=
  n.call (LocalFile.acquireFence none owner) fun _ => Object.acquireFence owner

def appendWal (n : Node) (token : FenceToken) (records : List WalRecord) : Except StorageError Nat × Node :=
  n.call (LocalFile.appendWal none token records) fun config => Object.appendWal config token records

def putPage (n : Node) (token : FenceToken) (pageId : UInt64) (image : Bytes) : Except StorageError Nat × Node :=
  n.call (LocalFile.putPage none token pageId image) fun config => Object.putPage config token pageId.toNat image

def setRetentionFloor (n : Node) (lsn : UInt64) : Except StorageError Unit × Node :=
  n.call (LocalFile.setRetentionFloor none lsn) fun _ => Object.setRetentionFloor lsn.toNat

def createBranch (n : Node) (baseLsn : UInt64) : Except StorageError Nat × Node :=
  match n with
  | .file s =>
    let (res, s) := s.createBranch baseLsn
    (res, .file s)
  | .object config s =>
    let (res, s) := s.createBranch baseLsn.toNat
    (res, .object config s)

def resolveBranch (n : Node) (branch : Nat) : Except StorageError BranchRef :=
  match n.branches.lookup branch with
  | some r => .ok r
  | none => .error (.notFound s!"branch {branch}")

/-- In ascending id order. -/
def listBranches (n : Node) : List BranchRef := n.branches.values.insertionSort fun x y => x.id ≤ y.id

def deleteBranch (n : Node) (branch : UInt64) : Except StorageError Unit × Node :=
  match n with
  | .file s =>
    let (res, s) := s.deleteBranch branch true
    (res, .file s)
  | .object config s =>
    let (res, s) := s.deleteBranch branch.toNat none
    (res, .object config s)

def durableLsn (n : Node) : Nat := n.backend.durableLsn

def pitrFloor (n : Node) : Nat := n.backend.pitrFloor

/-- A new file, or an empty prefix of a bucket. -/
def IsNew (n : Node) : Prop :=
  n = .file (LocalBranches.start .create) ∨ ∃ config, n = .object config (ObjectBranches.start (Object.withStore .empty))

inductive Act where
  | acquireFence (owner : Nat)
  | appendWal (token : FenceToken) (records : List WalRecord)
  | putPage (token : FenceToken) (pageId : UInt64) (image : Bytes)
  | setRetentionFloor (lsn : UInt64)
  | createBranch (baseLsn : UInt64)
  | deleteBranch (branch : UInt64)

def act (n : Node) : Act → Node
  | .acquireFence owner => (n.acquireFence owner).2
  | .appendWal token records => (n.appendWal token records).2
  | .putPage token pageId image => (n.putPage token pageId image).2
  | .setRetentionFloor lsn => (n.setRetentionFloor lsn).2
  | .createBranch baseLsn => (n.createBranch baseLsn).2
  | .deleteBranch branch => (n.deleteBranch branch).2

def step (n : Node) (a : Act) : Option Node := some (n.act a)

end Node

/-! ## A branch of a base -/

/-- A base, and one of its branches with its overlay. -/
structure Fork where
  base : Node
  overlay : Node
  id : UInt64
  baseLsn : Nat

namespace Fork

/-- Overlay-local LSN to branch-global LSN. -/
def toGlobal (s : Fork) (lsn : Nat) : Nat := s.baseLsn + lsn

/-- Branch-global LSN to overlay-local LSN, clamped at the fork point. -/
def toLocal (s : Fork) (lsn : UInt64) : UInt64 := UInt64.ofNat (lsn.toNat - s.baseLsn)

def createBranch (s : Fork) (baseLsn : UInt64) : Except StorageError Nat × Fork :=
  let (res, overlay) := s.overlay.createBranch (s.toLocal baseLsn)
  (res, { s with overlay })

def resolveBranch (s : Fork) (branch : Nat) : Except StorageError BranchRef := s.overlay.resolveBranch branch

def listBranches (s : Fork) : List BranchRef := s.overlay.listBranches

def deleteBranch (s : Fork) (branch : UInt64) : Except StorageError Unit × Fork :=
  let (res, overlay) := s.overlay.deleteBranch branch
  (res, { s with overlay })

def setRetentionFloor (s : Fork) (lsn : UInt64) : Except StorageError Unit × Fork :=
  let (res, overlay) := s.overlay.setRetentionFloor (s.toLocal lsn)
  (res, { s with overlay })

def pitrFloor (s : Fork) : Nat := s.toGlobal s.overlay.pitrFloor

def durableLsn (s : Fork) : Nat := s.toGlobal s.overlay.durableLsn

inductive Act where
  /-- A call on the base itself. -/
  | base (a : Node.Act)
  | acquireFence (owner : Nat)
  | appendWal (token : FenceToken) (records : List WalRecord)
  | putPage (token : FenceToken) (pageId : UInt64) (image : Bytes)
  | setRetentionFloor (lsn : UInt64)
  | createBranch (baseLsn : UInt64)
  | deleteBranch (branch : UInt64)

/-- The branch stays: the base is not asked to delete it. -/
def step (s : Fork) : Act → Option Fork
  | .base (.deleteBranch branch) =>
    if branch = s.id then none else some { s with base := s.base.act (.deleteBranch branch) }
  | .base a => some { s with base := s.base.act a }
  | .acquireFence owner => some { s with overlay := (s.overlay.acquireFence owner).2 }
  | .appendWal token records => some { s with overlay := (s.overlay.appendWal token records).2 }
  | .putPage token pageId image => some { s with overlay := (s.overlay.putPage token pageId image).2 }
  | .setRetentionFloor lsn => some (s.setRetentionFloor lsn).2
  | .createBranch baseLsn => some (s.createBranch baseLsn).2
  | .deleteBranch branch => some (s.deleteBranch branch).2

/-- A branch just forked off a base that was used from new on, with a new overlay. -/
structure IsFresh (s : Fork) : Prop where
  base : ∃ new before fork, Node.IsNew new ∧ Reach Node.step new before ∧ before.createBranch fork = (.ok s.id.toNat, s.base) ∧
    s.baseLsn = fork.toNat
  overlay : s.overlay.IsNew

/-! ## Bookkeeping -/

/-- A branch created through the branch is found with what holds of its record. -/
def Records (s : Fork) (P : UInt64 → BranchRef → Prop) : Prop :=
  ∀ (lsn : UInt64) (branch : Nat) (s' : Fork), s.baseLsn ≤ lsn.toNat → lsn.toNat ≤ s.durableLsn →
    s.createBranch lsn = (.ok branch, s') → ∃ r, s'.resolveBranch branch = .ok r ∧ r ∈ s'.listBranches ∧ P lsn r

/-- What the branch says of branches and floors is in its own LSNs and of itself. -/
structure Keeps (s : Fork) : Prop where
  forkLsn : s.Records fun lsn r => r.baseLsn = lsn.toNat
  parent : s.Records fun _ r => r.parent = s.id.toNat
  floor : ∀ (lsn : UInt64) (s' : Fork), s.baseLsn ≤ lsn.toNat → s.setRetentionFloor lsn = (.ok (), s') →
    s'.pitrFloor = lsn.toNat
  deleted : s.listBranches ≠ [] → ∃ message, (s.base.deleteBranch s.id).1 = .error (.invalid message)

/-- No branch can be created: every fork LSN up to the end lies below the overlay's floor, or the
overlay's file has no room for the record. -/
def Barren (s : Fork) : Prop :=
  (∀ lsn : UInt64, s.baseLsn ≤ lsn.toNat → lsn.toNat ≤ s.durableLsn → (s.toLocal lsn).toNat < s.overlay.pitrFloor) ∨
    match s.overlay with
    | .file f => LocalFile.MAX_OFFSET < f.handle.inner.fileEnd + 33
    | .object .. => False

end Fork

/-! ## What a call does to the records -/

namespace LocalFile

/-- The counters after an operation: as before, or with the operation applied. -/
theorem Handle.exec_inner (h : Handle) (op : Op) :
    (h.exec none op).2.inner = h.inner ∨ ∃ size, (h.exec none op).2.inner = op.applied h.inner size := by
  rw [Handle.exec_eq, Handle.step]
  split
  · exact .inl rfl
  · dsimp only
    split_ifs
    · exact .inl rfl
    · exact .inr ⟨_, rfl⟩

end LocalFile

namespace Node

/-- The call of the file's handle that a call is. -/
def Act.op : Act → LocalFile.Op
  | .acquireFence owner => .acquireFence owner
  | .appendWal token records => .appendWal token records
  | .putPage token pageId image => .putPage token pageId image
  | .setRetentionFloor lsn => .setRetentionFloor lsn
  | .createBranch baseLsn => .createBranch baseLsn
  | .deleteBranch branch => .deleteBranch branch

theorem act_file (s : LocalBranches.Sys) (a : Act) :
    ∃ files, (Node.file s).act a = .file ⟨(s.handle.exec none a.op).2, files⟩ := by
  cases a with
  | acquireFence owner => exact ⟨s.files, by rw [Act.op, LocalFile.exec_acquireFence]; rfl⟩
  | appendWal token records => exact ⟨s.files, by rw [Act.op, LocalFile.exec_appendWal]; rfl⟩
  | putPage token pageId image => exact ⟨s.files, by rw [Act.op, LocalFile.exec_putPage]; rfl⟩
  | setRetentionFloor lsn => exact ⟨s.files, by rw [Act.op, LocalFile.exec_setRetentionFloor]; rfl⟩
  | createBranch baseLsn => exact ⟨s.files, by rw [Act.op, LocalBranches.exec_createBranch]; rfl⟩
  | deleteBranch branch =>
    rw [Act.op, LocalBranches.exec_deleteBranch, act, Node.deleteBranch, LocalBranches.Sys.deleteBranch]
    rcases runOn (LocalFile.deleteBranch none branch) s.handle with ⟨e | u, handle⟩
    · exact ⟨s.files, rfl⟩
    · exact ⟨_, rfl⟩

/-- A call leaves the records as they are, adds one under the next id, or drops one. -/
theorem act_branches (n : Node) (a : Act) :
    ((n.act a).branches = n.branches ∧ (n.act a).nextBranchId = n.nextBranchId) ∨
    (∃ lsn : UInt64, (n.act a).branches = n.branches.insert n.nextBranchId ⟨n.nextBranchId, ROOT, lsn.toNat, lsn.toNat⟩ ∧
      (n.act a).nextBranchId = n.nextBranchId + 1) ∨
    ∃ branch, a = .deleteBranch branch ∧ (n.act a).branches = n.branches.erase branch.toNat ∧
      (n.act a).nextBranchId = n.nextBranchId := by
  cases n with
  | file s =>
    obtain ⟨files, hact⟩ := act_file s a
    rw [hact]
    rcases s.handle.exec_inner a.op with hsame | ⟨size, happlied⟩
    · exact .inl ⟨congrArg LocalFile.Inner.branches hsame, congrArg LocalFile.Inner.nextBranchId hsame⟩
    · have hbranches := congrArg LocalFile.Inner.branches happlied
      have hnext := congrArg LocalFile.Inner.nextBranchId happlied
      cases a with
      | createBranch baseLsn => exact .inr (.inl ⟨baseLsn, hbranches, hnext⟩)
      | deleteBranch branch => exact .inr (.inr ⟨branch, rfl, hbranches, hnext⟩)
      | _ => exact .inl ⟨hbranches, hnext⟩
  | object config s =>
    cases a with
    | createBranch baseLsn =>
      simp only [act, Node.createBranch, ObjectBranches.Sys.createBranch]
      split_ifs
      · exact .inl ⟨rfl, rfl⟩
      · exact .inl ⟨rfl, rfl⟩
      · exact .inr (.inl ⟨baseLsn, rfl, rfl⟩)
    | deleteBranch branch =>
      simp only [act, Node.deleteBranch, ObjectBranches.Sys.deleteBranch]
      split_ifs
      · exact .inl ⟨rfl, rfl⟩
      · exact .inl ⟨rfl, rfl⟩
      · exact .inr (.inr ⟨branch, rfl, rfl, rfl⟩)
    | _ => exact .inl ⟨rfl, rfl⟩

/-- Every record has the root as parent and an id already given out. -/
structure Ok (n : Node) : Prop where
  next : 1 ≤ n.nextBranchId
  roots : ∀ id r, n.branches.lookup id = some r → r.parent = ROOT
  free : ∀ config s, n = .object config s → ∀ id, (s.pointers.lookup id).isSome → id < s.nextBranchId

theorem IsNew.ok {n : Node} (h : n.IsNew) : n.Ok := by
  rcases h with rfl | ⟨config, rfl⟩
  · exact ⟨le_rfl, fun id r hr => absurd hr nofun, fun config s hs => absurd hs nofun⟩
  · refine ⟨le_rfl, fun id r hr => absurd hr nofun, fun config s hs id hid => ?_⟩
    obtain ⟨rfl, rfl⟩ := Node.object.inj hs
    exact absurd hid nofun

theorem lookup_act {n : Node} {a : Act} {id : Nat} (h : (n.branches.lookup id).isSome)
    (hkept : ∀ branch : UInt64, a = .deleteBranch branch → branch.toNat ≠ id) : ((n.act a).branches.lookup id).isSome := by
  rcases n.act_branches a with ⟨hsame, -⟩ | ⟨lsn, hinsert, -⟩ | ⟨branch, rfl, herase, -⟩
  · rwa [hsame]
  · rw [hinsert]
    by_cases hid : id = n.nextBranchId
    · rw [hid, AList.lookup_insert]
      rfl
    · rwa [AList.lookup_insert_ne hid]
  · rwa [herase, AList.lookup_erase_ne (hkept branch rfl).symm]

/-- An object node's pointers keep below the next id. -/
theorem free_act {config : Object.Config} {s : ObjectBranches.Sys} (h : ∀ id, (s.pointers.lookup id).isSome → id < s.nextBranchId)
    (a : Act) : ∃ s', (Node.object config s).act a = .object config s' ∧ ∀ id, (s'.pointers.lookup id).isSome → id < s'.nextBranchId := by
  cases a with
  | createBranch baseLsn =>
    simp only [act, Node.createBranch, ObjectBranches.Sys.createBranch]
    split_ifs
    · exact ⟨s, rfl, h⟩
    · exact ⟨s, rfl, h⟩
    · refine ⟨_, rfl, fun id hid => ?_⟩
      by_cases hnext : id = s.nextBranchId
      · exact hnext ▸ Nat.lt_succ_self _
      · rw [AList.lookup_insert_ne hnext] at hid
        exact Nat.lt_succ_of_lt (h id hid)
  | deleteBranch branch =>
    simp only [act, Node.deleteBranch, ObjectBranches.Sys.deleteBranch]
    split_ifs
    · exact ⟨s, rfl, h⟩
    · exact ⟨s, rfl, h⟩
    · refine ⟨_, rfl, fun id hid => ?_⟩
      by_cases hgone : id = branch.toNat
      · rw [hgone] at hid
        simp at hid
      · rw [AList.lookup_erase_ne hgone] at hid
        exact h id hid
  | _ => exact ⟨_, rfl, h⟩

theorem Ok.act {n : Node} (h : n.Ok) (a : Act) : (n.act a).Ok := by
  refine ⟨?_, fun id r hr => ?_, fun config s hs => ?_⟩
  · have := h.next
    rcases n.act_branches a with ⟨-, hnext⟩ | ⟨lsn, -, hnext⟩ | ⟨branch, -, -, hnext⟩ <;> omega
  · rcases n.act_branches a with ⟨hsame, -⟩ | ⟨lsn, hinsert, -⟩ | ⟨branch, -, herase, -⟩
    · rw [hsame] at hr
      exact h.roots id r hr
    · rw [hinsert] at hr
      by_cases hid : id = n.nextBranchId
      · rw [hid, AList.lookup_insert] at hr
        rw [← Option.some.inj hr]
      · rw [AList.lookup_insert_ne hid] at hr
        exact h.roots id r hr
    · rw [herase] at hr
      by_cases hid : id = branch.toNat
      · rw [hid] at hr
        simp at hr
      · rw [AList.lookup_erase_ne hid] at hr
        exact h.roots id r hr
  · cases n with
    | file f =>
      obtain ⟨files, hact⟩ := act_file f a
      rw [hact] at hs
      exact absurd hs nofun
    | object config' s' =>
      obtain ⟨s'', hact, hfree⟩ := free_act (h.free config' s' rfl) a
      rw [hact] at hs
      obtain ⟨-, rfl⟩ := Node.object.inj hs
      exact hfree

theorem Ok.reach {n m : Node} (h : n.Ok) (hreach : Reach step n m) : m.Ok :=
  hreach.invariant h fun t u a ht _ hstep => by
    obtain rfl := Option.some.inj hstep
    exact ht.act a

/-- The file's log has room for a branch's record. -/
def HasRoom : Node → Prop
  | .file s => s.handle.inner.fileEnd + 33 ≤ LocalFile.MAX_OFFSET
  | .object .. => True

/-- A branch is created exactly from the floor on, with the root as its parent. -/
theorem createBranch_spec {n : Node} (h : n.Ok) (lsn : UInt64) :
    (n.pitrFloor ≤ lsn.toNat ∧ n.HasRoom ∧ ∃ n', n.createBranch lsn = (.ok n.nextBranchId, n') ∧
      n'.branches = n.branches.insert n.nextBranchId ⟨n.nextBranchId, ROOT, lsn.toNat, lsn.toNat⟩) ∨
    (¬ (n.pitrFloor ≤ lsn.toNat ∧ n.HasRoom) ∧ ∃ e n', n.createBranch lsn = (.error e, n')) := by
  cases n with
  | file s =>
    have hexec := LocalBranches.exec_createBranch s.handle lsn
    rw [LocalFile.Handle.exec_eq, LocalFile.Handle.step, LocalFile.Op.frame] at hexec
    obtain ⟨res, h', hrun⟩ : ∃ res h', runOn (LocalFile.createBranch none lsn) s.handle = (res, h') := ⟨_, _, rfl⟩
    rw [hrun] at hexec
    have hcreate : (Node.file s).createBranch lsn = (res, .file { s with handle := h' }) := by
      rw [createBranch, LocalBranches.Sys.createBranch, hrun]
    by_cases hfloor : lsn.toNat < s.handle.inner.retentionFloor
    · right
      rw [if_pos hfloor] at hexec
      obtain ⟨rfl, -⟩ := Prod.mk.inj (show (res, h') = (.error _, s.handle) from (LocalFile.eq_of_map hexec.symm).1 _ rfl)
      exact ⟨fun hok => absurd hok.1 (Nat.not_le.mpr hfloor), _, _, hcreate⟩
    · rw [if_neg hfloor] at hexec
      dsimp only at hexec
      have hsize : (LocalFile.frameBytes LocalFile.T_BRANCH (Framing.toLE 8 s.handle.inner.nextBranchId ++
          Framing.toLE 8 lsn.toNat ++ Framing.toLE 8 ROOT)).length = 33 := by
        simp only [LocalFile.length_frameBytes, List.length_append, Framing.length_toLE]
      rw [hsize] at hexec
      by_cases hroom : LocalFile.MAX_OFFSET < s.handle.inner.fileEnd + 33
      · right
        rw [if_pos hroom] at hexec
        obtain ⟨rfl, -⟩ := Prod.mk.inj ((LocalFile.eq_of_map hexec.symm).1 _ rfl)
        exact ⟨fun hok => absurd hok.2 (Nat.not_le.mpr hroom), _, _, hcreate⟩
      · left
        rw [if_neg hroom] at hexec
        have hmap : ((res, h').1.map LocalFile.Ack.branch, (res, h').2) = _ := hexec.symm
        obtain ⟨id, hid, hack⟩ := (LocalFile.eq_of_map hmap).2 _ rfl
        obtain rfl : id = s.handle.inner.nextBranchId := LocalFile.Ack.branch.inj hack
        obtain ⟨rfl, rfl⟩ := Prod.mk.inj hid
        exact ⟨Nat.not_lt.mp hfloor, Nat.not_lt.mp hroom, _, hcreate, rfl⟩
  | object config s =>
    by_cases hfloor : lsn.toNat < s.parent.inner.retentionFloor
    · refine .inr ⟨fun hok => absurd hok.1 (Nat.not_le.mpr hfloor), ?_⟩
      rw [createBranch, ObjectBranches.Sys.createBranch, if_pos hfloor]
      exact ⟨_, _, rfl⟩
    · refine .inl ⟨Nat.not_lt.mp hfloor, trivial, ?_⟩
      have hfree : ¬ (s.pointers.lookup s.nextBranchId).isSome := fun hused => absurd (h.free config s rfl _ hused) (lt_irrefl _)
      rw [createBranch, ObjectBranches.Sys.createBranch, if_neg hfloor]
      dsimp only
      rw [if_neg hfree]
      exact ⟨_, rfl, rfl⟩

/-- An accepted floor is the floor. -/
theorem pitrFloor_of_set {n n' : Node} {lsn : UInt64} (h : n.setRetentionFloor lsn = (.ok (), n')) : n'.pitrFloor = lsn.toNat := by
  cases n with
  | file s =>
    have hexec := LocalFile.exec_setRetentionFloor s.handle lsn
    obtain ⟨res, h', hrun⟩ : ∃ res h', runOn (LocalFile.setRetentionFloor none lsn) s.handle = (res, h') := ⟨_, _, rfl⟩
    rw [setRetentionFloor, call, hrun] at h
    obtain ⟨rfl, rfl⟩ := Prod.mk.inj h
    rw [hrun, LocalFile.Handle.exec_eq, LocalFile.Handle.step] at hexec
    split at hexec
    · cases (Prod.mk.inj hexec).1
    · dsimp only at hexec
      split_ifs at hexec
      · cases (Prod.mk.inj hexec).1
      · rw [← (Prod.mk.inj hexec).2]
        rfl
  | object config s =>
    by_cases hback : lsn.toNat < s.parent.inner.retentionFloor
    · rw [setRetentionFloor, call, Object.setRetentionFloor, StateExcept.run_bind_ok (StateExcept.run_get _)] at h
      dsimp only at h
      rw [StateExcept.run_ite, if_pos hback] at h
      cases (Prod.mk.inj h).1
    · rw [setRetentionFloor, call, Object.setRetentionFloor, StateExcept.run_bind_ok (StateExcept.run_get _)] at h
      dsimp only at h
      rw [StateExcept.run_ite, if_neg hback] at h
      obtain ⟨-, rfl⟩ := Prod.mk.inj h
      rfl

/-- A branch that is known is deleted, or the file has no room for its tombstone; no record ever
names it as parent. -/
theorem deleteBranch_not_invalid {n : Node} (h : n.Ok) {branch : UInt64} (hknown : (n.branches.lookup branch.toNat).isSome)
    (hbranch : branch.toNat ≠ ROOT) (message : String) : (n.deleteBranch branch).1 ≠ .error (.invalid message) := by
  have hsome : ¬ (n.branches.lookup branch.toNat).isNone := by
    rw [Option.isNone_iff_eq_none]
    intro hnone
    rw [hnone] at hknown
    cases hknown
  have hchild : ¬ n.branches.values.any (·.parent == branch.toNat) := by
    intro hany
    obtain ⟨r, hr, hparent⟩ := List.any_eq_true.mp hany
    obtain ⟨⟨id, r⟩, hmem, rfl⟩ := List.mem_map.mp hr
    have hroot := h.roots id r (AList.mem_lookup_iff.mpr hmem)
    exact hbranch ((beq_iff_eq.mp hparent).symm.trans hroot)
  cases n with
  | file s =>
    have hexec := LocalBranches.exec_deleteBranch s.handle branch
    change ¬ (s.handle.inner.branches.lookup branch.toNat).isNone at hsome
    change ¬ s.handle.inner.branches.values.any (·.parent == branch.toNat) at hchild
    rw [LocalFile.Handle.exec_eq, LocalFile.Handle.step, LocalFile.Op.frame, if_neg hsome, if_neg hchild] at hexec
    dsimp only at hexec
    obtain ⟨res, h', hrun⟩ : ∃ res h', runOn (LocalFile.deleteBranch none branch) s.handle = (res, h') := ⟨_, _, rfl⟩
    rw [hrun] at hexec
    rw [deleteBranch, LocalBranches.Sys.deleteBranch, hrun]
    cases res with
    | ok u => rintro ⟨⟩
    | error e =>
      intro hinvalid
      obtain rfl : e = .invalid message := Except.error.inj hinvalid
      split_ifs at hexec <;> cases (Prod.mk.inj hexec).1
  | object config s =>
    change ¬ (s.branches.lookup branch.toNat).isNone at hsome
    change ¬ s.branches.values.any (·.parent == branch.toNat) at hchild
    rw [deleteBranch, ObjectBranches.Sys.deleteBranch, if_neg hsome, if_neg hchild]
    rintro ⟨⟩

end Node

/-! ## Runs -/

namespace Fork

structure Inv (s : Fork) : Prop where
  base : s.base.Ok
  overlay : s.overlay.Ok
  known : (s.base.branches.lookup s.id.toNat).isSome
  notRoot : s.id.toNat ≠ ROOT

theorem IsFresh.inv {s : Fork} (h : s.IsFresh) : s.Inv := by
  obtain ⟨new, before, fork, hnew, hreach, hcreate, -⟩ := h.base
  have hok := hnew.ok.reach hreach
  have hbase : s.base = before.act (.createBranch fork) := (congrArg Prod.snd hcreate).symm
  rcases Node.createBranch_spec hok fork with ⟨-, -, n', hspec, hbranches⟩ | ⟨-, e, n', hspec⟩
  · rw [hcreate] at hspec
    obtain ⟨hid, rfl⟩ := Prod.mk.inj hspec
    have hnext : s.id.toNat = before.nextBranchId := Except.ok.inj hid
    refine ⟨hbase ▸ hok.act _, h.overlay.ok, ?_, ?_⟩
    · rw [hbranches, hnext, AList.lookup_insert]
      rfl
    · have hpos := hok.next
      rw [hnext, ROOT]
      omega
  · rw [hcreate] at hspec
    exact absurd (Prod.mk.inj hspec).1 nofun

theorem Inv.step {s t : Fork} {a : Act} (h : s.Inv) (hstep : s.step a = some t) : t.Inv := by
  have hbase (b : Node.Act) (hkept : ∀ branch, b = .deleteBranch branch → branch ≠ s.id) : Inv { s with base := s.base.act b } :=
    ⟨h.base.act b, h.overlay,
      Node.lookup_act h.known fun branch hb heq => hkept branch hb (UInt64.toNat_inj.mp heq), h.notRoot⟩
  have hoverlay (b : Node.Act) : Inv { s with overlay := s.overlay.act b } := ⟨h.base, h.overlay.act b, h.known, h.notRoot⟩
  cases a with
  | base b =>
    cases b with
    | deleteBranch branch =>
      rw [Fork.step] at hstep
      split_ifs at hstep with hself
      obtain rfl := Option.some.inj hstep
      exact hbase _ fun branch' hb => by
        obtain rfl := Node.Act.deleteBranch.inj hb
        exact hself
    | _ =>
      obtain rfl := Option.some.inj hstep
      exact hbase _ nofun
  | acquireFence owner =>
    obtain rfl := Option.some.inj hstep
    exact hoverlay (.acquireFence owner)
  | appendWal token records =>
    obtain rfl := Option.some.inj hstep
    exact hoverlay (.appendWal token records)
  | putPage token pageId image =>
    obtain rfl := Option.some.inj hstep
    exact hoverlay (.putPage token pageId image)
  | setRetentionFloor lsn =>
    obtain rfl := Option.some.inj hstep
    exact hoverlay (.setRetentionFloor (s.toLocal lsn))
  | createBranch baseLsn =>
    obtain rfl := Option.some.inj hstep
    exact hoverlay (.createBranch (s.toLocal baseLsn))
  | deleteBranch branch =>
    obtain rfl := Option.some.inj hstep
    exact hoverlay (.deleteBranch branch)

theorem toNat_toLocal (s : Fork) (lsn : UInt64) : (s.toLocal lsn).toNat = lsn.toNat - s.baseLsn := by
  have hbound := lsn.toNat_lt
  rw [toLocal, UInt64.toNat_ofNat_of_lt']
  simp only [UInt64.size]
  omega

/-- The floor is kept in the branch's own LSNs. -/
theorem pitrFloor_set {s s' : Fork} {lsn : UInt64} (hlsn : s.baseLsn ≤ lsn.toNat) (h : s.setRetentionFloor lsn = (.ok (), s')) :
    s'.pitrFloor = lsn.toNat := by
  obtain ⟨res, n', hset⟩ : ∃ res n', s.overlay.setRetentionFloor (s.toLocal lsn) = (res, n') := ⟨_, _, rfl⟩
  rw [setRetentionFloor, hset] at h
  obtain ⟨rfl, rfl⟩ := Prod.mk.inj h
  have hfloor := Node.pitrFloor_of_set hset
  rw [toNat_toLocal] at hfloor
  change s.baseLsn + n'.pitrFloor = lsn.toNat
  omega

/-- What is recorded of a branch created through the branch: the root as parent, and the fork in
the overlay's LSNs. -/
theorem record_created {s s' : Fork} (h : s.Inv) {lsn : UInt64} {branch : Nat} (hcreate : s.createBranch lsn = (.ok branch, s')) :
    ∃ r, s'.resolveBranch branch = .ok r ∧ r ∈ s'.listBranches ∧ r.parent = ROOT ∧ r.baseLsn = lsn.toNat - s.baseLsn := by
  rcases Node.createBranch_spec h.overlay (s.toLocal lsn) with ⟨-, -, n', hspec, hbranches⟩ | ⟨-, e, n', herror⟩
  · rw [createBranch, hspec] at hcreate
    obtain ⟨hid, rfl⟩ := Prod.mk.inj hcreate
    obtain rfl : s.overlay.nextBranchId = branch := Except.ok.inj hid
    have hlookup : n'.branches.lookup s.overlay.nextBranchId =
        some ⟨s.overlay.nextBranchId, ROOT, (s.toLocal lsn).toNat, (s.toLocal lsn).toNat⟩ := by
      rw [hbranches, AList.lookup_insert]
    refine ⟨_, by rw [resolveBranch, Node.resolveBranch, hlookup], ?_, rfl, toNat_toLocal s lsn⟩
    rw [listBranches, Node.listBranches, List.mem_insertionSort]
    exact List.mem_map.mpr ⟨_, AList.mem_lookup_iff.mp hlookup, rfl⟩
  · rw [createBranch, herror] at hcreate
    exact absurd (Prod.mk.inj hcreate).1 nofun

/-- A branch that is not barren can be forked somewhere. -/
theorem Inv.fertile {s : Fork} (h : s.Inv) (hfertile : ¬ s.Barren) :
    ∃ (lsn : UInt64) (branch : Nat) (s' : Fork), s.baseLsn ≤ lsn.toNat ∧ lsn.toNat ≤ s.durableLsn ∧
      s.createBranch lsn = (.ok branch, s') := by
  obtain ⟨hfloor, hroom⟩ := not_or.mp hfertile
  push Not at hfloor
  obtain ⟨lsn, hbase, hdurable, hlocal⟩ := hfloor
  have hhas : s.overlay.HasRoom := by
    cases hoverlay : s.overlay with
    | file f =>
      rw [hoverlay] at hroom
      exact Nat.not_lt.mp hroom
    | object config o => trivial
  rcases Node.createBranch_spec h.overlay (s.toLocal lsn) with ⟨-, -, n', hcreate, -⟩ | ⟨hnot, -⟩
  · exact ⟨lsn, _, { s with overlay := n' }, hbase, hdurable, by rw [createBranch, hcreate]⟩
  · exact absurd ⟨hlocal, hhas⟩ hnot

/-- Through a barren branch none is created. -/
theorem Inv.barren {s : Fork} (h : s.Inv) (hbarren : s.Barren) (P : UInt64 → BranchRef → Prop) : s.Records P := by
  intro lsn branch s' hbase hdurable hcreate
  exfalso
  rcases Node.createBranch_spec h.overlay (s.toLocal lsn) with ⟨hfloor, hroom, -⟩ | ⟨-, e, n', herror⟩
  · rcases hbarren with hbelow | hfull
    · exact absurd (hbelow lsn hbase hdurable) (Nat.not_lt.mpr hfloor)
    · cases hoverlay : s.overlay with
      | file f =>
        rw [hoverlay] at hfull hroom
        exact absurd hfull (Nat.not_lt.mpr hroom)
      | object config o =>
        rw [hoverlay] at hfull
        exact hfull
  · rw [createBranch, herror] at hcreate
    exact absurd (Prod.mk.inj hcreate).1 nofun

theorem Inv.forkLsn_iff {s : Fork} (h : s.Inv) : s.Records (fun lsn r => r.baseLsn = lsn.toNat) ↔ s.baseLsn = 0 ∨ s.Barren := by
  constructor
  · intro hrecords
    by_contra hnot
    obtain ⟨hfork, hfertile⟩ := not_or.mp hnot
    obtain ⟨lsn, branch, s', hbase, hdurable, hcreate⟩ := h.fertile hfertile
    obtain ⟨r, hr, -, hlsn⟩ := hrecords lsn branch s' hbase hdurable hcreate
    obtain ⟨r', hr', -, -, hlocal⟩ := record_created h hcreate
    obtain rfl : r = r' := Except.ok.inj (hr.symm.trans hr')
    omega
  · rintro (hzero | hbarren)
    · intro lsn branch s' _ _ hcreate
      obtain ⟨r, hr, hmem, -, hlocal⟩ := record_created h hcreate
      exact ⟨r, hr, hmem, by omega⟩
    · exact h.barren hbarren _

theorem Inv.parent_iff {s : Fork} (h : s.Inv) : s.Records (fun _ r => r.parent = s.id.toNat) ↔ s.Barren := by
  constructor
  · intro hrecords
    by_contra hfertile
    obtain ⟨lsn, branch, s', hbase, hdurable, hcreate⟩ := h.fertile hfertile
    obtain ⟨r, hr, -, hparent⟩ := hrecords lsn branch s' hbase hdurable hcreate
    obtain ⟨r', hr', -, hroot, -⟩ := record_created h hcreate
    obtain rfl : r = r' := Except.ok.inj (hr.symm.trans hr')
    exact h.notRoot (hparent.symm.trans hroot)
  · exact fun hbarren => h.barren hbarren _

theorem Inv.deleted_iff {s : Fork} (h : s.Inv) :
    (s.listBranches ≠ [] → ∃ message, (s.base.deleteBranch s.id).1 = .error (.invalid message)) ↔ s.listBranches = [] := by
  constructor
  · intro hdeleted
    by_contra hlive
    obtain ⟨message, hinvalid⟩ := hdeleted hlive
    exact Node.deleteBranch_not_invalid h.base h.known h.notRoot message hinvalid
  · exact fun hnone hlive => absurd hnone hlive

/-- **Sub-branches.** Whatever was done to a branch and to its base since the fork, the branch
keeps its books exactly while it has no branch of its own and can get none. The floor it answers
is always the one set; but what it records of a branch of its own is the fork's place in the
overlay, right only for a fork at LSN 0, and never its own id, so that the base deletes it
whatever was forked from it. -/
theorem keeps_iff {start s : Fork} (hfresh : start.IsFresh) (hreach : Reach step start s) :
    (s.Keeps ↔ s.listBranches = [] ∧ s.Barren) ∧
    (s.Records (fun lsn r => r.baseLsn = lsn.toNat) ↔ s.baseLsn = 0 ∨ s.Barren) ∧
    (s.Records (fun _ r => r.parent = s.id.toNat) ↔ s.Barren) ∧
    ((s.listBranches ≠ [] → ∃ message, (s.base.deleteBranch s.id).1 = .error (.invalid message)) ↔ s.listBranches = []) := by
  have h := hreach.invariant hfresh.inv fun _ _ _ ht _ hstep => ht.step hstep
  refine ⟨?_, h.forkLsn_iff, h.parent_iff, h.deleted_iff⟩
  constructor
  · exact fun hkeeps => ⟨h.deleted_iff.mp hkeeps.deleted, h.parent_iff.mp hkeeps.parent⟩
  · rintro ⟨hnone, hbarren⟩
    exact ⟨h.barren hbarren _, h.barren hbarren _, fun _ _ hbase hset => pitrFloor_set hbase hset, h.deleted_iff.mpr hnone⟩

/-- A file with one record, before and after it is forked at that record. -/
def oneRecord : Node := ((Node.file (LocalBranches.start .create)).act (.acquireFence 7)).act (.appendWal ⟨1, 7⟩ [[1]])

def forkOfOne : Fork := ⟨(oneRecord.createBranch 1).2, .file (LocalBranches.start .create), 1, 1⟩

theorem isFresh_forkOfOne : forkOfOne.IsFresh where
  base := ⟨_, oneRecord, 1, .inl rfl, (Transition.RunWhere.nil.snoc trivial rfl).snoc trivial rfl, by
    have hid : (oneRecord.createBranch 1).1 = .ok 1 := by decide +kernel
    exact Prod.ext hid rfl, rfl⟩
  overlay := .inl rfl

/-- With the floor set past its end, the fork can get no branch and keeps its books. -/
theorem keeps_iff_floor_ahead : ∃ s, Reach step forkOfOne s ∧ s.Keeps := by
  have hreach : Reach step forkOfOne (forkOfOne.setRetentionFloor 5).2 :=
    Transition.RunWhere.nil.snoc (a := .setRetentionFloor 5) trivial rfl
  refine ⟨_, hreach, (keeps_iff isFresh_forkOfOne hreach).1.mpr ⟨by decide +kernel, .inl fun lsn hbase hdurable => ?_⟩⟩
  have hend : (forkOfOne.setRetentionFloor 5).2.durableLsn = 1 := by decide +kernel
  have hfork : (forkOfOne.setRetentionFloor 5).2.baseLsn = 1 := rfl
  have hfloor : (forkOfOne.setRetentionFloor 5).2.overlay.pitrFloor = 4 := by decide +kernel
  rw [toNat_toLocal, hfloor]
  omega

/-- The fork with a record of its own, and with a branch of its own forked there, at LSN 2. -/
def forkOfTwo : Fork := { forkOfOne with
  overlay := (forkOfOne.overlay.act (.acquireFence 8)).act (.appendWal ⟨1, 8⟩ [[2]]) }

/-- The branch forked at LSN 2 says LSN 1 and the root, and the base deletes what it was forked from. -/
theorem subBranch_misfiled :
    (forkOfTwo.createBranch 2).1 = .ok 1 ∧ (forkOfTwo.createBranch 2).2.resolveBranch 1 = .ok ⟨1, ROOT, 1, 1⟩ ∧
    ((forkOfTwo.createBranch 2).2.base.deleteBranch 1).1 = .ok () ∧ ¬ forkOfTwo.Keeps ∧ ¬ (forkOfTwo.createBranch 2).2.Keeps := by
  have hid : (forkOfTwo.createBranch 2).1 = .ok 1 := by decide +kernel
  have hrecord : (forkOfTwo.createBranch 2).2.resolveBranch 1 = .ok ⟨1, ROOT, 1, 1⟩ := by decide +kernel
  have hdelete : ((forkOfTwo.createBranch 2).2.base.deleteBranch 1).1 = .ok () := by decide +kernel
  refine ⟨hid, hrecord, hdelete, fun hkeeps => ?_, fun hkeeps => ?_⟩
  · obtain ⟨r, hr, -, hlsn⟩ := hkeeps.forkLsn 2 1 _ (by decide +kernel) (by decide +kernel) (Prod.ext hid rfl)
    obtain rfl := Except.ok.inj (hrecord.symm.trans hr)
    exact absurd hlsn (by decide)
  · obtain ⟨message, hinvalid⟩ := hkeeps.deleted (by decide +kernel)
    change ((forkOfTwo.createBranch 2).2.base.deleteBranch 1).1 = _ at hinvalid
    rw [hdelete] at hinvalid
    exact absurd hinvalid nofun

end Fork

end Twill.Storage
