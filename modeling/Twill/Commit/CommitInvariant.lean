/-
The coordinator's invariant, kept by every step of every thread.

The history orders everything: the batches drained so far, then the queue, are
the ids in submission order, and the results set so far are a prefix of the
batches. The one leading thread accounts for the batch in between: where it
stands says which of the batch's records are gathered, appended and resolved.
-/
import Twill.Commit.GroupCommit

namespace Twill.GroupCommit

open Storage (StorageError)

variable {s s' : Sys} {t : Nat}

/-! ## Where a thread stands -/

/-- The thread is the leader. -/
def Pc.leads : Pc → Bool
  | .releasing _ leader => leader
  | .draining _ => true
  | .drained .. => true
  | .gathered .. => true
  | .appended .. => true
  | .failed .. => true
  | .resolving .. => true
  | .flushed _ => true
  | .outside => false
  | .awaiting _ => false
  | .parked _ => false
  | .quiescing => false
  | .quiesceParked => false

/-- The member a thread commits. -/
def Pc.member : Pc → Option Nat
  | .releasing id _ => some id
  | .draining id => some id
  | .drained id _ => some id
  | .gathered id .. => some id
  | .appended id .. => some id
  | .failed id .. => some id
  | .resolving id _ => some id
  | .flushed id => some id
  | .awaiting id => some id
  | .parked id => some id
  | .outside => none
  | .quiescing => none
  | .quiesceParked => none

namespace History

def resolvedIds (h : History) : List Nat := h.resolved.map Prod.fst

def returnedIds (h : History) : List Nat := h.returned.map Prod.fst

def appendedIds (h : History) : List (List Nat) := h.appends.map Append.ids

def slice (h : History) (id : Nat) : Slice :=
  ⟨id, ((h.submitted[id - 1]?).map Member.owner).getD 0, (h.records id).length⟩

/-- Every batch drained is appended and resolved. -/
structure Settled (h : History) : Prop where
  appends : h.appendedIds = h.batches
  resolved : h.resolvedIds = h.batches.flatten

/-- Every batch but the last is appended and resolved. -/
structure Drained (h : History) (batch : List Nat) : Prop where
  appends : h.appendedIds ++ [batch] = h.batches
  resolved : h.resolvedIds ++ batch = h.batches.flatten

/-- The last batch is appended too. -/
structure Appended (h : History) (batch : List Nat) : Prop where
  appends : h.appendedIds = h.batches
  resolved : h.resolvedIds ++ batch = h.batches.flatten

/-- A member's records stand in the log one after another, the last of them, its
`Commit` marker, at `lsn`. -/
def MarkedAt (h : History) (id lsn : Nat) : Prop :=
  ∃ first, Sys.number first id (h.records id) <:+: h.log ∧ lsn + 1 = first + (h.records id).length

/-- A result is the answer of the one append of the member's batch; if that
succeeded, it is the LSN of the member's `Commit` marker. -/
def Sound (h : History) (id : Nat) : CommitResult → Prop
  | .ok lsn => (∃ a ∈ h.appends, id ∈ a.ids ∧ ∃ last, a.answer = .ok last) ∧ h.MarkedAt id lsn
  | .error e => ∃ a ∈ h.appends, id ∈ a.ids ∧ ∃ failure, a.answer = .error failure ∧ e = commitError failure

end History

/-- What the leader's place says of the batch in flight. -/
def LeaderAt (h : History) (queue : List Nat) : Pc → Prop
  | .releasing _ _ => queue ≠ [] ∧ h.Settled
  | .draining _ => queue ≠ [] ∧ h.Settled
  | .drained _ batch => batch ≠ [] ∧ h.Drained batch
  | .gathered _ all members => ∃ batch, h.Drained batch ∧ all = batch.flatMap h.records ∧ members = batch.map h.slice
  | .appended _ members last => ∃ batch first, h.Appended batch ∧ members = batch.map h.slice ∧
      (∃ a ∈ h.appends, a.ids = batch ∧ a.answer = .ok last) ∧ Sys.numberBatch h.records first batch <:+: h.log ∧
      1 ≤ first ∧ first + (batch.flatMap h.records).length = last + 1
  | .failed _ members e => ∃ batch, h.Appended batch ∧ members = batch.map h.slice ∧
      ∃ a ∈ h.appends, a.ids = batch ∧ a.answer = .error e
  | .resolving _ results => h.Appended (results.map Prod.fst) ∧ ∀ r ∈ results, h.Sound r.1 r.2
  | .flushed _ => h.Settled
  | _ => True

/-- The threads: each has a member of its own, one of them leads while the flag is
set, and none is parked without a reason. -/
structure Threads (s : Sys) : Prop where
  own : ∀ t id, (s.pc t).member = some id → 1 ≤ id ∧ id ≤ s.hist.submitted.length ∧ id ∉ s.hist.returnedIds
  apart : ∀ t u id, (s.pc t).member = some id → (s.pc u).member = some id → t = u
  parked : ∀ t id, s.pc t = .parked id → id ∉ s.hist.resolvedIds
  quiet : ∀ t, s.pc t = .quiesceParked → s.inner.leaderActive = true
  one : ∀ t u, (s.pc t).leads = true → (s.pc u).leads = true → t = u
  active : s.inner.leaderActive = true ↔ ∃ t, (s.pc t).leads = true
  leader : ∀ t, (s.pc t).leads = true → LeaderAt s.hist s.inner.queue (s.pc t)

/-- What the coordinator holds for a member: its records, and its result once there
is one; nothing after it has returned. -/
def EntryAt (h : History) (members : Nat → Option Entry) (id : Nat) (m : Member) : Prop :=
  (id ∈ h.returnedIds ∧ members id = none) ∨
    (id ∉ h.returnedIds ∧ ∃ result, members id = some ⟨m.owner, m.records, result, result.isSome⟩ ∧
      ∀ r, result = some r ↔ (id, r) ∈ h.resolved)

/-- The log: LSNs and ids ascend together. -/
def Ascending (log : List Line) : Prop := log.Pairwise fun a b => a.lsn < b.lsn ∧ a.id ≤ b.id

structure Inv (s : Sys) : Prop where
  nextId : s.inner.nextId = s.hist.submitted.length + 1
  order : s.hist.batches.flatten ++ s.inner.queue = List.range' 1 s.hist.submitted.length
  entries : ∀ id m, 1 ≤ id → s.hist.submitted[id - 1]? = some m → EntryAt s.hist s.inner.members id m
  returned : ∀ r ∈ s.hist.returned, r ∈ s.hist.resolved
  returnedOnce : s.hist.returnedIds.Nodup
  sound : ∀ r ∈ s.hist.resolved, s.hist.Sound r.1 r.2
  idle : s.inner.leaderActive = false → s.inner.queue = [] ∧ s.hist.Settled
  positive : 1 ≤ s.nextLsn
  ascending : Ascending s.hist.log
  lines : ∀ l ∈ s.hist.log, l.lsn < s.nextLsn ∧ l.id ∈ s.hist.appendedIds.flatten
  threads : Threads s

/-! ## Consequences -/

theorem History.Settled.inFlight {h : History} (hs : h.Settled) :
    h.resolvedIds ++ [] = h.batches.flatten ∧ h.appendedIds <+: h.batches := by
  rw [List.append_nil, hs.appends]
  exact ⟨hs.resolved, List.prefix_rfl⟩

theorem History.Drained.inFlight {h : History} {batch : List Nat} (hd : h.Drained batch) :
    h.resolvedIds ++ batch = h.batches.flatten ∧ h.appendedIds <+: h.batches :=
  ⟨hd.resolved, ⟨[batch], hd.appends⟩⟩

theorem History.Appended.inFlight {h : History} {batch : List Nat} (ha : h.Appended batch) :
    h.resolvedIds ++ batch = h.batches.flatten ∧ h.appendedIds <+: h.batches := by
  rw [ha.appends]
  exact ⟨ha.resolved, List.prefix_rfl⟩

/-- What is resolved, then the batch in flight, is what was drained, and every append
was of the next batch. -/
theorem Inv.inFlight (h : Inv s) : ∃ batch, s.hist.resolvedIds ++ batch = s.hist.batches.flatten ∧
    s.hist.appendedIds <+: s.hist.batches := by
  cases hactive : s.inner.leaderActive with
  | false => exact ⟨[], (h.idle hactive).2.inFlight⟩
  | true =>
    obtain ⟨t, ht⟩ := h.threads.active.1 hactive
    have hleader := h.threads.leader t ht
    revert hleader ht
    cases s.pc t with
    | releasing id leader => exact fun _ hl => ⟨[], hl.2.inFlight⟩
    | draining id => exact fun _ hl => ⟨[], hl.2.inFlight⟩
    | drained id batch => exact fun _ hl => ⟨batch, hl.2.inFlight⟩
    | gathered id all members => exact fun _ ⟨batch, hl, _⟩ => ⟨batch, hl.inFlight⟩
    | appended id members last => exact fun _ ⟨batch, _, hl, _⟩ => ⟨batch, hl.inFlight⟩
    | failed id members e => exact fun _ ⟨batch, hl, _⟩ => ⟨batch, hl.inFlight⟩
    | resolving id results => exact fun _ hl => ⟨_, hl.1.inFlight⟩
    | flushed id => exact fun _ hl => ⟨[], hl.inFlight⟩
    | outside => exact fun ht => nomatch ht
    | awaiting id => exact fun ht => nomatch ht
    | parked id => exact fun ht => nomatch ht
    | quiescing => exact fun ht => nomatch ht
    | quiesceParked => exact fun ht => nomatch ht

theorem Inv.pipeline (h : Inv s) : ∃ batch, s.hist.resolvedIds ++ batch = s.hist.batches.flatten := by
  obtain ⟨batch, hbatch, -⟩ := h.inFlight
  exact ⟨batch, hbatch⟩

theorem Inv.mem_submitted (h : Inv s) {id : Nat} (hid : id ∈ s.hist.batches.flatten ++ s.inner.queue) :
    1 ≤ id ∧ ∃ m, s.hist.submitted[id - 1]? = some m := by
  rw [h.order, List.mem_range'_1] at hid
  exact ⟨hid.1, s.hist.submitted[id - 1], List.getElem?_eq_getElem (by omega)⟩

theorem Inv.ids_nodup (h : Inv s) : (s.hist.batches.flatten ++ s.inner.queue).Nodup := by
  rw [h.order]
  exact List.nodup_range'

theorem Inv.resolved_nodup (h : Inv s) : s.hist.resolvedIds.Nodup := by
  obtain ⟨batch, hbatch⟩ := h.pipeline
  have hnodup := h.ids_nodup
  rw [← hbatch] at hnodup
  exact (List.nodup_append.1 (List.nodup_append.1 hnodup).1).1

/-- A member that is not resolved yet is in the coordinator's table, without a result. -/
theorem Inv.entry (h : Inv s) {id : Nat} (hid : id ∈ s.hist.batches.flatten ++ s.inner.queue)
    (hres : id ∉ s.hist.resolvedIds) : ∃ m, s.hist.submitted[id - 1]? = some m ∧
      s.inner.members id = some ⟨m.owner, m.records, none, false⟩ := by
  obtain ⟨hpos, m, hm⟩ := h.mem_submitted hid
  refine ⟨m, hm, ?_⟩
  rcases h.entries id m hpos hm with ⟨hret, -⟩ | ⟨-, result, hmember, hresult⟩
  · obtain ⟨r, hr, rfl⟩ := List.mem_map.1 hret
    exact absurd (List.mem_map_of_mem (h.returned r hr)) hres
  · cases result with
    | none => exact hmember
    | some r => exact absurd (List.mem_map_of_mem (f := Prod.fst) ((hresult r).1 rfl)) hres

/-! ## A thread moves -/

/-- A thread moves, keeping its part: it leads as before and commits the same
member, or none. -/
theorem Threads.move {pc : Pc} (h : Threads s) (hpc : s'.pc = Function.update s.pc t pc)
    (hactive : s'.inner.leaderActive = s.inner.leaderActive) (hsub : s'.hist.submitted = s.hist.submitted)
    (hret : s'.hist.returned = s.hist.returned) (hres : s'.hist.resolved = s.hist.resolved)
    (hleads : pc.leads = (s.pc t).leads) (hmember : pc.member = (s.pc t).member)
    (hparked : ∀ id, pc = .parked id → id ∉ s.hist.resolvedIds)
    (hquiet : pc = .quiesceParked → s.inner.leaderActive = true)
    (hleader : pc.leads = true → LeaderAt s'.hist s'.inner.queue pc)
    (hkept : pc.leads = false → s'.hist = s.hist ∧ s'.inner.queue = s.inner.queue) : Threads s' := by
  have hmembers : ∀ u, (s'.pc u).member = (s.pc u).member := by
    intro u
    rw [hpc]
    rcases eq_or_ne u t with rfl | hu
    · rw [Function.update_self, hmember]
    · rw [Function.update_of_ne hu]
  have hlead : ∀ u, (s'.pc u).leads = (s.pc u).leads := by
    intro u
    rw [hpc]
    rcases eq_or_ne u t with rfl | hu
    · rw [Function.update_self, hleads]
    · rw [Function.update_of_ne hu]
  refine ⟨fun u id hu => ?_, fun u v id hu hv => ?_, fun u id hu => ?_, fun u hu => ?_, fun u v hu hv => ?_, ?_,
    fun u hu => ?_⟩
  · rw [hmembers] at hu
    rw [hsub, History.returnedIds, hret]
    exact h.own u id hu
  · rw [hmembers] at hu hv
    exact h.apart u v id hu hv
  · rw [History.resolvedIds, hres]
    rw [hpc] at hu
    rcases eq_or_ne u t with rfl | hne
    · rw [Function.update_self] at hu
      exact hparked id hu
    · rw [Function.update_of_ne hne] at hu
      exact h.parked u id hu
  · rw [hactive]
    rw [hpc] at hu
    rcases eq_or_ne u t with rfl | hne
    · rw [Function.update_self] at hu
      exact hquiet hu
    · rw [Function.update_of_ne hne] at hu
      exact h.quiet u hu
  · rw [hlead] at hu hv
    exact h.one u v hu hv
  · simp only [hactive, hlead]
    exact h.active
  · rcases eq_or_ne u t with rfl | hne
    · rw [hpc, Function.update_self] at hu ⊢
      exact hleader hu
    · -- Another thread leads, so this one does not, and nothing the leader relies on changed.
      have hu' : (s.pc u).leads = true := by rwa [hlead] at hu
      have ht : pc.leads = false := by
        by_contra hpcl
        rw [Bool.not_eq_false, hleads] at hpcl
        exact hne (h.one u t hu' hpcl)
      obtain ⟨hhist, hqueue⟩ := hkept ht
      rw [hhist, hqueue, hpc, Function.update_of_ne hne]
      exact h.leader u hu'

/-- The leader moves and stays leader. -/
theorem Threads.lead {pc : Pc} (h : Threads s) (hpc : s'.pc = Function.update s.pc t pc)
    (hactive : s'.inner.leaderActive = s.inner.leaderActive) (hsub : s'.hist.submitted = s.hist.submitted)
    (hret : s'.hist.returned = s.hist.returned) (hres : s'.hist.resolved = s.hist.resolved)
    (hold : (s.pc t).leads = true) (hleads : pc.leads = true) (hmember : pc.member = (s.pc t).member)
    (hleader : LeaderAt s'.hist s'.inner.queue pc) : Threads s' := by
  refine h.move hpc hactive hsub hret hres (hleads.trans hold.symm) hmember ?_ ?_ (fun _ => hleader) ?_
  · rintro id rfl
    cases hleads
  · rintro rfl
    cases hleads
  · intro hno
    exact absurd (hleads.symm.trans hno) (by simp)

/-- A thread moves and nothing else changes, the store apart. -/
theorem Inv.goto {pc : Pc} (h : Inv s) (store : Store) (hleads : pc.leads = (s.pc t).leads)
    (hmember : pc.member = (s.pc t).member) (hparked : ∀ id, pc = .parked id → id ∉ s.hist.resolvedIds)
    (hquiet : pc = .quiesceParked → s.inner.leaderActive = true)
    (hleader : pc.leads = true → LeaderAt s.hist s.inner.queue pc) :
    Inv { s.goto t pc with store := store } :=
  ⟨h.nextId, h.order, h.entries, h.returned, h.returnedOnce, h.sound, h.idle, h.positive, h.ascending, h.lines,
    h.threads.move (t := t) rfl rfl rfl rfl rfl hleads hmember hparked hquiet hleader fun _ => ⟨rfl, rfl⟩⟩

theorem Inv.lead {pc : Pc} (h : Inv s) (store : Store) (hold : (s.pc t).leads = true) (hleads : pc.leads = true)
    (hmember : pc.member = (s.pc t).member) (hleader : LeaderAt s.hist s.inner.queue pc) :
    Inv { s.goto t pc with store := store } :=
  ⟨h.nextId, h.order, h.entries, h.returned, h.returnedOnce, h.sound, h.idle, h.positive, h.ascending, h.lines,
    h.threads.lead (t := t) rfl rfl rfl rfl rfl hold hleads hmember hleader⟩

/-! ## Committing a member -/

theorem records_append {h : History} {m : Member} {id : Nat} (hid : id ∈ List.range' 1 h.submitted.length) :
    ({ h with submitted := h.submitted ++ [m] } : History).records id = h.records id := by
  rw [List.mem_range'_1] at hid
  simp only [History.records]
  rw [List.getElem?_append_left (by omega)]

theorem slice_append {h : History} {m : Member} {id : Nat} (hid : id ∈ List.range' 1 h.submitted.length) :
    ({ h with submitted := h.submitted ++ [m] } : History).slice id = h.slice id := by
  have hrecords := records_append (m := m) hid
  rw [List.mem_range'_1] at hid
  simp only [History.slice, hrecords]
  rw [List.getElem?_append_left (by omega)]

theorem numberBatch_append {h : History} {m : Member} : ∀ {batch : List Nat} (first : Nat),
    (∀ id ∈ batch, id ∈ List.range' 1 h.submitted.length) →
    Sys.numberBatch ({ h with submitted := h.submitted ++ [m] } : History).records first batch = Sys.numberBatch h.records first batch
  | [], _, _ => rfl
  | id :: batch, first, hbatch => by
    rw [Sys.numberBatch, Sys.numberBatch, records_append (hbatch id (by simp)),
      numberBatch_append _ fun id' hid' => hbatch id' (by simp [hid'])]

theorem History.Sound.append {h : History} {m : Member} {id : Nat} {r : CommitResult}
    (hid : id ∈ List.range' 1 h.submitted.length) (hsound : h.Sound id r) :
    ({ h with submitted := h.submitted ++ [m] } : History).Sound id r := by
  cases r with
  | ok lsn =>
    obtain ⟨happend, first, hlines, hlsn⟩ := hsound
    refine ⟨happend, first, ?_, ?_⟩
    · rw [records_append hid]
      exact hlines
    · rw [records_append hid]
      exact hlsn
  | error e => exact hsound

/-- The leader's place says the same after another member came in. -/
theorem LeaderAt.append {h : History} {queue : List Nat} {m : Member} {id : Nat} {pc : Pc}
    (hflat : ∀ id ∈ h.batches.flatten, id ∈ List.range' 1 h.submitted.length) (hleader : LeaderAt h queue pc) :
    LeaderAt { h with submitted := h.submitted ++ [m] } (queue ++ [id]) pc := by
  have hpart : ∀ {batch : List Nat}, h.resolvedIds ++ batch = h.batches.flatten →
      ∀ id ∈ batch, id ∈ List.range' 1 h.submitted.length := by
    intro batch hbatch id hid
    exact hflat id (hbatch ▸ List.mem_append_right _ hid)
  have hrecords : ∀ {batch : List Nat}, h.resolvedIds ++ batch = h.batches.flatten →
      batch.flatMap ({ h with submitted := h.submitted ++ [m] } : History).records = batch.flatMap h.records :=
    fun hbatch => List.flatMap_congr fun id hid => records_append (hpart hbatch id hid)
  have hslices : ∀ {batch : List Nat}, h.resolvedIds ++ batch = h.batches.flatten →
      batch.map ({ h with submitted := h.submitted ++ [m] } : History).slice = batch.map h.slice :=
    fun hbatch => List.map_congr_left fun id hid => slice_append (hpart hbatch id hid)
  cases pc with
  | releasing _ _ => exact ⟨by simp, hleader.2.1, hleader.2.2⟩
  | draining _ => exact ⟨by simp, hleader.2.1, hleader.2.2⟩
  | drained _ batch => exact ⟨hleader.1, hleader.2.1, hleader.2.2⟩
  | gathered _ all members =>
    obtain ⟨batch, hdrained, rfl, rfl⟩ := hleader
    exact ⟨batch, ⟨hdrained.1, hdrained.2⟩, (hrecords hdrained.resolved).symm, (hslices hdrained.resolved).symm⟩
  | appended _ members last =>
    obtain ⟨batch, first, happended, rfl, ha, hlines, hlast⟩ := hleader
    refine ⟨batch, first, ⟨happended.1, happended.2⟩, (hslices happended.resolved).symm, ha, ?_, hlast.1, ?_⟩
    · rw [numberBatch_append first (hpart happended.resolved)]
      exact hlines
    · rw [hrecords happended.resolved]
      exact hlast.2
  | failed _ members e =>
    obtain ⟨batch, happended, rfl, ha⟩ := hleader
    exact ⟨batch, ⟨happended.1, happended.2⟩, (hslices happended.resolved).symm, ha⟩
  | resolving _ results =>
    refine ⟨⟨hleader.1.1, hleader.1.2⟩, fun r hr => ?_⟩
    exact (hleader.2 r hr).append (hpart hleader.1.resolved r.1 (List.mem_map_of_mem hr))
  | flushed _ => exact ⟨hleader.1, hleader.2⟩
  | outside => trivial
  | awaiting _ => trivial
  | parked _ => trivial
  | quiescing => trivial
  | quiesceParked => trivial

theorem Inv.mem_range (h : Inv s) {id : Nat} (hid : id ∈ s.hist.batches.flatten) :
    id ∈ List.range' 1 s.hist.submitted.length := by
  rw [← h.order]
  exact List.mem_append_left _ hid

theorem Inv.resolved_mem (h : Inv s) {id : Nat} (hid : id ∈ s.hist.resolvedIds) :
    id ∈ List.range' 1 s.hist.submitted.length := by
  obtain ⟨batch, hbatch⟩ := h.pipeline
  exact h.mem_range (hbatch ▸ List.mem_append_left _ hid)

theorem Inv.returned_mem (h : Inv s) {id : Nat} (hid : id ∈ s.hist.returnedIds) : id ∈ s.hist.resolvedIds := by
  obtain ⟨r, hr, rfl⟩ := List.mem_map.1 hid
  exact List.mem_map_of_mem (h.returned r hr)

theorem Threads.enqueue (h : Inv s) (hout : s.pc t = .outside) (m : Member) : Threads (s.enqueue t m) := by
  have hnew : s.inner.nextId = s.hist.submitted.length + 1 := h.nextId
  have hlength : (s.enqueue t m).hist.submitted.length = s.hist.submitted.length + 1 := by simp [Sys.enqueue]
  have hself : (s.enqueue t m).pc t = .releasing s.inner.nextId (!s.inner.leaderActive) :=
    Function.update_self ..
  have hother : ∀ {u}, u ≠ t → (s.enqueue t m).pc u = s.pc u := fun hu => Function.update_of_ne hu ..
  have hbound : ∀ u id, (s.pc u).member = some id → id < s.inner.nextId := by
    intro u id hu
    have := h.threads.own u id hu
    omega
  -- The new thread leads exactly when nobody did.
  have hnone : s.inner.leaderActive = false → ∀ u, (s.pc u).leads = false := by
    intro hactive u
    by_contra hu
    rw [Bool.not_eq_false] at hu
    rw [h.threads.active.2 ⟨u, hu⟩] at hactive
    cases hactive
  refine ⟨fun u id hu => ?_, fun u v id hu hv => ?_, fun u id hu => ?_, fun u hu => rfl, fun u v hu hv => ?_, ?_,
    fun u hu => ?_⟩
  · rw [hlength]
    show _ ∧ _ ∧ id ∉ s.hist.returnedIds
    rcases eq_or_ne u t with rfl | hne
    · rw [hself] at hu
      obtain rfl := Option.some.inj hu
      refine ⟨by omega, by omega, fun hret => ?_⟩
      have := h.resolved_mem (h.returned_mem hret)
      rw [List.mem_range'_1] at this
      omega
    · rw [hother hne] at hu
      obtain ⟨hpos, hle, hret⟩ := h.threads.own u id hu
      exact ⟨hpos, by omega, hret⟩
  · rcases eq_or_ne u t with rfl | hu' <;> rcases eq_or_ne v u with rfl | hv'
    · rfl
    · rw [hself] at hu
      rw [hother hv'] at hv
      obtain rfl := Option.some.inj hu
      exact absurd (hbound v _ hv) (lt_irrefl _)
    · rfl
    · rw [hother hu'] at hu
      rcases eq_or_ne v t with rfl | hvt
      · rw [hself] at hv
        obtain rfl := Option.some.inj hv
        exact absurd (hbound u _ hu) (lt_irrefl _)
      · rw [hother hvt] at hv
        exact h.threads.apart u v id hu hv
  · rcases eq_or_ne u t with rfl | hne
    · rw [hself] at hu
      cases hu
    · rw [hother hne] at hu
      exact h.threads.parked u id hu
  · cases hactive : s.inner.leaderActive with
    | false =>
      have hfresh : ∀ {w}, ((s.enqueue t m).pc w).leads = true → w = t := by
        intro w hw
        by_contra hne
        rw [hother hne, hnone hactive w] at hw
        cases hw
      rw [hfresh hu, hfresh hv]
    | true =>
      have hold : ∀ {w}, ((s.enqueue t m).pc w).leads = true → (s.pc w).leads = true := by
        intro w hw
        rcases eq_or_ne w t with rfl | hne
        · rw [hself, hactive] at hw
          cases hw
        · rwa [hother hne] at hw
      exact h.threads.one u v (hold hu) (hold hv)
  · refine iff_of_true rfl ?_
    cases hactive : s.inner.leaderActive with
    | false => exact ⟨t, by rw [hself, hactive]; rfl⟩
    | true =>
      obtain ⟨u, hu⟩ := h.threads.active.1 hactive
      refine ⟨u, ?_⟩
      rcases eq_or_ne u t with rfl | hne
      · rw [hout] at hu
        cases hu
      · rwa [hother hne]
  · rcases eq_or_ne u t with rfl | hne
    · rw [hself] at hu ⊢
      have hactive : s.inner.leaderActive = false := by simpa [Pc.leads] using hu
      obtain ⟨-, hsettled⟩ := h.idle hactive
      exact ⟨by simp [Sys.enqueue], hsettled.1, hsettled.2⟩
    · rw [hother hne] at hu ⊢
      exact (h.threads.leader u hu).append fun id hid => h.mem_range hid

theorem Inv.enqueue (h : Inv s) (hout : s.pc t = .outside) (m : Member) : Inv (s.enqueue t m) := by
  have hnew : s.inner.nextId = s.hist.submitted.length + 1 := h.nextId
  refine ⟨?_, ?_, fun id m' hpos hm' => ?_, h.returned, h.returnedOnce, fun r hr => ?_, fun hactive => ?_, h.positive,
    h.ascending, h.lines, .enqueue h hout m⟩
  · simp [Sys.enqueue, hnew]
  · simp only [Sys.enqueue]
    rw [← List.append_assoc, h.order, hnew, List.length_append, List.length_singleton, List.range'_concat]
    simp [add_comm]
  · simp only [Sys.enqueue] at hm' ⊢
    rcases Nat.lt_or_ge (id - 1) s.hist.submitted.length with hlt | hge
    · rw [List.getElem?_append_left hlt] at hm'
      rw [EntryAt, Function.update_of_ne (by omega)]
      exact h.entries id m' hpos hm'
    · have hid : id = s.inner.nextId := by
        rw [List.getElem?_append_right hge, List.getElem?_eq_some_iff] at hm'
        obtain ⟨hlt, -⟩ := hm'
        simp at hlt
        omega
      subst hid
      have hlast : m = m' := by
        rw [hnew] at hm'
        simpa using hm'
      subst hlast
      have hfresh : s.inner.nextId ∉ s.hist.resolvedIds := by
        intro hres
        have := h.resolved_mem hres
        rw [List.mem_range'_1] at this
        omega
      refine .inr ⟨fun hret => hfresh (h.returned_mem hret), none, Function.update_self .., fun r => ?_⟩
      refine iff_of_false (by simp) fun hr => hfresh (List.mem_map_of_mem (f := Prod.fst) hr)
  · exact (h.sound r hr).append (h.resolved_mem (List.mem_map_of_mem hr))
  · cases hactive

/-! ## Flushing a batch -/

theorem Inv.leaderActive (h : Inv s) (ht : (s.pc t).leads = true) : s.inner.leaderActive = true :=
  h.threads.active.2 ⟨t, ht⟩

/-- What is queued, or in a batch in flight, is not resolved. -/
theorem Inv.unresolved (h : Inv s) {batch : List Nat} (hbatch : s.hist.resolvedIds ++ batch = s.hist.batches.flatten)
    {id : Nat} (hid : id ∈ batch ++ s.inner.queue) : id ∉ s.hist.resolvedIds := by
  have hnodup := h.ids_nodup
  rw [← hbatch, List.append_assoc] at hnodup
  exact fun hres => (List.nodup_append.1 hnodup).2.2 id hres id hid rfl

theorem Inv.queued_entry (h : Inv s) {id : Nat} (hid : id ∈ s.inner.queue) :
    ∃ m, s.hist.submitted[id - 1]? = some m ∧ s.inner.members id = some ⟨m.owner, m.records, none, false⟩ := by
  obtain ⟨batch, hbatch⟩ := h.pipeline
  exact h.entry (List.mem_append_right _ hid) (h.unresolved hbatch (List.mem_append_right _ hid))

theorem Inv.batch_entry (h : Inv s) {batch : List Nat} (hbatch : s.hist.resolvedIds ++ batch = s.hist.batches.flatten)
    {id : Nat} (hid : id ∈ batch) :
    ∃ m, s.hist.submitted[id - 1]? = some m ∧ s.inner.members id = some ⟨m.owner, m.records, none, false⟩ := by
  refine h.entry (List.mem_append_left _ ?_) (h.unresolved hbatch (List.mem_append_left _ hid))
  rw [← hbatch]
  exact List.mem_append_right _ hid

/-- Draining cuts the queue in two, with something in the first part. -/
theorem drainLoop_spec (members : Nat → Option Entry) : ∀ (queue : List Nat) (empty : Bool) (nrec : Nat),
    (∀ id ∈ queue, (members id).isSome) → ∃ batch rest, Sys.drainLoop members empty nrec queue = some (batch, rest) ∧
      batch ++ rest = queue ∧ (empty = true → queue ≠ [] → batch ≠ [])
  | [], _, _, _ => ⟨[], [], rfl, rfl, fun _ h => absurd rfl h⟩
  | id :: queue, empty, nrec, hall => by
    obtain ⟨m, hm⟩ := Option.isSome_iff_exists.1 (hall id (by simp))
    simp only [Sys.drainLoop, hm]
    split_ifs with hfull
    · refine ⟨[], id :: queue, rfl, rfl, fun hempty => ?_⟩
      rw [hempty] at hfull
      simp at hfull
    · obtain ⟨batch, rest, hloop, hcut, -⟩ :=
        drainLoop_spec members queue false (nrec + m.records.length) fun id' hid' => hall id' (by simp [hid'])
      rw [hloop]
      exact ⟨id :: batch, rest, rfl, by simp [hcut], fun _ _ => by simp⟩

theorem Inv.drainBatch {id : Nat} (h : Inv s) (hpc : s.pc t = .draining id) :
    ∃ s', s.drainBatch t id = some s' ∧ Inv s' := by
  have hleads : (s.pc t).leads = true := by rw [hpc]; rfl
  have hleader := h.threads.leader t hleads
  rw [hpc] at hleader
  obtain ⟨hqueue, hsettled⟩ := hleader
  obtain ⟨batch, rest, hloop, hcut, hsome⟩ := drainLoop_spec s.inner.members s.inner.queue true 0 fun id' hid' => by
    obtain ⟨m, -, hm⟩ := h.queued_entry hid'
    rw [hm]
    rfl
  refine ⟨_, by rw [Sys.drainBatch, hloop]; rfl, ?_⟩
  refine ⟨h.nextId, ?_, h.entries, h.returned, h.returnedOnce, h.sound, fun hactive => ?_, h.positive, h.ascending,
    h.lines, ?_⟩
  · simp only [List.flatten_append, List.flatten_singleton, List.append_assoc, hcut]
    exact h.order
  · exact absurd ((h.leaderActive hleads).symm.trans hactive) (by simp)
  · refine h.threads.lead (t := t) rfl rfl rfl rfl rfl hleads rfl (by rw [hpc]; rfl) ⟨hsome rfl hqueue, ?_, ?_⟩
    · show s.hist.appendedIds ++ [batch] = s.hist.batches ++ [batch]
      rw [hsettled.appends]
    · show s.hist.resolvedIds ++ batch = (s.hist.batches ++ [batch]).flatten
      rw [hsettled.resolved, List.flatten_append, List.flatten_singleton]

/-- Gathering finds every member's records. -/
theorem gather_spec {members : Nat → Option Entry} {h : History} : ∀ (batch : List Nat),
    (∀ id ∈ batch, ∃ m, h.submitted[id - 1]? = some m ∧ members id = some ⟨m.owner, m.records, none, false⟩) →
      Sys.gather members batch = some (batch.flatMap h.records, batch.map h.slice)
  | [], _ => rfl
  | id :: batch, hall => by
    obtain ⟨m, hm, hmember⟩ := hall id (by simp)
    have hrecords : h.records id = m.records := by simp [History.records, hm]
    have hslice : h.slice id = ⟨id, m.owner, m.records.length⟩ := by simp [History.slice, hm, hrecords]
    have hrest := gather_spec batch fun id' hid' => hall id' (by simp [hid'])
    simp only [Sys.gather, hmember, hrest, Option.map_some, List.flatMap_cons, List.map_cons, hrecords, hslice]

theorem Inv.gatherBatch {id : Nat} {batch : List Nat} (h : Inv s) (hpc : s.pc t = .drained id batch) :
    ∃ s', s.gatherBatch t id batch = some s' ∧ Inv s' := by
  have hleads : (s.pc t).leads = true := by rw [hpc]; rfl
  have hleader := h.threads.leader t hleads
  rw [hpc] at hleader
  obtain ⟨hbatch, hdrained⟩ := hleader
  have hgather := gather_spec (h := s.hist) batch fun id' hid' =>
    h.batch_entry hdrained.resolved hid'
  have hempty : batch.isEmpty = false := by simpa using hbatch
  refine ⟨_, by rw [Sys.gatherBatch, hempty, hgather]; rfl, ?_⟩
  exact h.lead s.store hleads rfl (by rw [hpc]; rfl) ⟨batch, hdrained, rfl, rfl⟩

theorem mem_number {first id : Nat} {records : List WalOp} {l : Line} (hl : l ∈ Sys.number first id records) :
    first ≤ l.lsn ∧ l.lsn < first + records.length ∧ l.id = id := by
  obtain ⟨⟨op, lsn⟩, hp, rfl⟩ := List.mem_map.1 hl
  obtain ⟨hle, hlt, -⟩ := List.mem_zipIdx hp
  exact ⟨hle, by simpa [add_comm] using hlt, rfl⟩

theorem number_ascending {id : Nat} : ∀ (records : List WalOp) (first : Nat), Ascending (Sys.number first id records)
  | [], _ => .nil
  | op :: records, first => by
    refine .cons (fun l hl => ?_) (number_ascending records (first + 1))
    obtain ⟨hle, -, hid⟩ := mem_number hl
    exact ⟨by show first < l.lsn; omega, by rw [hid]⟩

theorem mem_numberBatch {h : History} {l : Line} : ∀ {batch : List Nat} {first : Nat}, l ∈ Sys.numberBatch h.records first batch →
    first ≤ l.lsn ∧ l.lsn < first + (batch.flatMap h.records).length ∧ l.id ∈ batch
  | [], _, hl => by cases hl
  | id :: batch, first, hl => by
    rw [List.flatMap_cons, List.length_append]
    rcases List.mem_append.1 hl with hl | hl
    · obtain ⟨hle, hlt, hid⟩ := mem_number hl
      exact ⟨hle, by omega, by simp [hid]⟩
    · obtain ⟨hle, hlt, hid⟩ := mem_numberBatch hl
      exact ⟨by omega, by omega, by simp [hid]⟩

/-- Numbering a batch in ascending order of ids ascends. -/
theorem numberBatch_ascending {h : History} : ∀ {batch : List Nat} (first : Nat), batch.Pairwise (· < ·) →
    Ascending (Sys.numberBatch h.records first batch)
  | [], _, _ => .nil
  | id :: batch, first, hsorted => by
    obtain ⟨hid, hrest⟩ := List.pairwise_cons.1 hsorted
    refine List.pairwise_append.2 ⟨number_ascending _ first, numberBatch_ascending _ hrest, fun a ha b hb => ?_⟩
    obtain ⟨-, hlt, rfl⟩ := mem_number ha
    obtain ⟨hle, -, hmem⟩ := mem_numberBatch hb
    exact ⟨by omega, (hid b.id hmem).le⟩

theorem Inv.ids_sorted (h : Inv s) : (s.hist.batches.flatten ++ s.inner.queue).Pairwise (· < ·) := by
  rw [h.order]
  exact List.pairwise_lt_range'

/-- A result stays sound while the history grows. -/
theorem History.Sound.grow {h : History} {id : Nat} {r : CommitResult} (hsound : h.Sound id r) (a : Append)
    (lines : List Line) : ({ h with appends := h.appends ++ [a], log := h.log ++ lines } : History).Sound id r := by
  cases r with
  | ok lsn =>
    obtain ⟨⟨a', ha', hid, hok⟩, first, hlines, hlsn⟩ := hsound
    exact ⟨⟨a', List.mem_append_left _ ha', hid, hok⟩, first, hlines.trans (List.prefix_append _ _).isInfix, hlsn⟩
  | error e =>
    obtain ⟨a', ha', hid, hfailure⟩ := hsound
    exact ⟨a', List.mem_append_left _ ha', hid, hfailure⟩

theorem map_id_slice (h : History) (batch : List Nat) : (batch.map h.slice).map Slice.id = batch := by
  rw [List.map_map]
  exact List.map_id' batch

/-- An append that fails leaves everything but the leader's place. -/
theorem Inv.append_error {id : Nat} {all : List WalOp} {members : List Slice} (h : Inv s)
    (hpc : s.pc t = .gathered id all members) (e : StorageError) :
    ∃ s', s.append t id all members (.error e) = some s' ∧ Inv s' := by
  have hleads : (s.pc t).leads = true := by rw [hpc]; rfl
  have hleader := h.threads.leader t hleads
  rw [hpc] at hleader
  obtain ⟨batch, hdrained, -, rfl⟩ := hleader
  have happended : s.hist.appendedIds ++ [batch] = s.hist.batches := hdrained.appends
  refine ⟨_, rfl, h.nextId, h.order, h.entries, h.returned, h.returnedOnce, fun r hr => ?_, fun hactive => ?_,
    h.positive, h.ascending, fun l hl => ?_, ?_⟩
  · have hgrow := (h.sound r hr).grow ⟨batch, .error e⟩ []
    rw [List.append_nil] at hgrow
    rw [map_id_slice]
    exact hgrow
  · exact absurd ((h.leaderActive hleads).symm.trans hactive) (by simp)
  · obtain ⟨hlt, hmem⟩ := h.lines l hl
    refine ⟨hlt, ?_⟩
    simp only [History.appendedIds, List.map_append, List.flatten_append]
    exact List.mem_append_left _ hmem
  · refine h.threads.lead (t := t) rfl rfl rfl rfl rfl hleads rfl (by rw [hpc]; rfl)
      ⟨batch, ⟨?_, hdrained.resolved⟩, rfl, _, List.mem_append_right _ (List.mem_singleton_self _), ?_, rfl⟩
    · simp only [History.appendedIds, List.map_append, List.map_singleton, map_id_slice]
      exact happended
    · exact map_id_slice _ _

/-- An append that succeeds puts the batch's records in the log. -/
theorem Inv.append_ok {id : Nat} {all : List WalOp} {members : List Slice} {last : Nat} (h : Inv s)
    (hpc : s.pc t = .gathered id all members) (hstep : s.append t id all members (.ok last) = some s') : Inv s' := by
  have hleads : (s.pc t).leads = true := by rw [hpc]; rfl
  have hleader := h.threads.leader t hleads
  rw [hpc] at hleader
  obtain ⟨batch, hdrained, rfl, rfl⟩ := hleader
  have happended : s.hist.appendedIds ++ [batch] = s.hist.batches := hdrained.appends
  simp only [Sys.append, map_id_slice] at hstep
  split_ifs at hstep with hlsn
  obtain rfl := Option.some.inj hstep
  set first := last + 1 - (batch.flatMap s.hist.records).length with hfirst
  -- The batch comes after everything appended before it.
  have hflat : s.hist.batches.flatten = s.hist.appendedIds.flatten ++ batch := by
    rw [← happended, List.flatten_append, List.flatten_singleton]
  have hsorted := h.ids_sorted
  rw [hflat, List.append_assoc] at hsorted
  obtain ⟨-, hrest, hbefore⟩ := List.pairwise_append.1 hsorted
  refine ⟨h.nextId, h.order, h.entries, h.returned, h.returnedOnce, fun r hr => (h.sound r hr).grow _ _,
    fun hactive => ?_, by show 1 ≤ last + 1; omega, ?_, fun l hl => ?_, ?_⟩
  · exact absurd ((h.leaderActive hleads).symm.trans hactive) (by simp)
  · refine List.pairwise_append.2
      ⟨h.ascending, numberBatch_ascending first (List.pairwise_append.1 hrest).1, fun a ha b hb => ?_⟩
    obtain ⟨hlt, hmem⟩ := h.lines a ha
    obtain ⟨hle, -, hmem'⟩ := mem_numberBatch hb
    exact ⟨by omega, (hbefore a.id hmem b.id (List.mem_append_left _ hmem')).le⟩
  · show l.lsn < last + 1 ∧ l.id ∈ List.flatten (List.map Append.ids (s.hist.appends ++ [⟨batch, .ok last⟩]))
    rw [List.map_append, List.flatten_append]
    rcases List.mem_append.1 hl with hl | hl
    · obtain ⟨hlt, hmem⟩ := h.lines l hl
      exact ⟨by omega, List.mem_append_left _ hmem⟩
    · obtain ⟨hle, hlt, hmem⟩ := mem_numberBatch hl
      exact ⟨by omega, List.mem_append_right _ (by simpa using hmem)⟩
  · refine h.threads.lead (t := t) rfl rfl rfl rfl rfl hleads rfl (by rw [hpc]; rfl)
      ⟨batch, first, ⟨?_, hdrained.resolved⟩, rfl, ⟨_, List.mem_append_right _ (List.mem_singleton_self _), rfl, rfl⟩,
        ?_, ?_, ?_⟩
    · simp only [History.appendedIds, List.map_append, List.map_singleton]
      exact happended
    · exact (List.suffix_append _ _).isInfix
    · have := h.positive
      omega
    · show first + (batch.flatMap s.hist.records).length = last + 1
      omega

/-- The results of a published batch: each member's, at the last record of its slice. -/
def resultsFrom : (first : Nat) → List Slice → List (Nat × Nat)
  | _, [] => []
  | first, m :: members => (m.id, first + m.len - 1) :: resultsFrom (first + m.len) members

theorem foldl_publishMember (first : Nat) : ∀ (members : List Slice) (l : Sys.PublishLoop),
    (members.foldl (Sys.publishMember first) l).results = l.results ++ resultsFrom (first + l.acc) members
  | [], l => by simp [resultsFrom]
  | m :: members, l => by
    rw [List.foldl_cons, foldl_publishMember first members]
    simp only [Sys.publishMember, resultsFrom, List.append_assoc, List.singleton_append, add_assoc]

theorem resultsFrom_ids (first : Nat) (members : List Slice) :
    (resultsFrom first members).map Prod.fst = members.map Slice.id := by
  induction members generalizing first with
  | nil => rfl
  | cons m members ih => simp [resultsFrom, ih]

theorem records_pos {h : History} {id : Nat} {m : Member} (hm : h.submitted[id - 1]? = some m) :
    0 < (h.records id).length := by
  simp [History.records, hm, Member.records]

/-- The result of a member is where its `Commit` marker stands. -/
theorem resultsFrom_marked {h : History} : ∀ {batch : List Nat} {first : Nat} {id lsn : Nat},
    (∀ id ∈ batch, 0 < (h.records id).length) → (id, lsn) ∈ resultsFrom first (batch.map h.slice) →
      ∃ start, Sys.number start id (h.records id) <:+: Sys.numberBatch h.records first batch ∧
        lsn + 1 = start + (h.records id).length
  | [], _, _, _, _, hmem => by cases hmem
  | id' :: batch, first, id, lsn, hpos, hmem => by
    rcases List.mem_cons.1 hmem with heq | hmem
    · obtain ⟨rfl, rfl⟩ := Prod.mk.inj heq
      refine ⟨first, (List.prefix_append _ _).isInfix, ?_⟩
      have := hpos id (by simp)
      show first + (h.records id).length - 1 + 1 = _
      omega
    · obtain ⟨start, hlines, hlsn⟩ := resultsFrom_marked (fun id hid => hpos id (by simp [hid])) hmem
      exact ⟨start, hlines.trans (List.suffix_append _ _).isInfix, hlsn⟩

theorem sum_slices (h : History) (batch : List Nat) :
    ((batch.map h.slice).map Slice.len).sum = (batch.flatMap h.records).length := by
  rw [List.length_flatMap, List.map_map]
  rfl

theorem Inv.publish {id : Nat} {members : List Slice} {last : Nat} (h : Inv s)
    (hpc : s.pc t = .appended id members last) : Inv (s.publish t id members last) := by
  have hleads : (s.pc t).leads = true := by rw [hpc]; rfl
  have hleader := h.threads.leader t hleads
  rw [hpc] at hleader
  obtain ⟨batch, first, happended, rfl, ⟨a, ha, hids, hok⟩, hlines, hlast⟩ := hleader
  refine h.lead _ hleads rfl (by rw [hpc]; rfl) ?_
  have hpos : ∀ id ∈ batch, 0 < (s.hist.records id).length := by
    intro id hid
    obtain ⟨m, hm, -⟩ := h.batch_entry happended.resolved hid
    exact records_pos hm
  have hresults : (Sys.publishLoop (last - ((batch.map s.hist.slice).map Slice.len).sum + 1) s.store
      (batch.map s.hist.slice)).results = resultsFrom (last - (batch.flatMap s.hist.records).length + 1)
        (batch.map s.hist.slice) := by
    rw [Sys.publishLoop, foldl_publishMember, sum_slices]
    rfl
  refine ⟨?_, fun r hr => ?_⟩
  · rw [hresults, List.map_map]
    have hfst : (Prod.fst ∘ fun r : Nat × Nat => (r.1, (Except.ok r.2 : CommitResult))) = Prod.fst := rfl
    rw [hfst, resultsFrom_ids, map_id_slice]
    exact happended
  · rw [hresults] at hr
    obtain ⟨⟨id', lsn⟩, hmem, rfl⟩ := List.mem_map.1 hr
    have hid' : id' ∈ batch := by
      have := List.mem_map_of_mem (f := Prod.fst) hmem
      rwa [resultsFrom_ids, map_id_slice] at this
    -- LSNs count from 1, so the source's subtraction does not go below zero.
    have hstart : last - (batch.flatMap s.hist.records).length + 1 = first := by omega
    rw [hstart] at hmem
    obtain ⟨start, hmarked, hlsn⟩ := resultsFrom_marked hpos hmem
    exact ⟨⟨a, ha, hids ▸ hid', last, hok⟩, start, hmarked.trans hlines, hlsn⟩

theorem Inv.discard {id : Nat} {members : List Slice} {e : StorageError} (h : Inv s)
    (hpc : s.pc t = .failed id members e) : Inv (s.discard t id members e) := by
  have hleads : (s.pc t).leads = true := by rw [hpc]; rfl
  have hleader := h.threads.leader t hleads
  rw [hpc] at hleader
  obtain ⟨batch, happended, rfl, a, ha, hids, herror⟩ := hleader
  refine h.lead _ hleads rfl (by rw [hpc]; rfl) ⟨?_, fun r hr => ?_⟩
  · rw [List.map_map]
    have hfst : (Prod.fst ∘ fun m : Slice => (m.id, (Except.error (commitError e) : CommitResult))) = Slice.id := rfl
    rw [hfst, map_id_slice]
    exact happended
  · obtain ⟨m, hm, rfl⟩ := List.mem_map.1 hr
    have hid : m.id ∈ batch := by
      have := List.mem_map_of_mem (f := Slice.id) hm
      rwa [map_id_slice] at this
    exact ⟨a, ha, hids ▸ hid, e, herror, rfl⟩

/-! ## Resolving and handing back -/

@[simp] theorem leads_unpark (pc : Pc) : (Sys.unpark pc).leads = pc.leads := by cases pc <;> rfl

@[simp] theorem member_unpark (pc : Pc) : (Sys.unpark pc).member = pc.member := by cases pc <;> rfl

theorem unpark_ne_parked (pc : Pc) (id : Nat) : Sys.unpark pc ≠ .parked id := by cases pc <;> simp [Sys.unpark]

theorem unpark_ne_quiesceParked (pc : Pc) : Sys.unpark pc ≠ .quiesceParked := by cases pc <;> simp [Sys.unpark]

/-- The leader moves, to stay leader or not, and wakes everyone. -/
theorem Threads.notify {pc : Pc} (h : Threads s) (hpc : s'.pc = fun u => Sys.unpark (Function.update s.pc t pc u))
    (hsub : s'.hist.submitted = s.hist.submitted) (hret : s'.hist.returned = s.hist.returned)
    (hold : (s.pc t).leads = true) (hmember : pc.member = (s.pc t).member)
    (hactive : s'.inner.leaderActive = pc.leads)
    (hleader : LeaderAt s'.hist s'.inner.queue (Sys.unpark pc)) : Threads s' := by
  have hmembers : ∀ u, (s'.pc u).member = (s.pc u).member := by
    intro u
    rw [hpc, member_unpark]
    rcases eq_or_ne u t with rfl | hu
    · rw [Function.update_self, hmember]
    · rw [Function.update_of_ne hu]
  -- Whoever leads now is the thread that moved.
  have hself : ∀ {u}, (s'.pc u).leads = true → u = t := by
    intro u hu
    by_contra hne
    rw [hpc, leads_unpark, Function.update_of_ne hne] at hu
    exact hne (h.one u t hu hold)
  have hleads : (s'.pc t).leads = pc.leads := by rw [hpc, leads_unpark, Function.update_self]
  refine ⟨fun u id hu => ?_, fun u v id hu hv => ?_, fun u id hu => ?_, fun u hu => ?_,
    fun u v hu hv => (hself hu).trans (hself hv).symm, ?_, fun u hu => ?_⟩
  · rw [hmembers] at hu
    rw [hsub, History.returnedIds, hret]
    exact h.own u id hu
  · rw [hmembers] at hu hv
    exact h.apart u v id hu hv
  · rw [hpc] at hu
    exact absurd hu (unpark_ne_parked _ _)
  · rw [hpc] at hu
    exact absurd hu (unpark_ne_quiesceParked _)
  · rw [hactive]
    constructor
    · exact fun hpcl => ⟨t, hleads.trans hpcl⟩
    · rintro ⟨u, hu⟩
      rw [← hleads, ← hself hu]
      exact hu
  · obtain rfl := hself hu
    have hpcu : s'.pc u = Sys.unpark pc := by simp only [hpc, Function.update_self]
    rw [hpcu]
    exact hleader

theorem setResult_of_ne {members : Nat → Option Entry} {r : Nat × CommitResult} {id : Nat} (hne : id ≠ r.1) :
    Sys.setResult members r id = members id := by
  unfold Sys.setResult
  cases members r.1 with
  | none => rfl
  | some m => exact Function.update_of_ne hne ..

theorem foldl_setResult_of_not_mem : ∀ {results : List (Nat × CommitResult)} (members : Nat → Option Entry) {id : Nat},
    id ∉ results.map Prod.fst → (results.foldl Sys.setResult members) id = members id
  | [], _, _, _ => rfl
  | r :: results, members, id, hid => by
    rw [List.map_cons, List.mem_cons, not_or] at hid
    rw [List.foldl_cons, foldl_setResult_of_not_mem _ hid.2, setResult_of_ne hid.1]

theorem foldl_setResult_of_mem : ∀ {results : List (Nat × CommitResult)} {members : Nat → Option Entry} {id : Nat}
    {r : CommitResult} {m : Entry}, (results.map Prod.fst).Nodup → (id, r) ∈ results → members id = some m →
      (results.foldl Sys.setResult members) id = some { m with result := some r, done := true }
  | r' :: results, members, id, r, m, hnodup, hmem, hm => by
    obtain ⟨hfresh, hnodup⟩ := List.nodup_cons.1 hnodup
    rw [List.foldl_cons]
    rcases List.mem_cons.1 hmem with rfl | hmem
    · rw [foldl_setResult_of_not_mem _ hfresh]
      simp only [Sys.setResult, hm, Function.update_self]
    · refine foldl_setResult_of_mem hnodup hmem ?_
      rw [setResult_of_ne, hm]
      rintro rfl
      exact hfresh (List.mem_map.2 ⟨_, hmem, rfl⟩)

theorem Inv.resolve {id : Nat} {results : List (Nat × CommitResult)} (h : Inv s)
    (hpc : s.pc t = .resolving id results) : Inv (s.resolve t id results) := by
  have hleads : (s.pc t).leads = true := by rw [hpc]; rfl
  have hleader := h.threads.leader t hleads
  rw [hpc] at hleader
  obtain ⟨happended, hsound⟩ := hleader
  have hresolved : (s.resolve t id results).hist.resolvedIds = s.hist.resolvedIds ++ results.map Prod.fst :=
    List.map_append
  have hnodup : (results.map Prod.fst).Nodup := by
    have := h.ids_nodup
    rw [← happended.resolved] at this
    exact (List.nodup_append.1 (List.nodup_append.1 this).1).2.1
  refine ⟨h.nextId, h.order, fun id' m hpos hm => ?_, fun r hr => List.mem_append_left _ (h.returned r hr),
    h.returnedOnce, fun r hr => ?_, fun hactive => ?_, h.positive, h.ascending, h.lines, ?_⟩
  · by_cases hid : id' ∈ results.map Prod.fst
    · -- A member of this batch had no result; now it has the one given.
      obtain ⟨⟨id₀, r⟩, hr, rfl⟩ := List.mem_map.1 hid
      have hunresolved : id₀ ∉ s.hist.resolvedIds := h.unresolved happended.resolved (List.mem_append_left _ hid)
      obtain ⟨m', hm', hmember⟩ := h.batch_entry happended.resolved hid
      obtain rfl : m = m' := Option.some.inj (hm.symm.trans hm')
      refine .inr ⟨fun hret => hunresolved (h.returned_mem hret), some r, ?_, fun r' => ?_⟩
      · exact foldl_setResult_of_mem hnodup hr hmember
      · constructor
        · intro heq
          obtain rfl := Option.some.inj heq
          exact List.mem_append_right _ hr
        · intro hr'
          rcases List.mem_append.1 hr' with hr' | hr'
          · exact absurd (List.mem_map_of_mem (f := Prod.fst) hr') hunresolved
          · rw [Prod.mk.inj (List.inj_on_of_nodup_map hnodup hr hr' rfl) |>.2]
    · have hkept : (s.resolve t id results).inner.members id' = s.inner.members id' :=
        foldl_setResult_of_not_mem _ hid
      rcases h.entries id' m hpos hm with ⟨hret, hnone⟩ | ⟨hret, result, hmember, hresult⟩
      · exact .inl ⟨hret, hkept.trans hnone⟩
      · refine .inr ⟨hret, result, hkept.trans hmember, fun r => (hresult r).trans ?_⟩
        constructor
        · exact List.mem_append_left _
        · intro hr
          rcases List.mem_append.1 hr with hr | hr
          · exact hr
          · exact absurd (List.mem_map_of_mem (f := Prod.fst) hr) hid
  · rcases List.mem_append.1 hr with hr | hr
    · exact h.sound r hr
    · exact hsound r hr
  · exact absurd ((h.leaderActive hleads).symm.trans hactive) (by simp)
  · refine h.threads.notify (t := t) rfl rfl rfl hleads (by rw [hpc]; rfl) (h.leaderActive hleads)
      ⟨happended.appends, ?_⟩
    rw [hresolved]
    exact happended.resolved

theorem Inv.handBack {id : Nat} (h : Inv s) (hpc : s.pc t = .flushed id) : Inv (s.handBack t id) := by
  have hleads : (s.pc t).leads = true := by rw [hpc]; rfl
  have hleader := h.threads.leader t hleads
  rw [hpc] at hleader
  unfold Sys.handBack
  split_ifs with hempty
  · have hqueue : s.inner.queue = [] := List.isEmpty_iff.1 hempty
    refine ⟨h.nextId, h.order, h.entries, h.returned, h.returnedOnce, h.sound, fun _ => ⟨hqueue, hleader⟩, h.positive,
      h.ascending, h.lines, ?_⟩
    exact h.threads.notify (t := t) rfl rfl rfl hleads (by rw [hpc]; rfl) rfl trivial
  · have hqueue : s.inner.queue ≠ [] := by simpa using hempty
    exact h.lead s.store hleads rfl (by rw [hpc]; rfl) ⟨hqueue, hleader⟩

/-! ## Returning -/

/-- What was returned is nothing to the leader. -/
theorem LeaderAt.returned {h : History} {queue : List Nat} {pc : Pc} (hleader : LeaderAt h queue pc)
    (returned : List (Nat × CommitResult)) : LeaderAt { h with returned := returned } queue pc := by
  cases pc with
  | releasing _ _ => exact ⟨hleader.1, hleader.2.1, hleader.2.2⟩
  | draining _ => exact ⟨hleader.1, hleader.2.1, hleader.2.2⟩
  | drained _ batch => exact ⟨hleader.1, hleader.2.1, hleader.2.2⟩
  | gathered _ all members =>
    obtain ⟨batch, hdrained, hrest⟩ := hleader
    exact ⟨batch, ⟨hdrained.1, hdrained.2⟩, hrest⟩
  | appended _ members last =>
    obtain ⟨batch, first, happended, hrest⟩ := hleader
    exact ⟨batch, first, ⟨happended.1, happended.2⟩, hrest⟩
  | failed _ members e =>
    obtain ⟨batch, happended, hrest⟩ := hleader
    exact ⟨batch, ⟨happended.1, happended.2⟩, hrest⟩
  | resolving _ results => exact ⟨⟨hleader.1.1, hleader.1.2⟩, hleader.2⟩
  | flushed _ => exact ⟨hleader.1, hleader.2⟩
  | outside => trivial
  | awaiting _ => trivial
  | parked _ => trivial
  | quiescing => trivial
  | quiesceParked => trivial

/-- A thread that returns has no member any more, and no other thread had that one. -/
theorem Threads.reclaim {id : Nat} {r : CommitResult} (h : Threads s) (hpc : s.pc t = .awaiting id) :
    Threads { s.goto t .outside with
      inner := { s.inner with members := Function.update s.inner.members id none }
      hist := { s.hist with returned := s.hist.returned ++ [(id, r)] } } := by
  have hmember : (s.pc t).member = some id := by rw [hpc]; rfl
  have hself : Function.update s.pc t .outside t = .outside := Function.update_self ..
  have hother : ∀ {u}, u ≠ t → Function.update s.pc t .outside u = s.pc u := fun hu => Function.update_of_ne hu ..
  refine ⟨fun u id' hu => ?_, fun u v id' hu hv => ?_, fun u id' hu => ?_, fun u hu => ?_, fun u v hu hv => ?_, ?_,
    fun u hu => ?_⟩ <;> simp only [Sys.goto] at *
  · rcases eq_or_ne u t with rfl | hne
    · rw [hself] at hu
      cases hu
    · rw [hother hne] at hu
      obtain ⟨hpos, hle, hret⟩ := h.own u id' hu
      refine ⟨hpos, hle, fun hin => ?_⟩
      rw [History.returnedIds, List.map_append, List.mem_append] at hin
      rcases hin with hin | hin
      · exact hret hin
      · obtain rfl := List.mem_singleton.1 hin
        exact hne (h.apart u t _ hu hmember)
  · rcases eq_or_ne u t with rfl | hu'
    · rw [hself] at hu
      cases hu
    · rcases eq_or_ne v t with rfl | hv'
      · rw [hself] at hv
        cases hv
      · rw [hother hu'] at hu
        rw [hother hv'] at hv
        exact h.apart u v id' hu hv
  · rcases eq_or_ne u t with rfl | hne
    · rw [hself] at hu
      cases hu
    · rw [hother hne] at hu
      exact h.parked u id' hu
  · rcases eq_or_ne u t with rfl | hne
    · rw [hself] at hu
      cases hu
    · rw [hother hne] at hu
      exact h.quiet u hu
  · rcases eq_or_ne u t with rfl | hu'
    · rw [hself] at hu
      cases hu
    · rcases eq_or_ne v t with rfl | hv'
      · rw [hself] at hv
        cases hv
      · rw [hother hu'] at hu
        rw [hother hv'] at hv
        exact h.one u v hu hv
  · rw [h.active]
    constructor
    · rintro ⟨u, hu⟩
      refine ⟨u, ?_⟩
      rcases eq_or_ne u t with rfl | hne
      · rw [hpc] at hu
        cases hu
      · rwa [hother hne]
    · rintro ⟨u, hu⟩
      rcases eq_or_ne u t with rfl | hne
      · rw [hself] at hu
        cases hu
      · exact ⟨u, by rwa [hother hne] at hu⟩
  · rcases eq_or_ne u t with rfl | hne
    · rw [hself] at hu
      cases hu
    · rw [hother hne] at hu ⊢
      exact (h.leader u hu).returned _

theorem Inv.reclaim {id : Nat} (h : Inv s) (hpc : s.pc t = .awaiting id) : ∃ s', s.reclaim t id = some s' ∧ Inv s' := by
  have hleads : (s.pc t).leads = false := by rw [hpc]; rfl
  have hmember : (s.pc t).member = some id := by rw [hpc]; rfl
  obtain ⟨hpos, hle, hret⟩ := h.threads.own t id hmember
  have hlt : id - 1 < s.hist.submitted.length := by omega
  obtain ⟨m, hm⟩ : ∃ m, s.hist.submitted[id - 1]? = some m := ⟨_, List.getElem?_eq_getElem hlt⟩
  rcases h.entries id m hpos hm with ⟨hret', -⟩ | ⟨-, result, hentry, hresult⟩
  · exact absurd hret' hret
  cases result with
  | none =>
    refine ⟨_, by rw [Sys.reclaim, hentry]; rfl, ?_⟩
    refine h.goto s.store (by rw [hleads]; rfl) (by rw [hpc]; rfl) ?_ (fun hquiet => nomatch hquiet) fun hno => nomatch hno
    intro id' hparked hres
    obtain rfl := Pc.parked.inj hparked
    obtain ⟨⟨id', r⟩, hr, rfl⟩ := List.mem_map.1 hres
    exact nomatch (hresult r).2 hr
  | some r =>
    refine ⟨_, by rw [Sys.reclaim, hentry]; rfl, ?_⟩
    have hreturned : ∀ {id' : Nat}, id' ≠ id → (id' ∈ (s.hist.returned ++ [(id, r)]).map Prod.fst ↔
        id' ∈ s.hist.returnedIds) := by
      intro id' hne
      simp only [List.map_append, List.map_singleton, List.mem_append, List.mem_singleton, hne, or_false]
      rfl
    refine ⟨h.nextId, h.order, fun id' m' hpos' hm' => ?_, fun r' hr' => ?_, ?_, h.sound, fun hactive => ?_, h.positive,
      h.ascending, h.lines, .reclaim h.threads hpc⟩
    · rcases eq_or_ne id' id with rfl | hne
      · exact .inl ⟨by simp [History.returnedIds], Function.update_self ..⟩
      · have hkept : Function.update s.inner.members id none id' = s.inner.members id' := Function.update_of_ne hne ..
        rcases h.entries id' m' hpos' hm' with ⟨hin, hnone⟩ | ⟨hout, hkeep⟩
        · exact .inl ⟨(hreturned hne).2 hin, hkept.trans hnone⟩
        · obtain ⟨result, hentry', hresult'⟩ := hkeep
          exact .inr ⟨fun hin => hout ((hreturned hne).1 hin), result, hkept.trans hentry', hresult'⟩
    · rcases List.mem_append.1 hr' with hr' | hr'
      · exact h.returned r' hr'
      · obtain rfl := List.mem_singleton.1 hr'
        exact (hresult r).1 rfl
    · show ((s.hist.returned ++ [(id, r)]).map Prod.fst).Nodup
      rw [List.map_append, List.map_singleton, List.nodup_append]
      refine ⟨h.returnedOnce, List.nodup_singleton _, fun a ha b hb => ?_⟩
      obtain rfl := List.mem_singleton.1 hb
      rintro rfl
      exact hret ha
    · obtain ⟨hqueue, hsettled⟩ := h.idle hactive
      exact ⟨hqueue, hsettled.1, hsettled.2⟩

/-! ## Every step -/

/-- The thread is at work: it has a critical section to run. -/
def Pc.runs : Pc → Bool
  | .outside => false
  | .gathered .. => false
  | .parked _ => false
  | .quiesceParked => false
  | _ => true

theorem run_of_not_runs (hpc : (s.pc t).runs = false) : s.run t = none := by
  unfold Sys.run
  revert hpc
  cases s.pc t with
  | outside => exact fun _ => rfl
  | gathered _ _ _ => exact fun _ => rfl
  | parked _ => exact fun _ => rfl
  | quiesceParked => exact fun _ => rfl
  | _ => exact fun hpc => nomatch hpc

theorem Inv.lookQuiesced (h : Inv s) (hpc : s.pc t = .quiescing) : Inv (s.lookQuiesced t) := by
  have hleads : (s.pc t).leads = false := by rw [hpc]; rfl
  unfold Sys.lookQuiesced
  split_ifs with hbusy
  · refine h.goto s.store (by rw [hleads]; rfl) (by rw [hpc]; rfl) (fun _ hparked => nomatch hparked) (fun _ => ?_)
      fun hno => nomatch hno
    cases hactive : s.inner.leaderActive with
    | true => rfl
    | false =>
      rw [hactive, (h.idle hactive).1] at hbusy
      cases hbusy
  · exact h.goto s.store (by rw [hleads]; rfl) (by rw [hpc]; rfl) (fun _ hparked => nomatch hparked)
      (fun hquiet => nomatch hquiet) fun hno => nomatch hno

/-- A thread at work has its next step, no lookup or unwrap fails, and the invariant is kept. -/
theorem Inv.run (h : Inv s) (hruns : (s.pc t).runs = true) : ∃ s', s.run t = some s' ∧ Inv s' := by
  unfold Sys.run
  cases hpc : s.pc t with
  | releasing id leader =>
    refine ⟨_, rfl, ?_⟩
    have hleader := h.threads.leader t
    rw [hpc] at hleader
    cases leader with
    | true => exact h.lead s.store (by rw [hpc]; rfl) rfl (by rw [hpc]; rfl) (hleader rfl)
    | false =>
      exact h.goto s.store (by rw [hpc]; rfl) (by rw [hpc]; rfl) (fun _ hparked => nomatch hparked)
        (fun hquiet => nomatch hquiet) fun hno => nomatch hno
  | draining id => exact h.drainBatch hpc
  | drained id batch => exact h.gatherBatch hpc
  | appended id members last => exact ⟨_, rfl, h.publish hpc⟩
  | failed id members e => exact ⟨_, rfl, h.discard hpc⟩
  | resolving id results => exact ⟨_, rfl, h.resolve hpc⟩
  | flushed id => exact ⟨_, rfl, h.handBack hpc⟩
  | awaiting id => exact h.reclaim hpc
  | quiescing => exact ⟨_, rfl, h.lookQuiesced hpc⟩
  | outside =>
    rw [hpc] at hruns
    cases hruns
  | gathered id all members =>
    rw [hpc] at hruns
    cases hruns
  | parked id =>
    rw [hpc] at hruns
    cases hruns
  | quiesceParked =>
    rw [hpc] at hruns
    cases hruns

theorem Inv.step {a : Act} (h : Inv s) (hstep : step s a = some s') : Inv s' := by
  cases a with
  | commit t m =>
    cases hpc : s.pc t <;> simp only [GroupCommit.step, hpc] at hstep <;> cases hstep
    exact h.enqueue hpc m
  | quiesce t =>
    cases hpc : s.pc t <;> simp only [GroupCommit.step, hpc] at hstep <;> cases hstep
    exact h.goto s.store (by rw [hpc]; rfl) (by rw [hpc]; rfl) (fun _ hparked => nomatch hparked)
      (fun hquiet => nomatch hquiet) fun hno => nomatch hno
  | run t =>
    cases hruns : (s.pc t).runs with
    | false => exact nomatch (run_of_not_runs hruns).symm.trans hstep
    | true =>
      obtain ⟨u, hu, hinv⟩ := h.run hruns
      obtain rfl : u = s' := Option.some.inj (hu.symm.trans hstep)
      exact hinv
  | append t answer =>
    cases hpc : s.pc t <;> simp only [GroupCommit.step, hpc] at hstep <;> try cases hstep
    cases answer with
    | ok last => exact h.append_ok hpc hstep
    | error e =>
      obtain ⟨u, hu, hinv⟩ := h.append_error hpc e
      obtain rfl : u = s' := Option.some.inj (hu.symm.trans hstep)
      exact hinv
  | wake t =>
    cases hpc : s.pc t <;> simp only [GroupCommit.step, hpc] at hstep <;> cases hstep
    · exact h.goto s.store (by rw [hpc]; rfl) (by rw [hpc]; rfl) (fun _ hparked => nomatch hparked)
        (fun hquiet => nomatch hquiet) fun hno => nomatch hno
    · exact h.goto s.store (by rw [hpc]; rfl) (by rw [hpc]; rfl) (fun _ hparked => nomatch hparked)
        (fun hquiet => nomatch hquiet) fun hno => nomatch hno

theorem Threads.init (store : Store) : Threads (.init store) := by
  refine ⟨fun t id hid => ?_, fun t u id hid => ?_, fun t id hpc => ?_, fun t hpc => ?_, fun t u ht => ?_,
    iff_of_false (by simp [Sys.init]) fun ⟨t, ht⟩ => ?_, fun t ht => ?_⟩
  · cases hid
  · cases hid
  · cases hpc
  · cases hpc
  · cases ht
  · cases ht
  · cases ht

theorem Inv.init (store : Store) : Inv (.init store) := by
  refine ⟨rfl, rfl, fun id m _ hm => ?_, fun r hr => ?_, .nil, fun r hr => ?_, fun _ => ⟨rfl, rfl, rfl⟩, le_rfl, .nil,
    fun l hl => ?_, .init store⟩
  · cases hm
  · cases hr
  · cases hr
  · cases hl

end Twill.GroupCommit
