/-
What the coordinator guarantees over every interleaving of its threads: one
leader at a time, every member flushed once and in order, results that are the
LSNs of the members' own `Commit` markers, and nobody left waiting.

The last is a bound, not a fairness assumption: while a member has no result, a
leader is active and has a step to take, every step it takes brings the member
nearer to its result, and no step of another thread takes it further away.
-/
import Twill.Commit.CommitInvariant

namespace Twill.GroupCommit

open Storage (StorageError)
open Transition (Reach Plays RunWhere)

variable {s s' : Sys} {t : Nat}

/-! ## How far a member is from its result -/

/-- Steps from here to the end of the leader's turn, where draining begins the next. -/
def Pc.rank : Pc → Nat
  | .releasing .. => 1
  | .draining _ => 0
  | .drained .. => 5
  | .gathered .. => 4
  | .appended .. => 3
  | .failed .. => 3
  | .resolving .. => 2
  | .flushed _ => 1
  | _ => 0

def queueWork (queue : List Nat) (id : Nat) : Nat := if id ∈ queue then 6 * (queue.idxOf id + 1) else 0

/-- How many steps the leader takes, at most, until a member has its result. -/
def work (s : Sys) (t id : Nat) : Nat := queueWork s.inner.queue id + (s.pc t).rank

theorem queueWork_append {queue : List Nat} {id id' : Nat} (hne : id' ≠ id) :
    queueWork (queue ++ [id']) id = queueWork queue id := by
  unfold queueWork
  by_cases hid : id ∈ queue
  · rw [if_pos hid, if_pos (List.mem_append_left _ hid), List.idxOf_append_of_mem hid]
  · have hno : id ∉ queue ++ [id'] := by simp [hid, hne.symm]
    rw [if_neg hid, if_neg hno]

/-- Draining takes a whole turn off what waits behind the batch. -/
theorem queueWork_drained {batch rest : List Nat} {id : Nat} (hbatch : batch ≠ []) (hnodup : (batch ++ rest).Nodup)
    (hid : id ∈ batch ++ rest) : queueWork rest id + 5 < queueWork (batch ++ rest) id := by
  unfold queueWork
  rw [if_pos hid]
  by_cases hrest : id ∈ rest
  · have hno : id ∉ batch := fun hmem => (List.nodup_append.1 hnodup).2.2 id hmem id hrest rfl
    have hpos : 0 < batch.length := List.length_pos_of_ne_nil hbatch
    rw [if_pos hrest, List.idxOf_append_of_notMem hno]
    omega
  · rw [if_neg hrest]
    omega

/-- A member without a result is queued, or in the batch the leader flushes. -/
theorem Inv.leader_of_unresolved {id : Nat} (h : Inv s) (hid : id ∈ List.range' 1 s.hist.submitted.length)
    (hres : id ∉ s.hist.resolvedIds) : s.inner.leaderActive = true := by
  by_contra hactive
  rw [Bool.not_eq_true] at hactive
  obtain ⟨hqueue, hsettled⟩ := h.idle hactive
  rw [← h.order, hqueue, List.append_nil, ← hsettled.resolved] at hid
  exact hres hid

/-- Once a batch is resolved, what has no result is queued. -/
theorem Inv.queued_of_settled {id : Nat} (h : Inv s) (hsettled : s.hist.Settled)
    (hid : id ∈ List.range' 1 s.hist.submitted.length) (hres : id ∉ s.hist.resolvedIds) : id ∈ s.inner.queue := by
  rw [← h.order, ← hsettled.resolved] at hid
  exact (List.mem_append.1 hid).resolve_left hres

/-- A step of the leader brings a member without a result nearer to it. -/
theorem leader_step {a : Act} {id : Nat} (h : Inv s) (ht : (s.pc t).leads = true)
    (hid : id ∈ List.range' 1 s.hist.submitted.length) (hres : id ∉ s.hist.resolvedIds) (hthread : a.thread = t)
    (hstep : step s a = some s') : (s'.pc t).leads = true ∧ work s' t id < work s t id := by
  have hleader := h.threads.leader t ht
  cases a with
  | commit u m =>
    obtain rfl : u = t := hthread
    cases hpc : s.pc u <;> simp only [step, hpc] at hstep <;> cases hstep
    rw [hpc] at ht
    cases ht
  | quiesce u =>
    obtain rfl : u = t := hthread
    cases hpc : s.pc u <;> simp only [step, hpc] at hstep <;> cases hstep
    rw [hpc] at ht
    cases ht
  | wake u =>
    obtain rfl : u = t := hthread
    cases hpc : s.pc u <;> simp only [step, hpc] at hstep <;> cases hstep
    · rw [hpc] at ht
      cases ht
    · rw [hpc] at ht
      cases ht
  | append u answer =>
    obtain rfl : u = t := hthread
    cases hpc : s.pc u <;> simp only [step, hpc] at hstep <;> try cases hstep
    cases answer with
    | ok last =>
      simp only [Sys.append] at hstep
      split_ifs at hstep
      cases hstep
      simp [work, Sys.goto, hpc, Pc.rank, Pc.leads]
    | error e =>
      cases hstep
      simp [work, Sys.goto, hpc, Pc.rank, Pc.leads]
  | run u =>
    obtain rfl : u = t := hthread
    simp only [step, Sys.run] at hstep
    cases hpc : s.pc u with
    | releasing id' leader =>
      rw [hpc] at hstep ht
      obtain rfl : leader = true := ht
      cases hstep
      simp [work, Sys.goto, hpc, Pc.rank, Pc.leads]
    | draining id' =>
      rw [hpc] at hstep hleader
      obtain ⟨hqueue, hsettled⟩ := hleader
      have hqueued := h.queued_of_settled hsettled hid hres
      obtain ⟨batch, rest, hloop, hcut, hsome⟩ :=
        drainLoop_spec s.inner.members s.inner.queue true 0 fun id₀ hid₀ => by
          obtain ⟨m, -, hm⟩ := h.queued_entry hid₀
          rw [hm]
          rfl
      simp only [Sys.drainBatch, hloop, Option.map_some] at hstep
      cases hstep
      refine ⟨by simp [Sys.goto, Pc.leads], ?_⟩
      have hnodup : s.inner.queue.Nodup := (List.nodup_append.1 h.ids_nodup).2.1
      rw [← hcut] at hnodup hqueued
      have hless := queueWork_drained (hsome rfl hqueue) hnodup hqueued
      rw [hcut] at hless
      simpa [work, Sys.goto, hpc, Pc.rank] using hless
    | drained id' batch =>
      rw [hpc] at hstep
      simp only [Sys.gatherBatch] at hstep
      split_ifs at hstep
      · cases hstep
        simp [work, Sys.goto, hpc, Pc.rank, Pc.leads]
      · obtain ⟨p, -, rfl⟩ := Option.map_eq_some_iff.1 hstep
        simp [work, Sys.goto, hpc, Pc.rank, Pc.leads]
    | appended id' members last =>
      rw [hpc] at hstep
      cases hstep
      simp [work, Sys.publish, Sys.goto, hpc, Pc.rank, Pc.leads]
    | failed id' members e =>
      rw [hpc] at hstep
      cases hstep
      simp [work, Sys.discard, Sys.goto, hpc, Pc.rank, Pc.leads]
    | resolving id' results =>
      rw [hpc] at hstep
      cases hstep
      simp [work, Sys.resolve, Sys.notifyAll, Sys.unpark, Sys.goto, hpc, Pc.rank, Pc.leads]
    | flushed id' =>
      rw [hpc] at hstep hleader
      cases hstep
      have hqueued := h.queued_of_settled hleader hid hres
      have hempty : s.inner.queue.isEmpty = false := by
        rw [Bool.eq_false_iff]
        intro hempty
        rw [List.isEmpty_iff.1 hempty] at hqueued
        cases hqueued
      simp [work, Sys.handBack, hempty, Sys.goto, hpc, Pc.rank, Pc.leads]
    | awaiting id' => rw [hpc] at ht; cases ht
    | quiescing => rw [hpc] at ht; cases ht
    | outside => rw [hpc] at ht; cases ht
    | gathered id' all members => rw [hpc] at hstep; cases hstep
    | parked id' => rw [hpc] at ht; cases ht
    | quiesceParked => rw [hpc] at ht; cases ht

/-- A step of another thread takes no member further from its result. -/
theorem other_step {a : Act} {id : Nat} (h : Inv s) (ht : (s.pc t).leads = true)
    (hid : id ∈ List.range' 1 s.hist.submitted.length) (hthread : a.thread ≠ t) (hstep : step s a = some s') :
    (s'.pc t).leads = true ∧ work s' t id = work s t id ∧ s'.hist.resolved = s.hist.resolved := by
  have hnot : ∀ {u}, u ≠ t → (s.pc u).leads = false := by
    intro u hu
    by_contra hleads
    rw [Bool.not_eq_false] at hleads
    exact hu (h.threads.one u t hleads ht)
  have hkept : ∀ {u pc}, u ≠ t → Function.update s.pc u pc t = s.pc t := fun hu => Function.update_of_ne hu.symm ..
  have hgoto : ∀ {u pc}, u ≠ t → s' = s.goto u pc →
      (s'.pc t).leads = true ∧ work s' t id = work s t id ∧ s'.hist.resolved = s.hist.resolved := by
    rintro u pc hu rfl
    exact ⟨by simp only [Sys.goto, hkept hu, ht], by simp only [work, Sys.goto, hkept hu], rfl⟩
  cases a with
  | commit u m =>
    have hu : u ≠ t := hthread
    cases hpc : s.pc u <;> simp only [step, hpc] at hstep <;> cases hstep
    have hnew : s.inner.nextId ≠ id := by
      rw [List.mem_range'_1] at hid
      have := h.nextId
      omega
    simp only [work, Sys.enqueue, hkept hu, queueWork_append hnew]
    exact ⟨ht, trivial, trivial⟩
  | quiesce u =>
    cases hpc : s.pc u <;> simp only [step, hpc] at hstep <;> cases hstep
    exact hgoto hthread rfl
  | wake u =>
    cases hpc : s.pc u <;> simp only [step, hpc] at hstep <;> cases hstep
    · exact hgoto hthread rfl
    · exact hgoto hthread rfl
  | append u answer =>
    have hfollows := hnot (show u ≠ t from hthread)
    cases hpc : s.pc u <;> simp only [step, hpc] at hstep <;> try cases hstep
    rw [hpc] at hfollows
    cases hfollows
  | run u =>
    have hu : u ≠ t := hthread
    have hfollows := hnot hu
    simp only [step, Sys.run] at hstep
    cases hpc : s.pc u with
    | releasing id' leader =>
      rw [hpc] at hstep
      cases hstep
      exact hgoto hu rfl
    | awaiting id' =>
      rw [hpc] at hstep
      simp only [Sys.reclaim] at hstep
      split_ifs at hstep
      · cases hresult : (s.inner.members id').bind Entry.result <;> rw [hresult] at hstep <;> cases hstep
        exact ⟨by simp only [Sys.goto, hkept hu, ht], by simp only [work, Sys.goto, hkept hu], rfl⟩
      · cases hstep
        exact hgoto hu rfl
    | quiescing =>
      rw [hpc] at hstep
      simp only [Sys.lookQuiesced] at hstep
      split_ifs at hstep
      · cases hstep
        exact hgoto hu rfl
      · cases hstep
        exact hgoto hu rfl
    | outside => rw [hpc] at hstep; cases hstep
    | parked id' => rw [hpc] at hstep; cases hstep
    | quiesceParked => rw [hpc] at hstep; cases hstep
    | gathered id' all members => rw [hpc] at hstep; cases hstep
    | draining id' => rw [hpc] at hfollows; cases hfollows
    | drained id' batch => rw [hpc] at hfollows; cases hfollows
    | appended id' members last => rw [hpc] at hfollows; cases hfollows
    | failed id' members e => rw [hpc] at hfollows; cases hfollows
    | resolving id' results => rw [hpc] at hfollows; cases hfollows
    | flushed id' => rw [hpc] at hfollows; cases hfollows

/-- A member without a result keeps the leader busy. -/
theorem work_pos {id : Nat} (h : Inv s) (ht : (s.pc t).leads = true)
    (hid : id ∈ List.range' 1 s.hist.submitted.length) (hres : id ∉ s.hist.resolvedIds) : 0 < work s t id := by
  have hqueued : s.hist.Settled → 0 < work s t id := by
    intro hsettled
    have := h.queued_of_settled hsettled hid hres
    rw [work, queueWork, if_pos this]
    omega
  have hleader := h.threads.leader t ht
  have hrank : work s t id = queueWork s.inner.queue id + (s.pc t).rank := rfl
  cases hpc : s.pc t with
  | draining id' =>
    rw [hpc] at hleader
    exact hqueued hleader.2
  | outside => rw [hpc] at ht; cases ht
  | awaiting id' => rw [hpc] at ht; cases ht
  | parked id' => rw [hpc] at ht; cases ht
  | quiescing => rw [hpc] at ht; cases ht
  | quiesceParked => rw [hpc] at ht; cases ht
  | _ =>
    rw [hpc] at hrank
    simp only [Pc.rank] at hrank
    omega

/-- What was submitted and what was resolved stays. -/
theorem step_grows {a : Act} (hstep : step s a = some s') :
    s.hist.submitted <+: s'.hist.submitted ∧ s.hist.resolved <+: s'.hist.resolved := by
  have hsame : ∀ {u : Sys}, u.hist.submitted = s.hist.submitted → u.hist.resolved = s.hist.resolved →
      s.hist.submitted <+: u.hist.submitted ∧ s.hist.resolved <+: u.hist.resolved := by
    intro u hsub hres
    rw [hsub, hres]
    exact ⟨List.prefix_rfl, List.prefix_rfl⟩
  cases a with
  | commit t m =>
    cases hpc : s.pc t <;> simp only [step, hpc] at hstep <;> cases hstep
    exact ⟨List.prefix_append _ _, List.prefix_rfl⟩
  | quiesce t =>
    cases hpc : s.pc t <;> simp only [step, hpc] at hstep <;> cases hstep
    exact hsame rfl rfl
  | wake t =>
    cases hpc : s.pc t <;> simp only [step, hpc] at hstep <;> cases hstep
    · exact hsame rfl rfl
    · exact hsame rfl rfl
  | append t answer =>
    cases hpc : s.pc t <;> simp only [step, hpc] at hstep <;> try cases hstep
    cases answer with
    | ok last =>
      simp only [Sys.append] at hstep
      split_ifs at hstep
      cases hstep
      exact hsame rfl rfl
    | error e =>
      cases hstep
      exact hsame rfl rfl
  | run t =>
    simp only [step, Sys.run] at hstep
    split at hstep
    · cases hstep
      exact hsame rfl rfl
    · obtain ⟨p, -, rfl⟩ := Option.map_eq_some_iff.1 hstep
      exact hsame rfl rfl
    · simp only [Sys.gatherBatch] at hstep
      split_ifs at hstep
      · cases hstep
        exact hsame rfl rfl
      · obtain ⟨p, -, rfl⟩ := Option.map_eq_some_iff.1 hstep
        exact hsame rfl rfl
    · cases hstep
      exact hsame rfl rfl
    · cases hstep
      exact hsame rfl rfl
    · cases hstep
      exact ⟨List.prefix_rfl, List.prefix_append _ _⟩
    · simp only [Sys.handBack] at hstep
      split_ifs at hstep
      · cases hstep
        exact hsame rfl rfl
      · cases hstep
        exact hsame rfl rfl
    · simp only [Sys.reclaim] at hstep
      split_ifs at hstep
      · split at hstep
        · cases hstep
        · cases hstep
          exact hsame rfl rfl
      · cases hstep
        exact hsame rfl rfl
    · simp only [Sys.lookQuiesced] at hstep
      split_ifs at hstep
      · cases hstep
        exact hsame rfl rfl
      · cases hstep
        exact hsame rfl rfl
    all_goals cases hstep

theorem resolved_of_plays {id : Nat} : ∀ (acts : List Act) (s : Sys), Plays step (fun _ _ => True) s acts s' →
    id ∈ s.hist.resolvedIds → id ∈ s'.hist.resolvedIds
  | [], s, hplays, hres => by
    obtain rfl : s = s' := hplays
    exact hres
  | a :: acts, s, hplays, hres => by
    obtain ⟨-, u, hstep, hplays⟩ := hplays
    exact resolved_of_plays acts u hplays (((step_grows hstep).2.map Prod.fst).subset hres)

/-- However the threads interleave, once the leader has taken as many steps as the
member is far from its result, it has one. -/
theorem resolved_within {id : Nat} : ∀ (acts : List Act) (s : Sys), Inv s → (s.pc t).leads = true →
    id ∈ List.range' 1 s.hist.submitted.length → Plays step (fun _ _ => True) s acts s' →
    work s t id ≤ acts.countP (fun a => a.thread == t) → id ∈ s'.hist.resolvedIds
  | [], s, h, ht, hid, hplays, hwork => by
    obtain rfl : s = s' := hplays
    by_contra hres
    have := work_pos h ht hid hres
    simp at hwork
    omega
  | a :: acts, s, h, ht, hid, hplays, hwork => by
    obtain ⟨-, u, hstep, hplays⟩ := hplays
    have hid' : id ∈ List.range' 1 u.hist.submitted.length := by
      have := (step_grows hstep).1.length_le
      rw [List.mem_range'_1] at hid ⊢
      omega
    by_cases hres : id ∈ s.hist.resolvedIds
    · exact resolved_of_plays acts u hplays (((step_grows hstep).2.map Prod.fst).subset hres)
    · rw [List.countP_cons] at hwork
      by_cases hthread : a.thread = t
      · obtain ⟨ht', hless⟩ := leader_step h ht hid hres hthread hstep
        rw [if_pos (by simpa using hthread)] at hwork
        exact resolved_within acts u (h.step hstep) ht' hid' hplays (by omega)
      · obtain ⟨ht', hsame, -⟩ := other_step h ht hid hthread hstep
        rw [if_neg (by simpa using hthread)] at hwork
        exact resolved_within acts u (h.step hstep) ht' hid' hplays (by omega)

/-! ## Safety -/

/-- The lines of an earlier member have the smaller LSNs. -/
theorem Ascending.lsn_lt {log : List Line} (h : Ascending log) {a b : Line} (ha : a ∈ log) (hb : b ∈ log)
    (hlt : a.id < b.id) : a.lsn < b.lsn :=
  List.Pairwise.forall_of_forall_of_flip (R := fun a b => a.id < b.id → a.lsn < b.lsn)
    (fun _ _ hself => absurd hself (lt_irrefl _)) (h.imp fun hab _ => hab.1)
    (h.imp fun hab hba => absurd hba (Nat.not_lt.2 hab.2)) ha hb hlt

/-- The line of a member's `Commit` marker. -/
theorem History.MarkedAt.line {h : History} {id lsn : Nat} {m : Member} (hm : h.submitted[id - 1]? = some m)
    (hmarked : h.MarkedAt id lsn) : ⟨lsn, id, .commit⟩ ∈ h.log := by
  obtain ⟨first, hlines, hlsn⟩ := hmarked
  have hrecords : h.records id = m.ops ++ [.commit] := by simp [History.records, hm, Member.records]
  rw [hrecords] at hlines hlsn
  refine hlines.subset (List.mem_map.2 ⟨(.commit, lsn), ?_, rfl⟩)
  rw [List.mk_mem_zipIdx_iff_le_and_getElem?_sub]
  have hsub : lsn - first = m.ops.length := by
    simp at hlsn
    omega
  rw [hsub]
  exact ⟨by simp at hlsn; omega, by simp⟩

/-- What holds of the coordinator in every state it reaches. -/
structure Safe (s : Sys) : Prop where
  /-- At most one thread leads, and one does exactly while the flag is set. -/
  oneLeader : (∀ t u, (s.pc t).leads = true → (s.pc u).leads = true → t = u) ∧
    (s.inner.leaderActive = true ↔ ∃ t, (s.pc t).leads = true)
  /-- The batches, then the queue, are the members in submission order: each is in
  exactly one batch or still queued. -/
  order : s.hist.batches.flatten ++ s.inner.queue = List.range' 1 s.hist.submitted.length
  /-- Each batch is appended once, in order. -/
  appends : s.hist.appendedIds <+: s.hist.batches
  /-- Each member gets one result, in order, and `commit` returns that one, once. -/
  results : s.hist.resolvedIds <+: s.hist.batches.flatten ∧ s.hist.returnedIds.Nodup ∧
    ∀ r ∈ s.hist.returned, r ∈ s.hist.resolved
  /-- A commit LSN is that of the member's own `Commit` marker, where its records end. -/
  marker : ∀ id lsn, (id, .ok lsn) ∈ s.hist.resolved → s.hist.MarkedAt id lsn ∧ ⟨lsn, id, .commit⟩ ∈ s.hist.log
  /-- Commit LSNs ascend strictly in submission order. -/
  increasing : ∀ id lsn id' lsn', (id, .ok lsn) ∈ s.hist.resolved → (id', .ok lsn') ∈ s.hist.resolved → id < id' →
    lsn < lsn'
  /-- `commit` returns `Ok` only after the append of the member's batch did. -/
  durable : ∀ id lsn, (id, .ok lsn) ∈ s.hist.returned → ∃ a ∈ s.hist.appends, id ∈ a.ids ∧ ∃ last, a.answer = .ok last
  /-- Without a leader nothing is queued and every member is done. -/
  idle : s.inner.leaderActive = false → s.inner.queue = [] ∧
    ∀ id, 1 ≤ id → id ≤ s.hist.submitted.length → id ∈ s.hist.resolvedIds ∧
      ∀ e, s.inner.members id = some e → e.done = true
  /-- A follower is parked only while its member has no result; then a leader is
  active, with a step to take, and the follower is up again once that leader has
  taken the steps it is away. -/
  followers : ∀ t id, s.pc t = .parked id → id ∉ s.hist.resolvedIds ∧ ∃ u, (s.pc u).leads = true ∧
    (∃ a s', a.thread = u ∧ step s a = some s') ∧
    ∀ acts s', Plays step (fun _ _ => True) s acts s' → work s u id ≤ acts.countP (fun a => a.thread == u) →
      id ∈ s'.hist.resolvedIds ∧ s'.pc t ≠ .parked id
  /-- No thread at work is stuck. -/
  alive : ∀ t, (s.pc t).runs = true → ∃ s', step s (.run t) = some s'
  /-- `quiesce` returns only when nothing is in flight. -/
  quiesce : ∀ t s', s.pc t = .quiescing → step s (.run t) = some s' → s'.pc t = .outside →
    s.inner.queue = [] ∧ (∀ u, (s.pc u).leads = false) ∧
      ∀ id, 1 ≤ id → id ≤ s.hist.submitted.length → id ∈ s.hist.resolvedIds

/-- `quiesce` returns on an idle coordinator. -/
theorem quiesced_of_outside (hpc : s.pc t = .quiescing) (hstep : step s (.run t) = some s')
    (hout : s'.pc t = .outside) : s.inner.leaderActive = false ∧ s.inner.queue = [] := by
  simp only [step, Sys.run, hpc, Sys.lookQuiesced] at hstep
  split_ifs at hstep with hbusy
  · cases hstep
    simp [Sys.goto] at hout
  · simpa using hbusy

section Safety

variable (h : Inv s)
include h

theorem Inv.marker {id lsn : Nat} (hr : (id, .ok lsn) ∈ s.hist.resolved) :
    s.hist.MarkedAt id lsn ∧ ⟨lsn, id, .commit⟩ ∈ s.hist.log := by
  have hid := h.resolved_mem (List.mem_map_of_mem (f := Prod.fst) hr)
  rw [← h.order] at hid
  obtain ⟨-, m, hm⟩ := h.mem_submitted hid
  have hsound : s.hist.MarkedAt id lsn := (h.sound _ hr).2
  exact ⟨hsound, hsound.line hm⟩

/-- Without a leader every member is resolved. -/
theorem Inv.idle_resolved (hactive : s.inner.leaderActive = false) {id : Nat} (hpos : 1 ≤ id)
    (hle : id ≤ s.hist.submitted.length) : id ∈ s.hist.resolvedIds := by
  obtain ⟨hqueue, hsettled⟩ := h.idle hactive
  have hid : id ∈ List.range' 1 s.hist.submitted.length := List.mem_range'_1.2 ⟨hpos, by omega⟩
  rw [← h.order, hqueue, List.append_nil, ← hsettled.resolved] at hid
  exact hid

/-- A resolved member that is still in the table is done. -/
theorem Inv.done_of_resolved {id : Nat} {e : Entry} (hres : id ∈ s.hist.resolvedIds) (he : s.inner.members id = some e) :
    e.done = true := by
  have hid := h.resolved_mem hres
  rw [← h.order] at hid
  obtain ⟨hpos, m, hm⟩ := h.mem_submitted hid
  obtain ⟨⟨id', r⟩, hr, rfl⟩ := List.mem_map.1 hres
  rcases h.entries id' m hpos hm with ⟨-, hnone⟩ | ⟨-, result, hentry, hresult⟩
  · rw [hnone] at he
    cases he
  · rw [hentry] at he
    cases he
    rw [(hresult r).2 hr]
    rfl

/-- The leader always has a step: a critical section, or the answer of its append. -/
theorem Inv.leader_enabled {u : Nat} (hu : (s.pc u).leads = true) : ∃ a s', a.thread = u ∧ GroupCommit.step s a = some s' := by
  cases hruns : (s.pc u).runs with
  | true =>
    obtain ⟨s', hs', -⟩ := h.run hruns
    exact ⟨.run u, s', rfl, hs'⟩
  | false =>
    cases hpc : s.pc u with
    | gathered id all members =>
      obtain ⟨s', hs', -⟩ := h.append_error hpc .contended
      exact ⟨.append u (.error .contended), s', rfl, by simp only [GroupCommit.step, hpc]; exact hs'⟩
    | outside => rw [hpc] at hu; cases hu
    | parked id => rw [hpc] at hu; cases hu
    | quiesceParked => rw [hpc] at hu; cases hu
    | _ => rw [hpc] at hruns; cases hruns

theorem Inv.follower {id : Nat} (hpc : s.pc t = .parked id) : id ∉ s.hist.resolvedIds ∧ ∃ u, (s.pc u).leads = true ∧
    (∃ a s', a.thread = u ∧ GroupCommit.step s a = some s') ∧
    ∀ acts s', Plays GroupCommit.step (fun _ _ => True) s acts s' →
      work s u id ≤ acts.countP (fun a => a.thread == u) → id ∈ s'.hist.resolvedIds ∧ s'.pc t ≠ .parked id := by
  have hres := h.threads.parked t id hpc
  obtain ⟨hpos, hle, -⟩ := h.threads.own t id (by rw [hpc]; rfl)
  have hid : id ∈ List.range' 1 s.hist.submitted.length := List.mem_range'_1.2 ⟨hpos, by omega⟩
  obtain ⟨u, hu⟩ := h.threads.active.1 (h.leader_of_unresolved hid hres)
  refine ⟨hres, u, hu, h.leader_enabled hu, fun acts s' hplays hwork => ?_⟩
  have hdone := resolved_within acts s h hu hid hplays hwork
  refine ⟨hdone, fun hparked => ?_⟩
  have hrun : RunWhere GroupCommit.step (fun _ _ => True) s s' := RunWhere.nil.plays acts hplays
  have hinv := hrun.invariant (I := Inv) h fun _ _ _ hinv _ hstep => hinv.step hstep
  exact hinv.threads.parked t id hparked hdone

theorem Inv.safe : Safe s where
  oneLeader := ⟨h.threads.one, h.threads.active⟩
  order := h.order
  appends := h.inFlight.choose_spec.2
  results := ⟨⟨_, h.inFlight.choose_spec.1⟩, h.returnedOnce, h.returned⟩
  marker := fun _ _ hr => h.marker hr
  increasing := fun _ _ _ _ hr hr' hlt => h.ascending.lsn_lt (h.marker hr).2 (h.marker hr').2 hlt
  durable := fun _ _ hr => (h.sound _ (h.returned _ hr)).1
  idle := fun hactive => ⟨(h.idle hactive).1, fun _ hpos hle =>
    have hres := h.idle_resolved hactive hpos hle
    ⟨hres, fun _ he => h.done_of_resolved hres he⟩⟩
  followers := fun _ _ hpc => h.follower hpc
  alive := fun _ hruns => (h.run hruns).imp fun _ hs' => hs'.1
  quiesce := fun _ _ hpc hstep hout => by
    obtain ⟨hactive, hqueue⟩ := quiesced_of_outside hpc hstep hout
    refine ⟨hqueue, fun u => ?_, fun _ hpos hle => h.idle_resolved hactive hpos hle⟩
    by_contra hu
    rw [Bool.not_eq_false] at hu
    rw [h.leaderActive hu] at hactive
    cases hactive

end Safety

end Twill.GroupCommit
