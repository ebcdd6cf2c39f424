/-
A line of history: what a storage backend is for.

A line is the WAL records and the page versions written so far, each with its
LSN, how far it is durable, and the retention floor. Both backends show a line
(`Backend.Shows`): an accepted append or put extends it, a scan returns its
records, and a read at or above the floor answers the greatest version at or
below its LSN.
-/
import Twill.Storage.Branch

namespace Twill.Storage

open StateExcept (runOn)
open Object (Page PageRecord IsLatest NoVersion noVersionError)
open LocalFile (numbered)

structure Line where
  wal : List LogEntry
  pages : List PageRecord
  durable : Nat
  floor : Nat
  walSorted : wal.Pairwise fun x y => x.lsn < y.lsn
  walReached : ∀ e ∈ wal, 0 < e.lsn ∧ e.lsn ≤ durable
  pagesSorted : pages.Pairwise fun x y => x.lsn < y.lsn
  pagesReached : ∀ r ∈ pages, 0 < r.lsn ∧ r.lsn ≤ durable

namespace Line

theorem numbered_sorted : ∀ (records : List WalRecord) (first : Nat),
    (numbered first records).Pairwise (fun x y => x.lsn < y.lsn) ∧
      ∀ e ∈ numbered first records, first ≤ e.lsn ∧ e.lsn < first + records.length
  | [], _ => by simp [numbered]
  | r :: records, first => by
    obtain ⟨hsorted, hbound⟩ := numbered_sorted records (first + 1)
    refine ⟨List.pairwise_cons.2 ⟨fun e he => ?_, hsorted⟩, fun e he => ?_⟩
    · have := hbound e he
      show first < e.lsn
      omega
    · rcases List.mem_cons.1 he with rfl | he
      · simp
      · have := hbound e he
        simp only [List.length_cons]
        omega

/-- Nothing written yet. -/
def empty : Line := ⟨[], [], 0, 0, by simp, by simp, by simp, by simp⟩

/-- A batch of records, numbered on from the end. -/
def append (l : Line) (records : List WalRecord) : Line where
  wal := l.wal ++ numbered (l.durable + 1) records
  pages := l.pages
  durable := l.durable + records.length
  floor := l.floor
  walSorted := by
    obtain ⟨hsorted, hbound⟩ := numbered_sorted records (l.durable + 1)
    refine List.pairwise_append.2 ⟨l.walSorted, hsorted, fun x hx y hy => ?_⟩
    have := l.walReached x hx
    have := hbound y hy
    omega
  walReached := by
    intro e he
    rcases List.mem_append.1 he with he | he
    · have := l.walReached e he
      omega
    · have := (numbered_sorted records (l.durable + 1)).2 e he
      omega
  pagesSorted := l.pagesSorted
  pagesReached := fun r hr => by
    have := l.pagesReached r hr
    omega

/-- A page version at the next LSN. -/
def put (l : Line) (pageId : Nat) (image : Bytes) : Line where
  wal := l.wal
  pages := l.pages ++ [⟨pageId, l.durable + 1, image⟩]
  durable := l.durable + 1
  floor := l.floor
  walSorted := l.walSorted
  walReached := fun e he => by
    have := l.walReached e he
    omega
  pagesSorted := by
    refine List.pairwise_append.2 ⟨l.pagesSorted, by simp, fun x hx y hy => ?_⟩
    obtain rfl := List.mem_singleton.1 hy
    have := l.pagesReached x hx
    show x.lsn < l.durable + 1
    omega
  pagesReached := by
    intro r hr
    rcases List.mem_append.1 hr with hr | hr
    · have := l.pagesReached r hr
      omega
    · obtain rfl := List.mem_singleton.1 hr
      exact ⟨Nat.succ_pos _, le_rfl⟩

def setFloor (l : Line) (floor : Nat) : Line := { l with floor := floor }

/-- What a read at or above the floor answers. -/
def Answers (l : Line) (pageId query : Nat) (answer : Except StorageError Page) : Prop :=
  (∃ r, answer = .ok r.page ∧ IsLatest l.pages pageId query r) ∨
    ((∃ message, answer = .error (.notFound message)) ∧ NoVersion l.pages pageId query)

end Line

/-! ## The single file -/

namespace LocalFile

/-- The versions of one page, oldest first. -/
def chain (pages : List PageRecord) (id : Nat) : PageChain :=
  (pages.filter fun r => r.pageId == id).map fun r => (r.lsn, padPage r.image)

theorem chain_concat (pages : List PageRecord) (r : PageRecord) (id : Nat) :
    chain (pages ++ [r]) id = if r.pageId = id then chain pages id ++ [(r.lsn, padPage r.image)] else chain pages id := by
  by_cases h : r.pageId = id <;> simp [chain, h]

/-- The chains of a handle hold the versions of a line. -/
def Chains (g : Inner) (pages : List PageRecord) : Prop :=
  ∀ id, (g.pages.lookup id = none ∧ ∀ r ∈ pages, r.pageId ≠ id) ∨ g.pages.lookup id = some (chain pages id)

theorem Chains.getD {g : Inner} {pages : List PageRecord} (h : Chains g pages) {id : Nat} :
    (g.pages.lookup id).getD [] = chain pages id := by
  rcases h id with ⟨hnone, hpages⟩ | hsome
  · have hnil : pages.filter (fun r => r.pageId == id) = [] := by
      simpa [List.filter_eq_nil_iff] using hpages
    rw [hnone, chain, hnil]
    rfl
  · rw [hsome]
    rfl

/-- A handle shows a line. -/
structure ShowsLine (h : Handle) (l : Line) : Prop where
  logged : ∃ frames, Logged h.file frames h.inner ∧ l.wal = frames.flatMap Frame.entries
  next : h.inner.nextLsn = l.durable + 1
  durable : h.inner.durableLsn = l.durable
  floor : h.inner.retentionFloor = l.floor
  chains : Chains h.inner l.pages

variable {h h' : Handle} {l : Line}

theorem ShowsLine.create : ShowsLine Handle.create .empty := by
  refine ⟨⟨[], Logged.create, rfl⟩, rfl, rfl, rfl, fun id => .inl ⟨?_, by simp [Line.empty]⟩⟩
  exact AList.lookup_empty id

theorem ShowsLine.scanWal (hs : ShowsLine h l) (after : Nat) :
    LocalFile.scanWal h.file after = .ok (l.wal.filter (after < ·.lsn)) := by
  obtain ⟨frames, hlogged, hwal⟩ := hs.logged
  have hstop : readFrame h.inner.nextLsn [] = .stop h.inner.nextLsn := by simp [readFrame]
  have hscan := hlogged.scanWal_append hstop after
  rwa [List.append_nil, ← hwal] at hscan

theorem exec_appendWal (h : Handle) (token : FenceToken) (records : List WalRecord) :
    h.exec none (.appendWal token records) =
      ((runOn (appendWal none token records) h).1.map Ack.lsn, (runOn (appendWal none token records) h).2) :=
  StateExcept.run_bind_pure ..

theorem exec_putPage (h : Handle) (token : FenceToken) (pageId : UInt64) (image : Bytes) :
    h.exec none (.putPage token pageId image) =
      ((runOn (putPage none token pageId image) h).1.map Ack.lsn, (runOn (putPage none token pageId image) h).2) :=
  StateExcept.run_bind_pure ..

theorem exec_acquireFence (h : Handle) (owner : Nat) :
    h.exec none (.acquireFence owner) =
      ((runOn (acquireFence none owner) h).1.map Ack.token, (runOn (acquireFence none owner) h).2) :=
  StateExcept.run_bind_pure ..

theorem exec_setRetentionFloor (h : Handle) (lsn : UInt64) :
    h.exec none (.setRetentionFloor lsn) =
      ((runOn (setRetentionFloor none lsn) h).1.map fun _ => Ack.unit, (runOn (setRetentionFloor none lsn) h).2) :=
  StateExcept.run_bind_pure ..

/-- The answer behind a mapped answer. -/
theorem eq_of_map {α β : Type} {res : Except StorageError α × Handle} {f : α → β} {b : Except StorageError β}
    (heq : (res.1.map f, res.2) = (b, h')) :
    (∀ e, b = .error e → res = (.error e, h')) ∧ ∀ c, b = .ok c → ∃ a, res = (.ok a, h') ∧ f a = c := by
  obtain ⟨res, h₁⟩ := res
  obtain ⟨rfl, rfl⟩ := Prod.mk.inj heq
  cases res with
  | error e =>
    refine ⟨fun e' he => ?_, fun c hc => (by cases hc)⟩
    obtain rfl : e = e' := by simpa [Except.map] using he
    rfl
  | ok a =>
    refine ⟨fun e he => (by cases he), fun c hc => ?_⟩
    exact ⟨a, rfl, by simpa [Except.map] using hc⟩

/-- An operation without faults is refused, or its frame is appended and its
counters applied. -/
theorem Logged.exec_applied {frames : List Frame} {op : Op} (hlogged : Logged h.file frames h.inner)
    (hshort : ∀ tag payload, op.frame h.inner = .ok (tag, payload) → payload.length < 2 ^ 32 - 1) :
    (∃ e, h.exec none op = (.error e, h)) ∨
      ∃ tag payload h' size, h.exec none op = (.ok (op.ack h.inner), h') ∧ op.frame h.inner = .ok (tag, payload) ∧
        h'.inner = op.applied h.inner size ∧ Logged h'.file (frames ++ [op.parsed h.inner]) h'.inner := by
  rcases hlogged.exec hshort with hrefused | ⟨tag, payload, h', hexec, hframe, -, hlogged'⟩
  · exact .inl hrefused
  · refine .inr ⟨tag, payload, h', (frameBytes tag payload).length, hexec, hframe, ?_, hlogged'⟩
    rw [Handle.exec_eq, Handle.step, hframe] at hexec
    dsimp only at hexec
    split_ifs at hexec with hmax
    · cases hexec
    · exact (congrArg Handle.inner (Prod.mk.inj hexec).2).symm

/-- An operation that writes no record and no page. -/
theorem ShowsLine.quiet {op : Op} {l' : Line} (hs : ShowsLine h l)
    (hshort : ∀ tag payload, op.frame h.inner = .ok (tag, payload) → payload.length < 2 ^ 32 - 1)
    (hentries : (op.parsed h.inner).entries = [])
    (hkept : ∀ size, (op.applied h.inner size).nextLsn = h.inner.nextLsn ∧
      (op.applied h.inner size).durableLsn = h.inner.durableLsn ∧
      (op.applied h.inner size).pages = h.inner.pages ∧ (op.applied h.inner size).retentionFloor = l'.floor)
    (hline : l'.wal = l.wal ∧ l'.pages = l.pages ∧ l'.durable = l.durable) :
    (∃ e, h.exec none op = (.error e, h)) ∨
      ∃ h', h.exec none op = (.ok (op.ack h.inner), h') ∧ ShowsLine h' l' := by
  obtain ⟨frames, hlogged, hwal⟩ := hs.logged
  obtain ⟨hwal', hpages', hdurable'⟩ := hline
  rcases hlogged.exec_applied hshort with hrefused | ⟨tag, payload, h', size, hexec, -, hinner, hlogged'⟩
  · exact .inl hrefused
  · obtain ⟨hnext, hdurable, hpages, hfloor⟩ := hkept size
    refine .inr ⟨h', hexec, ⟨_, hlogged', ?_⟩, ?_, ?_, ?_, fun id => ?_⟩
    · rw [List.flatMap_append, ← hwal, hwal']
      simp [hentries]
    · rw [hinner, hnext, hs.next, hdurable']
    · rw [hinner, hdurable, hs.durable, hdurable']
    · rw [hinner, hfloor]
    · rw [hinner, hpages, hpages']
      exact hs.chains id

theorem ShowsLine.acquireFence (hs : ShowsLine h l) (owner : Nat) :
    ∃ answer h', runOn (LocalFile.acquireFence none owner) h = (answer, h') ∧ ShowsLine h' l := by
  have hshort : ∀ tag payload, (Op.acquireFence owner).frame h.inner = .ok (tag, payload) →
      payload.length < 2 ^ 32 - 1 := by
    intro tag payload hframe
    obtain ⟨-, rfl⟩ := Prod.mk.inj (Except.ok.inj hframe)
    rw [Framing.length_toLE]
    omega
  rcases hs.quiet hshort rfl (fun _ => ⟨rfl, rfl, rfl, hs.floor⟩) ⟨rfl, rfl, rfl⟩ with ⟨e, hexec⟩ | ⟨h', hexec, hs'⟩
  · rw [exec_acquireFence] at hexec
    exact ⟨_, h, (eq_of_map hexec).1 e rfl, hs⟩
  · rw [exec_acquireFence] at hexec
    obtain ⟨token, hrun, -⟩ := (eq_of_map hexec).2 _ rfl
    exact ⟨_, h', hrun, hs'⟩

theorem ShowsLine.appendWal (hs : ShowsLine h l) (token : FenceToken) {records : List WalRecord}
    (hfits : (walPayload records).length < 2 ^ 32 - 1) :
    (∃ e, runOn (LocalFile.appendWal none token records) h = (.error e, h)) ∨
      ∃ h', runOn (LocalFile.appendWal none token records) h = (.ok (l.durable + records.length), h') ∧
        records ≠ [] ∧ ShowsLine h' (l.append records) := by
  obtain ⟨frames, hlogged, hwal⟩ := hs.logged
  have hshort : ∀ tag payload, (Op.appendWal token records).frame h.inner = .ok (tag, payload) →
      payload.length < 2 ^ 32 - 1 := by
    intro tag payload hframe
    simp only [Op.frame] at hframe
    split_ifs at hframe with hempty hfence
    obtain ⟨-, rfl⟩ := Prod.mk.inj (Except.ok.inj hframe)
    exact hfits
  rcases hlogged.exec_applied hshort with ⟨e, hexec⟩ | ⟨tag, payload, h', size, hexec, hframe, hinner, hlogged'⟩
  · rw [exec_appendWal] at hexec
    exact .inl ⟨e, (eq_of_map hexec).1 e rfl⟩
  · rw [exec_appendWal] at hexec
    obtain ⟨n, hrun, hack⟩ := (eq_of_map hexec).2 _ rfl
    have hne : records ≠ [] := by
      simp only [Op.frame] at hframe
      split_ifs at hframe with hempty hfence
      simpa using hempty
    have hpos : 0 < records.length := List.length_pos_iff.2 hne
    have hnext := hs.next
    have hn : n = l.durable + records.length := by
      have hack : n = h.inner.nextLsn + records.length - 1 := Ack.lsn.inj hack
      omega
    refine .inr ⟨h', hn ▸ hrun, hne, ⟨_, hlogged', ?_⟩, ?_, ?_, ?_, ?_⟩
    · rw [List.flatMap_append, ← hwal]
      simp [Line.append, Op.parsed, Frame.entries, hnext]
    · rw [hinner]
      simp only [Op.applied, Line.append]
      omega
    · rw [hinner]
      simp only [Op.applied, Line.append]
      omega
    · rw [hinner]
      exact hs.floor
    · rw [hinner]
      exact hs.chains

theorem ShowsLine.putPage (hs : ShowsLine h l) (token : FenceToken) (pageId : UInt64) (image : Bytes) :
    (∃ e, runOn (LocalFile.putPage none token pageId image) h = (.error e, h)) ∨
      ∃ h', runOn (LocalFile.putPage none token pageId image) h = (.ok (l.durable + 1), h') ∧
        ShowsLine h' (l.put pageId.toNat image) := by
  obtain ⟨frames, hlogged, hwal⟩ := hs.logged
  have hshort : ∀ tag payload, (Op.putPage token pageId image).frame h.inner = .ok (tag, payload) →
      payload.length < 2 ^ 32 - 1 := by
    intro tag payload hframe
    simp only [Op.frame] at hframe
    split_ifs at hframe with hsize hfence
    obtain ⟨-, rfl⟩ := Prod.mk.inj (Except.ok.inj hframe)
    rw [List.length_append, Framing.length_toLE]
    simp only [PAGE_SIZE] at hsize
    omega
  rcases hlogged.exec_applied hshort with ⟨e, hexec⟩ | ⟨tag, payload, h', size, hexec, hframe, hinner, hlogged'⟩
  · rw [exec_putPage] at hexec
    exact .inl ⟨e, (eq_of_map hexec).1 e rfl⟩
  · rw [exec_putPage] at hexec
    obtain ⟨n, hrun, hack⟩ := (eq_of_map hexec).2 _ rfl
    have hnext := hs.next
    have hn : n = l.durable + 1 := (Ack.lsn.inj hack).trans hnext
    refine .inr ⟨h', hn ▸ hrun, ⟨_, hlogged', ?_⟩, ?_, ?_, ?_, fun id => ?_⟩
    · rw [List.flatMap_append, ← hwal]
      simp [Line.put, Op.parsed, Frame.entries]
    · rw [hinner]
      simp only [Op.applied, Inner.pushPage, Line.put, hnext]
    · rw [hinner]
      simp only [Op.applied, Inner.pushPage, Line.put, hnext]
    · rw [hinner]
      exact hs.floor
    · rw [hinner]
      show ((h.inner.pages.insert pageId.toNat _).lookup id = none ∧ _) ∨
        (h.inner.pages.insert pageId.toNat _).lookup id = some (chain (l.pages ++ [_]) id)
      rw [chain_concat]
      by_cases hid : pageId.toNat = id
      · subst hid
        rw [AList.lookup_insert, hs.chains.getD, if_pos rfl, hnext]
        exact .inr rfl
      · rw [AList.lookup_insert_ne (Ne.symm hid), if_neg hid]
        rcases hs.chains id with ⟨hnone, hpages⟩ | hsome
        · refine .inl ⟨hnone, fun r hr => ?_⟩
          rcases List.mem_append.1 hr with hr | hr
          · exact hpages r hr
          · obtain rfl := List.mem_singleton.1 hr
            exact hid
        · exact .inr hsome

theorem ShowsLine.setRetentionFloor (hs : ShowsLine h l) (lsn : UInt64) :
    (∃ e, runOn (LocalFile.setRetentionFloor none lsn) h = (.error e, h)) ∨
      ∃ h', runOn (LocalFile.setRetentionFloor none lsn) h = (.ok (), h') ∧ ShowsLine h' (l.setFloor lsn.toNat) := by
  have hshort : ∀ tag payload, (Op.setRetentionFloor lsn).frame h.inner = .ok (tag, payload) →
      payload.length < 2 ^ 32 - 1 := by
    intro tag payload hframe
    simp only [Op.frame] at hframe
    split_ifs at hframe with hback
    obtain ⟨-, rfl⟩ := Prod.mk.inj (Except.ok.inj hframe)
    rw [Framing.length_toLE]
    omega
  rcases @ShowsLine.quiet h l (.setRetentionFloor lsn) (l.setFloor lsn.toNat) hs hshort rfl (fun _ => ⟨rfl, rfl, rfl, rfl⟩) ⟨rfl, rfl, rfl⟩ with
    ⟨e, hexec⟩ | ⟨h', hexec, hs'⟩
  · rw [exec_setRetentionFloor] at hexec
    exact .inl ⟨e, (eq_of_map hexec).1 e rfl⟩
  · rw [exec_setRetentionFloor] at hexec
    obtain ⟨u, hrun, -⟩ := (eq_of_map hexec).2 _ rfl
    exact .inr ⟨h', hrun, hs'⟩

/-- Every operation leaves a handle that shows a line. -/
theorem ShowsLine.exec {op : Op} (hs : ShowsLine h l)
    (hshort : ∀ tag payload, op.frame h.inner = .ok (tag, payload) → payload.length < 2 ^ 32 - 1) :
    ∃ l', ShowsLine (h.exec none op).2 l' := by
  have hquiet : ∀ {l' : Line}, ((∃ e, h.exec none op = (.error e, h)) ∨
      ∃ h', h.exec none op = (.ok (op.ack h.inner), h') ∧ ShowsLine h' l') →
      ∃ l', ShowsLine (h.exec none op).2 l' := by
    intro l' hexec
    rcases hexec with ⟨e, hexec⟩ | ⟨h', hexec, hs'⟩
    · exact ⟨l, hexec ▸ hs⟩
    · exact ⟨l', hexec ▸ hs'⟩
  cases op with
  | appendWal token records =>
    rw [exec_appendWal]
    by_cases hfits : (walPayload records).length < 2 ^ 32 - 1
    · rcases hs.appendWal token hfits with ⟨e, hrun⟩ | ⟨h', hrun, -, hs'⟩
      · exact ⟨l, by rwa [hrun]⟩
      · exact ⟨_, by rwa [hrun]⟩
    · -- a batch too long for its frame was refused before it was written
      cases hframe : (Op.appendWal token records).frame h.inner with
      | ok out =>
        refine absurd (hshort out.1 out.2 hframe) ?_
        simp only [Op.frame] at hframe
        split_ifs at hframe
        obtain rfl := Except.ok.inj hframe
        exact hfits
      | error e =>
        have hexec : h.exec none (.appendWal token records) = (.error e, h) := by
          rw [Handle.exec_eq, Handle.step, hframe]
        rw [← exec_appendWal, hexec]
        exact ⟨l, hs⟩
  | putPage token pageId image =>
    rw [exec_putPage]
    rcases hs.putPage token pageId image with ⟨e, hrun⟩ | ⟨h', hrun, hs'⟩
    · exact ⟨l, by rwa [hrun]⟩
    · exact ⟨_, by rwa [hrun]⟩
  | acquireFence owner => exact hquiet (hs.quiet hshort rfl (fun _ => ⟨rfl, rfl, rfl, hs.floor⟩) ⟨rfl, rfl, rfl⟩)
  | createBranch base => exact hquiet (hs.quiet hshort rfl (fun _ => ⟨rfl, rfl, rfl, hs.floor⟩) ⟨rfl, rfl, rfl⟩)
  | deleteBranch id => exact hquiet (hs.quiet hshort rfl (fun _ => ⟨rfl, rfl, rfl, hs.floor⟩) ⟨rfl, rfl, rfl⟩)
  | setRetentionFloor lsn =>
    exact hquiet (@ShowsLine.quiet h l (.setRetentionFloor lsn) (l.setFloor lsn.toNat) hs hshort rfl (fun _ => ⟨rfl, rfl, rfl, rfl⟩) ⟨rfl, rfl, rfl⟩)

theorem ShowsLine.runAll {ops : List Op} (hs : ShowsLine h l) (hshort : h.shortFrames (allOk ops) = true) :
    ∃ l', ShowsLine (h.runAll (allOk ops)) l' := by
  induction ops generalizing h l with
  | nil => exact ⟨l, hs⟩
  | cons op ops ih =>
    obtain ⟨hframe, hrest⟩ := shortFrames_cons hshort
    obtain ⟨l', hs'⟩ := hs.exec hframe
    exact ih hs' hrest

/-- A file written without faults shows a line. -/
theorem ShowsLine.live {ops : List Op} (hshort : Handle.create.shortFrames (allOk ops) = true) :
    ∃ l, ShowsLine (live ops) l := ShowsLine.create.runAll hshort

/-- The last version of an ascending chain at or below an LSN is the latest. -/
theorem find_reverse_latest {pages : List PageRecord} (hsorted : pages.Pairwise fun x y => x.lsn < y.lsn)
    (id query : Nat) :
    (∃ r, (chain pages id).reverse.find? (fun v => v.1 ≤ query) = some (r.lsn, padPage r.image) ∧
        IsLatest pages id query r) ∨
      ((chain pages id).reverse.find? (fun v => v.1 ≤ query) = none ∧ NoVersion pages id query) := by
  induction pages using List.reverseRecOn with
  | nil => exact .inr ⟨rfl, fun r hr => by cases hr⟩
  | append_singleton pages r ih =>
    obtain ⟨hsorted, -, hlast⟩ := List.pairwise_append.1 hsorted
    have hlt : ∀ x ∈ pages, x.lsn < r.lsn := fun x hx => hlast x hx r List.mem_cons_self
    have hmem : ∀ x, x ∈ pages ++ [r] → x ∈ pages ∨ x = r := by simp
    by_cases hr : r.pageId = id ∧ r.lsn ≤ query
    · refine .inl ⟨r, by simp [chain_concat, hr.1, hr.2], ⟨by simp, hr.1, hr.2, fun x hx _ _ => ?_⟩⟩
      rcases hmem x hx with hx | rfl
      · exact (hlt x hx).le
      · exact le_rfl
    · -- the new version does not matter for this read
      have hskip : (chain (pages ++ [r]) id).reverse.find? (fun v => v.1 ≤ query) =
          (chain pages id).reverse.find? fun v => v.1 ≤ query := by
        rw [chain_concat]
        split
        · next hid =>
          have hquery : ¬ r.lsn ≤ query := fun hle => hr ⟨hid, hle⟩
          simp [hquery]
        · rfl
      rw [hskip]
      have hold : ∀ x ∈ pages ++ [r], x.pageId = id → x.lsn ≤ query → x ∈ pages := by
        intro x hx hid hle
        rcases hmem x hx with hx | rfl
        · exact hx
        · exact absurd ⟨hid, hle⟩ hr
      rcases ih hsorted with ⟨r', hfind, hlatest⟩ | ⟨hfind, hnone⟩
      · refine .inl ⟨r', hfind, ⟨List.mem_append_left _ hlatest.mem, hlatest.key_eq, hlatest.le, fun x hx hid hle => ?_⟩⟩
        exact hlatest.greatest x (hold x hx hid hle) hid hle
      · refine .inr ⟨hfind, fun x hx hid => ?_⟩
        by_contra hle
        exact hle (hnone x (hold x hx hid (Nat.le_of_not_lt hle)) hid)

theorem ShowsLine.getPage (hs : ShowsLine h l) {query : Nat} (hfloor : l.floor ≤ query) (id : Nat) :
    l.Answers id query (LocalFile.getPage h.inner id query) := by
  have hnot : ¬ query < h.inner.retentionFloor := by
    have := hs.floor
    omega
  unfold LocalFile.getPage
  rw [if_neg hnot]
  rcases hs.chains id with ⟨hnone, hpages⟩ | hsome
  · rw [hnone]
    exact .inr ⟨⟨_, rfl⟩, fun r hr hid => absurd hid (hpages r hr)⟩
  · rw [hsome]
    dsimp only
    rcases find_reverse_latest l.pagesSorted id query with ⟨r, hfind, hlatest⟩ | ⟨hfind, hnone⟩
    · rw [hfind]
      exact .inl ⟨r, rfl, hlatest⟩
    · rw [hfind]
      exact .inr ⟨⟨_, rfl⟩, hnone⟩

/-- A frame whose length word wraps to zero ends the log. -/
theorem readFrame_wrapped {tag : UInt8} {payload : Bytes} (hlen : payload.length + 1 = 2 ^ 32) (next : Nat) :
    readFrame next (frameBytes tag payload) = .stop next := by
  have hword : Framing.ofLE ((frameBytes tag payload).take 4) = 0 := by
    rw [frameBytes, hlen, List.append_assoc, List.take_left' (Framing.length_toLE 4 _)]
    decide
  unfold readFrame
  rw [hword]
  split_ifs
  · rfl
  · simp

/-- A batch that makes its frame's length word wrap is acked, and no scan finds it. -/
theorem appendWal_wrapped {h : Handle} {frames : List Frame} {token : FenceToken} {records : List WalRecord}
    (hlogged : Logged h.file frames h.inner) (htoken : token.epoch = h.inner.epoch) (hne : records ≠ [])
    (hlen : (walPayload records).length + 1 = 2 ^ 32) (hroom : h.inner.fileEnd + 2 ^ 32 + 8 ≤ MAX_OFFSET) :
    ∃ h', runOn (appendWal none token records) h = (.ok (h.inner.nextLsn + records.length - 1), h') ∧
      ∀ after, scanWal h'.file after = scanWal h.file after := by
  have hframe : (Op.appendWal token records).frame h.inner = .ok (T_WAL, walPayload records) := by
    simp [Op.frame, hne, htoken]
  have hsize : (frameBytes T_WAL (walPayload records)).length = 2 ^ 32 + 8 := by
    simp only [frameBytes, List.length_append, List.length_cons, Framing.length_toLE]
    omega
  have hexec : h.exec none (.appendWal token records) =
      (.ok (.lsn (h.inner.nextLsn + records.length - 1)), ⟨h.file ++ frameBytes T_WAL (walPayload records),
        (Op.appendWal token records).applied h.inner (frameBytes T_WAL (walPayload records)).length⟩) := by
    rw [Handle.exec_eq, Handle.step, hframe]
    dsimp only
    rw [if_neg (by omega), hlogged.fileEnd, Framing.writeAt_end]
    rfl
  rw [exec_appendWal] at hexec
  obtain ⟨n, hrun, hack⟩ := (eq_of_map hexec).2 _ rfl
  obtain rfl := Ack.lsn.inj hack
  refine ⟨_, hrun, fun after => ?_⟩
  rw [hlogged.scanWal_append (readFrame_wrapped hlen _)]
  have hstop : readFrame h.inner.nextLsn [] = .stop h.inner.nextLsn := by simp [readFrame]
  have hscan := hlogged.scanWal_append hstop after
  rw [List.append_nil] at hscan
  exact hscan.symm

end LocalFile

/-! ## The object store -/

namespace Object

/-- The WAL records among items numbered from `start`. -/
def entriesFrom (start : Nat) (items : Segment) : List LogEntry :=
  (items.zipIdx start).filterMap fun
    | (.wal bytes, lsn) => some ⟨lsn, bytes⟩
    | (.page .., _) => none

theorem entriesFrom_append (start : Nat) (a b : Segment) :
    entriesFrom start (a ++ b) = entriesFrom start a ++ entriesFrom (start + a.length) b := by
  simp only [entriesFrom, List.zipIdx_append, List.filterMap_append]

theorem entriesFrom_wal : ∀ (records : List WalRecord) (start : Nat),
    entriesFrom start (records.map .wal) = numbered start records
  | [], _ => rfl
  | r :: records, start => by
    have ih := entriesFrom_wal records (start + 1)
    simp only [entriesFrom, numbered] at ih ⊢
    simp [ih]

theorem pagesFrom_wal (start : Nat) (records : List WalRecord) : pagesFrom start (records.map .wal) = [] := by
  rw [pagesFrom, List.filterMap_eq_nil_iff]
  rintro ⟨item, lsn⟩ hmem
  obtain ⟨r, -, rfl⟩ := List.mem_map.1 (List.fst_mem_of_mem_zipIdx hmem)
  rfl

theorem scanWal_eq {b : Bucket} (h : b.log.map Prod.fst = List.range' 1 b.log.length) (after : Nat) :
    Object.scanWal b after = (entriesFrom 1 b.items).filter (after < ·.lsn) := by
  rw [Object.scanWal, sortedLog_of_slots h, entriesFrom, List.filter_filterMap]
  congr 1
  funext ⟨item, lsn⟩
  cases item with
  | wal bytes => by_cases hlt : after < lsn <;> simp [hlt, Option.filter]
  | page pageId image => simp

/-- A handle with its bucket shows a line. -/
structure ShowsLine (w : World) (l : Line) : Prop where
  inv : Inv w
  wal : l.wal = entriesFrom 1 w.bucket.items
  pages : l.pages = w.bucket.history
  durable : w.inner.durableLsn = l.durable
  floor : w.inner.retentionFloor = l.floor

variable {w : World} {l : Line}

theorem zipIdx_sorted (items : Segment) (start : Nat) : (items.zipIdx start).Pairwise fun x y => x.2 < y.2 := by
  have hrange : ((items.zipIdx start).map Prod.snd).Pairwise (· < ·) := by
    rw [List.zipIdx_map_snd]
    exact List.pairwise_lt_range'
  exact List.pairwise_map.1 hrange

/-- The line of a handle on its bucket. -/
def Inv.line (h : Inv w) : Line where
  wal := entriesFrom 1 w.bucket.items
  pages := w.bucket.history
  durable := w.inner.durableLsn
  floor := w.inner.retentionFloor
  walSorted := by
    refine (zipIdx_sorted w.bucket.items 1).filterMap _ fun x y hlt e he e' he' => ?_
    obtain ⟨item, lsn⟩ := x
    obtain ⟨item', lsn'⟩ := y
    cases item with
    | page pageId image => cases he
    | wal bytes => cases item' with
      | page pageId image => cases he'
      | wal bytes' =>
        cases he
        cases he'
        exact hlt
  walReached := by
    intro e he
    obtain ⟨⟨item, lsn⟩, hmem, heq⟩ := List.mem_filterMap.1 he
    have hlsn := List.snd_lt_add_of_mem_zipIdx hmem
    have hpos := List.le_snd_of_mem_zipIdx hmem
    rw [h.durable]
    cases item with
    | page pageId image => cases heq
    | wal bytes =>
      cases heq
      dsimp only at hlsn hpos ⊢
      omega
  pagesSorted := by
    refine (zipIdx_sorted w.bucket.items 1).filterMap _ fun x y hlt r hr r' hr' => ?_
    obtain ⟨item, lsn⟩ := x
    obtain ⟨item', lsn'⟩ := y
    cases item with
    | wal bytes => cases hr
    | page pageId image => cases item' with
      | wal bytes => cases hr'
      | page pageId' image' =>
        cases hr
        cases hr'
        exact hlt
  pagesReached := fun r hr => ⟨(lsn_le_of_mem_history hr).1, h.lsn_le hr⟩

/-- A handle that keeps its invariant shows a line: so does every session of one. -/
theorem Inv.showsLine (h : Inv w) : ShowsLine w h.line := ⟨h, rfl, rfl, rfl, rfl⟩

theorem ShowsLine.withStore : ShowsLine (withStore .empty) .empty := ⟨Session.Good.start.inv, rfl, rfl, rfl, rfl⟩

/-- A call that leaves the log as it is shows the same records and versions. -/
theorem ShowsLine.of_log {w' : World} {l' : Line} (hs : ShowsLine w l) (hinv : Inv w')
    (hlog : w'.bucket.log = w.bucket.log) (hwal : l'.wal = l.wal) (hpages : l'.pages = l.pages)
    (hdurable : l'.durable = l.durable) (hfloor : w'.inner.retentionFloor = l'.floor) : ShowsLine w' l' := by
  refine ⟨hinv, ?_, ?_, ?_, hfloor⟩
  · rw [hwal, hs.wal, Bucket.items, Bucket.items, hlog]
  · rw [hpages, hs.pages, Bucket.history, Bucket.history, Bucket.items, Bucket.items, hlog]
  · rw [hinv.durable_of_log hs.inv hlog, hs.durable, hdurable]

theorem ShowsLine.scanWal (hs : ShowsLine w l) (after : Nat) :
    Object.scanWal w.bucket after = l.wal.filter (after < ·.lsn) := by
  rw [scanWal_eq hs.inv.slots, hs.wal]

theorem ShowsLine.durable_eq (hs : ShowsLine w l) : w.bucket.items.length = l.durable := by
  rw [← hs.inv.durable, hs.durable]

theorem ShowsLine.acquireFence (hs : ShowsLine w l) (owner : Nat) :
    ∃ token w', runOn (Object.acquireFence owner) w = (.ok token, w') ∧ ShowsLine w' l := by
  obtain ⟨w', hrun, hinv, hlog, hfloor, -⟩ := run_acquireFence hs.inv owner
  exact ⟨_, w', hrun, hs.of_log hinv hlog rfl rfl rfl (hfloor.trans hs.floor)⟩

theorem ShowsLine.appendWal (hs : ShowsLine w l) (config : Config) (token : FenceToken) (records : List WalRecord) :
    (∃ e, runOn (Object.appendWal config token records) w = (.error e, w)) ∨
      ∃ w', runOn (Object.appendWal config token records) w = (.ok (l.durable + records.length), w') ∧
        records ≠ [] ∧ ShowsLine w' (l.append records) := by
  rw [Object.appendWal, StateExcept.run_ite]
  split_ifs with hempty
  · exact .inl ⟨_, rfl⟩
  · have hlen := hs.durable_eq
    rcases run_appendSegment hs.inv config token (records.map .wal) with
      ⟨e, hrun⟩ | ⟨w', hrun, hinv, hitems, hfloor⟩
    · exact .inl ⟨e, hrun⟩
    · rw [List.length_map, hlen] at hrun
      refine .inr ⟨w', hrun, by simpa using hempty, hinv, ?_, ?_, ?_, hfloor.trans hs.floor⟩
      · rw [hitems, entriesFrom_append, entriesFrom_wal, ← hs.wal, hlen, add_comm 1]
        rfl
      · rw [Bucket.history, hitems, pagesFrom_append, pagesFrom_wal, List.append_nil]
        exact hs.pages
      · rw [hinv.durable, hitems, List.length_append, List.length_map, hlen]
        rfl

theorem ShowsLine.putPage (hs : ShowsLine w l) (config : Config) (token : FenceToken) (pageId : Nat) (image : Bytes) :
    (∃ e, runOn (Object.putPage config token pageId image) w = (.error e, w)) ∨
      ∃ w', runOn (Object.putPage config token pageId image) w = (.ok (l.durable + 1), w') ∧
        ShowsLine w' (l.put pageId image) := by
  rw [Object.putPage, StateExcept.run_ite]
  split_ifs with hsize
  · exact .inl ⟨_, rfl⟩
  · have hlen := hs.durable_eq
    rcases run_appendSegment hs.inv config token [.page pageId image] with
      ⟨e, hrun⟩ | ⟨w', hrun, hinv, hitems, hfloor⟩
    · exact .inl ⟨e, hrun⟩
    · rw [hlen] at hrun
      refine .inr ⟨w', hrun, hinv, ?_, ?_, ?_, hfloor.trans hs.floor⟩
      · rw [hitems, entriesFrom_append, ← hs.wal]
        simp [Line.put, entriesFrom]
      · rw [Bucket.history, hitems, pagesFrom_append, hlen, add_comm 1]
        show l.pages ++ _ = pagesFrom 1 w.bucket.items ++ _
        rw [hs.pages]
        rfl
      · rw [hinv.durable, hitems, List.length_append, hlen]
        rfl

theorem ShowsLine.setRetentionFloor (hs : ShowsLine w l) (lsn : Nat) :
    (∃ e, runOn (Object.setRetentionFloor lsn) w = (.error e, w)) ∨
      ∃ w', runOn (Object.setRetentionFloor lsn) w = (.ok (), w') ∧ ShowsLine w' (l.setFloor lsn) := by
  by_cases hback : lsn < w.inner.retentionFloor
  · left
    rw [Object.setRetentionFloor, StateExcept.run_bind_ok (StateExcept.run_get w)]
    dsimp only
    rw [StateExcept.run_ite, if_pos hback]
    exact ⟨_, rfl⟩
  · right
    obtain ⟨answer, w', hrun, hinv, hlog, -⟩ := run_setRetentionFloor hs.inv lsn
    have hmoved : (answer, w') = (.ok (), { w with
        bucket := { w.bucket with retention := some lsn }, inner := { w.inner with retentionFloor := lsn } }) := by
      rw [← hrun, Object.setRetentionFloor, StateExcept.run_bind_ok (StateExcept.run_get w)]
      dsimp only
      rw [StateExcept.run_ite, if_neg hback]
      rfl
    obtain ⟨rfl, rfl⟩ := Prod.mk.inj hmoved
    exact ⟨_, hrun, hs.of_log hinv hlog rfl rfl rfl rfl⟩

theorem ShowsLine.getPage (hs : ShowsLine w l) {query : Nat} (hfloor : l.floor ≤ query) (id : Nat) :
    ∃ answer w', runOn (Object.getPage id query) w = (answer, w') ∧ ShowsLine w' l ∧ l.Answers id query answer := by
  obtain ⟨answer, w', hrun, hwarm, hanswer⟩ := run_getPage hs.inv id (hs.floor ▸ hfloor)
  refine ⟨answer, w', hrun, hs.of_log (hwarm.inv hs.inv) ?_ rfl rfl rfl ?_, ?_⟩
  · rw [hwarm.bucket]
  · rw [hwarm.inner, hs.floor]
  · rw [← hs.pages] at hanswer
    rcases hanswer with hsome | ⟨herror, hnone⟩
    · exact .inl hsome
    · exact .inr ⟨⟨_, herror⟩, hnone⟩

end Object

/-! ## Either backend -/

namespace Backend

/-- A batch the backend's log can carry: a WAL frame of a file has 32 bits for its length. -/
def Carries : Backend → List WalRecord → Prop
  | .file _, records => (LocalFile.walPayload records).length < 2 ^ 32 - 1
  | .object .., _ => True

/-- A backend shows a line. -/
def Shows : Backend → Line → Prop
  | .file h => LocalFile.ShowsLine h
  | .object _ w => Object.ShowsLine w

variable {b b' : Backend} {l : Line}

theorem Shows.durable (hs : b.Shows l) : b.durableLsn = l.durable := by
  cases b with
  | file h => exact LocalFile.ShowsLine.durable hs
  | object config w => exact Object.ShowsLine.durable hs

theorem Shows.floor (hs : b.Shows l) : b.pitrFloor = l.floor := by
  cases b with
  | file h => exact LocalFile.ShowsLine.floor hs
  | object config w => exact Object.ShowsLine.floor hs

theorem Shows.scanWal (hs : b.Shows l) (after : Nat) : b.scanWal after = .ok (l.wal.filter (after < ·.lsn)) := by
  cases b with
  | file h => exact LocalFile.ShowsLine.scanWal hs after
  | object config w => exact congrArg Except.ok (Object.ShowsLine.scanWal hs after)

theorem Shows.acquireFence (hs : b.Shows l) (owner : Nat) : (b.acquireFence owner).2.Shows l := by
  cases b with
  | file h =>
    obtain ⟨answer, h', hrun, hs'⟩ := LocalFile.ShowsLine.acquireFence hs owner
    simp only [Backend.acquireFence, call, hrun]
    exact hs'
  | object config w =>
    obtain ⟨token, w', hrun, hs'⟩ := Object.ShowsLine.acquireFence hs owner
    simp only [Backend.acquireFence, call, hrun]
    exact hs'

/-- An append is refused and changes nothing, or it is acked with the LSN of its last record. -/
theorem Shows.appendWal (hs : b.Shows l) (token : FenceToken) {records : List WalRecord} (hfits : b.Carries records) :
    (∃ e, b.appendWal token records = (.error e, b)) ∨
      ∃ b', b.appendWal token records = (.ok (l.durable + records.length), b') ∧ b'.Shows (l.append records) := by
  cases b with
  | file h =>
    rcases LocalFile.ShowsLine.appendWal hs token hfits with ⟨e, hrun⟩ | ⟨h', hrun, -, hs'⟩
    · exact .inl ⟨e, by simp only [Backend.appendWal, call, hrun]⟩
    · exact .inr ⟨.file h', by simp only [Backend.appendWal, call, hrun], hs'⟩
  | object config w =>
    rcases Object.ShowsLine.appendWal hs config token records with ⟨e, hrun⟩ | ⟨w', hrun, -, hs'⟩
    · exact .inl ⟨e, by simp only [Backend.appendWal, call, hrun]⟩
    · exact .inr ⟨.object config w', by simp only [Backend.appendWal, call, hrun], hs'⟩

theorem Shows.putPage (hs : b.Shows l) (token : FenceToken) (pageId : UInt64) (image : Bytes) :
    (∃ e, b.putPage token pageId image = (.error e, b)) ∨
      ∃ b', b.putPage token pageId image = (.ok (l.durable + 1), b') ∧ b'.Shows (l.put pageId.toNat image) := by
  cases b with
  | file h =>
    rcases LocalFile.ShowsLine.putPage hs token pageId image with ⟨e, hrun⟩ | ⟨h', hrun, hs'⟩
    · exact .inl ⟨e, by simp only [Backend.putPage, call, hrun]⟩
    · exact .inr ⟨.file h', by simp only [Backend.putPage, call, hrun], hs'⟩
  | object config w =>
    rcases Object.ShowsLine.putPage hs config token pageId.toNat image with ⟨e, hrun⟩ | ⟨w', hrun, hs'⟩
    · exact .inl ⟨e, by simp only [Backend.putPage, call, hrun]⟩
    · exact .inr ⟨.object config w', by simp only [Backend.putPage, call, hrun], hs'⟩

theorem Shows.setRetentionFloor (hs : b.Shows l) (lsn : UInt64) :
    (∃ e, b.setRetentionFloor lsn = (.error e, b)) ∨
      ∃ b', b.setRetentionFloor lsn = (.ok (), b') ∧ b'.Shows (l.setFloor lsn.toNat) := by
  cases b with
  | file h =>
    rcases LocalFile.ShowsLine.setRetentionFloor hs lsn with ⟨e, hrun⟩ | ⟨h', hrun, hs'⟩
    · exact .inl ⟨e, by simp only [Backend.setRetentionFloor, call, hrun]⟩
    · exact .inr ⟨.file h', by simp only [Backend.setRetentionFloor, call, hrun], hs'⟩
  | object config w =>
    rcases Object.ShowsLine.setRetentionFloor hs lsn.toNat with ⟨e, hrun⟩ | ⟨w', hrun, hs'⟩
    · exact .inl ⟨e, by simp only [Backend.setRetentionFloor, call, hrun]⟩
    · exact .inr ⟨.object config w', by simp only [Backend.setRetentionFloor, call, hrun], hs'⟩

theorem Shows.getPage (hs : b.Shows l) {query : Nat} (hfloor : l.floor ≤ query) (id : Nat) :
    l.Answers id query (b.getPage id query).1 := by
  cases b with
  | file h => exact LocalFile.ShowsLine.getPage hs hfloor id
  | object config w =>
    obtain ⟨answer, w', hrun, -, hanswer⟩ := Object.ShowsLine.getPage hs hfloor id
    simp only [Backend.getPage, hrun]
    exact hanswer

theorem Shows.getPage_below (hs : b.Shows l) {query : Nat} (hbelow : query < l.floor) (id : Nat) :
    ∃ message, (b.getPage id query).1 = .error (.notFound message) := by
  cases b with
  | file h =>
    have hlt : query < h.inner.retentionFloor := by rwa [LocalFile.ShowsLine.floor hs]
    simp only [Backend.getPage, LocalFile.getPage]
    exact ⟨_, if_pos hlt⟩
  | object config w =>
    have hlt : query < w.inner.retentionFloor := by rwa [Object.ShowsLine.floor hs]
    simp only [Backend.getPage, Object.run_getPage_below hlt]
    exact ⟨_, rfl⟩

end Backend

end Twill.Storage
