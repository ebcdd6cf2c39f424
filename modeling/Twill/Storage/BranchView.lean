/-
What a branch shows: the log and the pages of the parent up to the fork, then
the branch's own.

A run interleaves calls on the branch with calls on the parent. The ghosts of a
run hold what the callers were told: the records and page versions of the acked
calls with the LSNs these returned.
-/
import Twill.Storage.Line

namespace Twill.Storage

open Object (Page PageRecord IsLatest NoVersion)
open LocalFile (numbered)
open Transition (RunWhere)
open StateExcept (runOn)

/-! ## Runs of a fork -/

inductive Write where
  | acquireFence (owner : Nat)
  | appendWal (token : FenceToken) (records : List WalRecord)
  | putPage (token : FenceToken) (pageId : UInt64) (image : Bytes)
  | setRetentionFloor (lsn : UInt64)

inductive ForkAct where
  | branch (w : Write)
  | parent (w : Write)

/-- The records of an acked batch, numbered up to the LSN the append returned. -/
def ackedEntries (records : List WalRecord) : Except StorageError Nat → List LogEntry
  | .ok last => numbered (last + 1 - records.length) records
  | .error _ => []

/-- The version of an acked put. -/
def ackedPage (pageId : UInt64) (image : Bytes) : Except StorageError Nat → List PageRecord
  | .ok lsn => [⟨pageId.toNat, lsn, image⟩]
  | .error _ => []

namespace Backend

def write (b : Backend) : Write → Backend
  | .acquireFence owner => (b.acquireFence owner).2
  | .appendWal token records => (b.appendWal token records).2
  | .putPage token pageId image => (b.putPage token pageId image).2
  | .setRetentionFloor lsn => (b.setRetentionFloor lsn).2

/-- The versions a call puts. -/
def putBy (b : Backend) : Write → List PageRecord
  | .putPage token pageId image => ackedPage pageId image (b.putPage token pageId image).1
  | _ => []

end Backend

structure Forked where
  branch : BranchStorage
  /-- The records of the branch's acked appends. -/
  acked : List LogEntry
  /-- The versions of the branch's acked puts. -/
  puts : List PageRecord
  /-- The versions the parent has been given since the fork. -/
  parentPuts : List PageRecord
  /-- The parent as it would be had nothing been written through the branch. -/
  alone : Backend

namespace Forked

def start (branch : BranchStorage) : Forked := ⟨branch, [], [], [], branch.parent⟩

def stepBranch (s : Forked) : Write → Forked
  | .acquireFence owner => { s with branch := (s.branch.acquireFence owner).2 }
  | .appendWal token records =>
    let (res, branch) := s.branch.appendWal token records
    { s with branch, acked := s.acked ++ ackedEntries records res }
  | .putPage token pageId image =>
    let (res, branch) := s.branch.putPage token pageId image
    { s with branch, puts := s.puts ++ ackedPage pageId image res }
  | .setRetentionFloor lsn => { s with branch := (s.branch.setRetentionFloor lsn).2 }

def step (s : Forked) : ForkAct → Option Forked
  | .branch w => some (s.stepBranch w)
  | .parent w => some { s with
      branch := { s.branch with parent := s.branch.parent.write w }
      parentPuts := s.parentPuts ++ s.branch.parent.putBy w
      alone := s.alone.write w }

/-- An append's batch is one the log of its side can carry. -/
def Carried (s : Forked) : ForkAct → Prop
  | .branch (.appendWal _ records) => s.branch.overlay.Carries records
  | .parent (.appendWal _ records) => s.branch.parent.Carries records
  | _ => True

/-! ## The two lines behind a branch -/

/-- The page versions of a branch: the parent's up to the fork, and its own. -/
def merged (s : Forked) (base : List PageRecord) : List PageRecord :=
  ((base ++ s.parentPuts).filter fun r => r.lsn ≤ s.branch.baseLsn) ++ s.puts

/-- A backend whose line has grown from `l` by some records and by the versions `puts`. -/
def Grown (l : Line) (puts : List PageRecord) (b : Backend) : Prop :=
  ∃ p, b.Shows p ∧ p.pages = l.pages ++ puts ∧ l.durable ≤ p.durable ∧
    ∃ later, p.wal = l.wal ++ later ∧ ∀ e ∈ later, l.durable < e.lsn

/-- What holds along a run: the parent's line has grown from the one at the fork,
and the overlay's line is what the branch acked, in LSNs from the fork. -/
structure Backed (l : Line) (branch : BranchStorage) (s : Forked) : Prop where
  base : s.branch.baseLsn = branch.baseLsn
  alone : s.branch.parent = s.alone
  parent : Grown l s.parentPuts s.branch.parent
  overlay : ∃ o, s.branch.overlay.Shows o ∧ s.acked = o.wal.map s.branch.shiftEntry ∧
    s.puts = o.pages.map fun r => { r with lsn := s.branch.toGlobal r.lsn }

variable {l : Line} {branch : BranchStorage} {s t : Forked}

theorem Backed.start (hparent : branch.parent.Shows l) (hoverlay : branch.overlay.Shows .empty) :
    Backed l branch (start branch) :=
  ⟨rfl, rfl, ⟨l, hparent, by simp [Forked.start], le_rfl, [], by simp, by simp⟩, ⟨.empty, hoverlay, rfl, rfl⟩⟩

theorem map_numbered (branch : BranchStorage) : ∀ (records : List WalRecord) (first : Nat),
    (numbered first records).map branch.shiftEntry = numbered (branch.toGlobal first) records
  | [], _ => rfl
  | r :: records, first => by
    have ih := map_numbered branch records (first + 1)
    simp only [numbered, List.map_cons, ih]
    rfl

/-- A call on the branch changes the overlay and leaves its fork point. -/
theorem Backed.stepBranch {w : Write} (h : Backed l branch s) (hcarried : s.Carried (.branch w)) :
    Backed l branch (s.stepBranch w) := by
  obtain ⟨o, hshows, hacked, hputs⟩ := h.overlay
  cases w with
  | acquireFence owner => exact ⟨h.base, h.alone, h.parent, o, hshows.acquireFence owner, hacked, hputs⟩
  | appendWal token records =>
    simp only [Forked.stepBranch, BranchStorage.appendWal]
    rcases hshows.appendWal token hcarried with ⟨e, hrun⟩ | ⟨b', hrun, hshows'⟩
    · rw [hrun]
      refine ⟨h.base, h.alone, h.parent, o, hshows, ?_, hputs⟩
      simpa [ackedEntries, Except.map] using hacked
    · rw [hrun]
      refine ⟨h.base, h.alone, h.parent, o.append records, hshows', ?_, hputs⟩
      have hfirst : s.branch.toGlobal (o.durable + records.length) + 1 - records.length =
          s.branch.toGlobal (o.durable + 1) := by
        simp only [BranchStorage.toGlobal]
        omega
      simp only [Except.map, ackedEntries, hacked, Line.append, List.map_append, hfirst]
      exact congrArg _ (map_numbered s.branch records (o.durable + 1)).symm
  | putPage token pageId image =>
    simp only [Forked.stepBranch, BranchStorage.putPage]
    rcases hshows.putPage token pageId image with ⟨e, hrun⟩ | ⟨b', hrun, hshows'⟩
    · rw [hrun]
      refine ⟨h.base, h.alone, h.parent, o, hshows, hacked, ?_⟩
      simpa [ackedPage, Except.map] using hputs
    · rw [hrun]
      refine ⟨h.base, h.alone, h.parent, _, hshows', hacked, ?_⟩
      simp only [Except.map, ackedPage, hputs, Line.put, List.map_append]
      rfl
  | setRetentionFloor lsn =>
    simp only [Forked.stepBranch, BranchStorage.setRetentionFloor]
    rcases hshows.setRetentionFloor (UInt64.ofNat (s.branch.toLocal lsn.toNat)) with ⟨e, hrun⟩ | ⟨b', hrun, hshows'⟩
    · rw [hrun]
      exact ⟨h.base, h.alone, h.parent, o, hshows, hacked, hputs⟩
    · rw [hrun]
      exact ⟨h.base, h.alone, h.parent, _, hshows', hacked, hputs⟩

theorem Grown.write {b : Backend} {puts : List PageRecord} {w : Write} (h : Grown l puts b)
    (hcarried : ∀ token records, w = .appendWal token records → b.Carries records) :
    Grown l (puts ++ b.putBy w) (b.write w) := by
  obtain ⟨p, hshows, hpages, hdurable, later, hwal, hlater⟩ := h
  have hrefused : b.putBy w = [] → b.write w = b → Grown l (puts ++ b.putBy w) (b.write w) := by
    intro hnone hsame
    rw [hnone, hsame, List.append_nil]
    exact ⟨p, hshows, hpages, hdurable, later, hwal, hlater⟩
  cases w with
  | acquireFence owner =>
    refine ⟨p, hshows.acquireFence owner, ?_, hdurable, later, hwal, hlater⟩
    simpa [Backend.putBy] using hpages
  | appendWal token records =>
    rcases hshows.appendWal token (hcarried token records rfl) with ⟨e, hrun⟩ | ⟨b', hrun, hshows'⟩
    · exact hrefused rfl (by simp only [Backend.write, hrun])
    · refine ⟨p.append records, ?_, ?_, hdurable.trans (Nat.le_add_right _ _),
        later ++ numbered (p.durable + 1) records, ?_, fun e he => ?_⟩
      · simpa only [Backend.write, hrun] using hshows'
      · simpa [Backend.putBy, Line.append] using hpages
      · simp only [Line.append, hwal, List.append_assoc]
      · rcases List.mem_append.1 he with he | he
        · exact hlater e he
        · have := (Line.numbered_sorted records (p.durable + 1)).2 e he
          omega
  | putPage token pageId image =>
    rcases hshows.putPage token pageId image with ⟨e, hrun⟩ | ⟨b', hrun, hshows'⟩
    · exact hrefused (by simp only [Backend.putBy, hrun, ackedPage]) (by simp only [Backend.write, hrun])
    · refine ⟨p.put pageId.toNat image, ?_, ?_, hdurable.trans (Nat.le_succ _), later, hwal, hlater⟩
      · simpa only [Backend.write, hrun] using hshows'
      · simp only [Line.put, hpages, Backend.putBy, hrun, ackedPage, List.append_assoc]
  | setRetentionFloor lsn =>
    rcases hshows.setRetentionFloor lsn with ⟨e, hrun⟩ | ⟨b', hrun, hshows'⟩
    · exact hrefused rfl (by simp only [Backend.write, hrun])
    · refine ⟨p.setFloor lsn.toNat, ?_, ?_, hdurable, later, hwal, hlater⟩
      · simpa only [Backend.write, hrun] using hshows'
      · simpa [Backend.putBy, Line.setFloor] using hpages

theorem Backed.run (hparent : branch.parent.Shows l) (hoverlay : branch.overlay.Shows .empty)
    (hrun : RunWhere step Carried (Forked.start branch) s) : Backed l branch s := by
  refine hrun.invariant (Backed.start hparent hoverlay) fun t u a h hcarried hstep => ?_
  cases a with
  | branch w =>
    obtain rfl := Option.some.inj hstep
    exact h.stepBranch hcarried
  | parent w =>
    obtain rfl := Option.some.inj hstep
    refine ⟨h.base, ?_, h.parent.write fun token records hw => ?_, h.overlay⟩
    · rw [h.alone]
    · subst hw
      exact hcarried

/-! ## The log -/

/-- What a branch owes its reader: a scan returns the records the parent had at the
fork, up to it, and then the branch's own, in strictly ascending order; a scan of
the parent does not see the branch. -/
structure LogView (branch : BranchStorage) (s : Forked) : Prop where
  scan : ∀ after, ∃ base, branch.parent.scanWal after = .ok base ∧
    s.branch.scanWal after =
      .ok ((base.filter fun e => e.lsn ≤ branch.baseLsn) ++ s.acked.filter (after < ·.lsn))
  ascending : ∀ after entries, s.branch.scanWal after = .ok entries → entries.Pairwise fun x y => x.lsn < y.lsn
  parent : ∀ after, s.branch.parent.scanWal after = s.alone.scanWal after

/-- Both cases of the scan, put together. -/
theorem Backed.scanWal (h : Backed l branch s) (hbase : branch.baseLsn ≤ l.durable) (after : Nat) :
    s.branch.scanWal after =
      .ok (((l.wal.filter (after < ·.lsn)).filter fun e => e.lsn ≤ branch.baseLsn) ++
        s.acked.filter (after < ·.lsn)) := by
  obtain ⟨p, hparent, -, -, later, hwal, hlater⟩ := h.parent
  obtain ⟨o, hoverlay, hacked, -⟩ := h.overlay
  rw [← h.base] at hbase ⊢
  unfold BranchStorage.scanWal
  split_ifs with hafter
  · -- below the fork: what the parent got later is above it, and every own record is past `after`
    have hdrop : (later.filter (after < ·.lsn)).filter (fun e => e.lsn ≤ s.branch.baseLsn) = [] := by
      rw [List.filter_eq_nil_iff]
      intro e he
      have := hlater e (List.mem_of_mem_filter he)
      simp only [decide_eq_true_eq]
      omega
    have hown : o.wal.filter (0 < ·.lsn) = o.wal := by
      rw [List.filter_eq_self]
      intro e he
      simpa using (o.walReached e he).1
    have hall : s.acked.filter (after < ·.lsn) = s.acked := by
      rw [List.filter_eq_self, hacked]
      intro e he
      obtain ⟨e, -, rfl⟩ := List.mem_map.1 he
      exact decide_eq_true (hafter.trans_le (Nat.le_add_right _ _))
    rw [hparent.scanWal, hoverlay.scanWal, hown, hall, hacked, hwal, List.filter_append]
    show Except.ok (List.filter _ (_ ++ _) ++ _) = _
    rw [List.filter_append, hdrop, List.append_nil]
  · -- past the fork: nothing of the parent, and the overlay's records are compared in its own LSNs
    have hnone : (l.wal.filter (after < ·.lsn)).filter (fun e => e.lsn ≤ s.branch.baseLsn) = [] := by
      rw [List.filter_eq_nil_iff]
      intro e he
      have := (List.mem_filter.1 he).2
      simp only [decide_eq_true_eq] at this ⊢
      omega
    rw [hoverlay.scanWal, hnone, List.nil_append, hacked, List.filter_map]
    show Except.ok _ = _
    congr 3
    funext e
    refine decide_eq_decide.2 ?_
    show after - s.branch.baseLsn < e.lsn ↔ after < s.branch.baseLsn + e.lsn
    omega

/-- A read answers, when it does, the greatest version at or below its LSN. -/
def PageView (s : Forked) (base : List PageRecord) (pageId query : Nat) : Prop :=
  ∀ page, (s.branch.getPage pageId query).1 = .ok page →
    ∃ r, IsLatest (s.merged base) pageId query r ∧ page = r.page

/-- The branch has a version of the page at or below the LSN, its floor is above the
LSN, and the parent, whose floor is not above the fork, has an older version. -/
def Hidden (s : Forked) (base : List PageRecord) (pageId query : Nat) : Prop :=
  s.branch.baseLsn < query ∧ query < s.branch.baseLsn + s.branch.overlay.pitrFloor ∧
    (∃ r ∈ s.puts, r.pageId = pageId ∧ r.lsn ≤ query) ∧ s.branch.parent.pitrFloor ≤ s.branch.baseLsn ∧
    ∃ r ∈ base ++ s.parentPuts, r.pageId = pageId ∧ r.lsn ≤ s.branch.baseLsn

theorem mem_merged {base : List PageRecord} {r : PageRecord} :
    r ∈ s.merged base ↔ (r ∈ base ++ s.parentPuts ∧ r.lsn ≤ s.branch.baseLsn) ∨ r ∈ s.puts := by
  rw [merged, List.mem_append, List.mem_filter, decide_eq_true_eq]

/-- The parent's latest version up to the fork stands while the branch has none. -/
theorem latest_of_parent {base : List PageRecord} {pageId query : Nat} {r : PageRecord}
    (h : IsLatest (base ++ s.parentPuts) pageId (min query s.branch.baseLsn) r)
    (hnone : NoVersion s.puts pageId query) : IsLatest (s.merged base) pageId query r := by
  have hle := h.le
  refine ⟨mem_merged.2 (.inl ⟨h.mem, by omega⟩), h.key_eq, by omega, fun x hx hid hquery => ?_⟩
  rcases mem_merged.1 hx with ⟨hmem, hfork⟩ | hmem
  · exact h.greatest x hmem hid (le_min hquery hfork)
  · exact absurd hquery (Nat.not_le.2 (hnone x hmem hid))

theorem Backed.lsn_puts (h : Backed l branch s) {r : PageRecord} (hr : r ∈ s.puts) : s.branch.baseLsn < r.lsn := by
  obtain ⟨o, -, -, hputs⟩ := h.overlay
  rw [hputs] at hr
  obtain ⟨own, hown, rfl⟩ := List.mem_map.1 hr
  have := (o.pagesReached own hown).1
  show s.branch.baseLsn < s.branch.baseLsn + own.lsn
  omega

/-- The overlay's latest version, in the branch's LSNs, stands over the parent's. -/
theorem latest_of_overlay {base : List PageRecord} {o : Line} {pageId query : Nat} {r : PageRecord}
    (hputs : s.puts = o.pages.map fun r => { r with lsn := s.branch.toGlobal r.lsn })
    (h : IsLatest o.pages pageId (query - s.branch.baseLsn) r) (hquery : s.branch.baseLsn < query) :
    IsLatest (s.merged base) pageId query { r with lsn := s.branch.toGlobal r.lsn } := by
  have hle := h.le
  refine ⟨mem_merged.2 (.inr ?_), h.key_eq, ?_, fun x hx hid hle => ?_⟩
  · rw [hputs]
    exact List.mem_map_of_mem h.mem
  · show s.branch.baseLsn + r.lsn ≤ query
    omega
  · show x.lsn ≤ s.branch.baseLsn + r.lsn
    rcases mem_merged.1 hx with ⟨-, hfork⟩ | hmem
    · omega
    · rw [hputs] at hmem
      obtain ⟨own, hown, rfl⟩ := List.mem_map.1 hmem
      have hlsn : s.branch.baseLsn + own.lsn ≤ query := hle
      have := h.greatest own hown hid (by omega)
      show s.branch.baseLsn + own.lsn ≤ _
      omega

/-- What the parent answers at the fork, or below it, for a page the branch has no version of. -/
theorem Backed.parent_answer (h : Backed l branch s) {pageId query lsn : Nat} (hlsn : lsn = min query s.branch.baseLsn)
    (hnone : NoVersion s.puts pageId query) {page : Page}
    (hread : (s.branch.parent.getPage pageId lsn).1 = .ok page) :
    ∃ r, IsLatest (s.merged l.pages) pageId query r ∧ page = r.page := by
  obtain ⟨p, hshows, hpages, -⟩ := h.parent
  by_cases hfloor : lsn < p.floor
  · obtain ⟨message, hbelow⟩ := hshows.getPage_below hfloor pageId
    rw [hbelow] at hread
    cases hread
  · rcases hshows.getPage (Nat.le_of_not_lt hfloor) pageId with ⟨r, hok, hlatest⟩ | ⟨⟨message, herror⟩, -⟩
    · rw [hok] at hread
      rw [hpages, hlsn] at hlatest
      exact ⟨r, latest_of_parent hlatest hnone, (Except.ok.inj hread).symm⟩
    · rw [herror] at hread
      cases hread

/-- **The pages of a branch.** In every reachable state a read that succeeds answers
the greatest version at or below its LSN exactly when that version is not hidden:
the overlay reports a version below the branch's floor as not found, and the read
falls back to the parent's older one. -/
theorem pageView_iff (l : Line) (branch : BranchStorage) (s : Forked) (hparent : branch.parent.Shows l)
    (hoverlay : branch.overlay.Shows .empty) (hrun : RunWhere step Carried (start branch) s) (pageId query : Nat) :
    s.PageView l.pages pageId query ↔ ¬ s.Hidden l.pages pageId query := by
  have h := Backed.run hparent hoverlay hrun
  by_cases hfork : query ≤ s.branch.baseLsn
  · -- below the fork only the parent is asked
    refine iff_of_true (fun page hread => ?_) fun hhidden => Nat.not_lt.2 hfork hhidden.1
    rw [BranchStorage.getPage_base hfork] at hread
    refine h.parent_answer (min_eq_left hfork).symm (fun r hr _ => ?_) hread
    exact hfork.trans_lt (h.lsn_puts hr)
  · obtain ⟨o, hshows, -, hputs⟩ := h.overlay
    obtain ⟨p, hparentNow, hpages, -⟩ := h.parent
    have hfloor := hshows.floor
    have hmin : s.branch.baseLsn = min query s.branch.baseLsn := (min_eq_right (Nat.le_of_not_le hfork)).symm
    by_cases hbelow : query - s.branch.baseLsn < o.floor
    · -- below the branch's floor the parent answers at the fork
      obtain ⟨message, hnotFound⟩ := hshows.getPage_below hbelow pageId
      have hread : (s.branch.getPage pageId query).1 = (s.branch.parent.getPage pageId s.branch.baseLsn).1 := by
        rw [BranchStorage.getPage_own hfork, hnotFound]
      refine ⟨fun hview hhidden => ?_, fun hseen page hpage => ?_⟩
      · obtain ⟨-, -, ⟨own, hown, hid, hle⟩, hreached, old, hold, hid', hle'⟩ := hhidden
        rw [hparentNow.floor] at hreached
        rcases hparentNow.getPage hreached pageId with ⟨r, hok, hlatest⟩ | ⟨-, hnone⟩
        · obtain ⟨r', hlatest', heq⟩ := hview r.page (hread.trans hok)
          have hnewer := hlatest'.greatest own (mem_merged.2 (.inr hown)) hid hle
          have hlsn : r.lsn = r'.lsn := congrArg Page.lsn heq
          have := hlatest.le
          have := h.lsn_puts hown
          omega
        · rw [← hpages] at hold
          exact absurd hle' (Nat.not_le.2 (hnone old hold hid'))
      · rw [hread] at hpage
        by_cases hown : ∃ r ∈ s.puts, r.pageId = pageId ∧ r.lsn ≤ query
        · -- a version is hidden, so the parent cannot have answered
          refine absurd ⟨Nat.lt_of_not_le hfork, by omega, hown, ?_⟩ hseen
          by_cases hreached : s.branch.baseLsn < p.floor
          · obtain ⟨message, hgone⟩ := hparentNow.getPage_below hreached pageId
            rw [hgone] at hpage
            cases hpage
          · rcases hparentNow.getPage (Nat.le_of_not_lt hreached) pageId with ⟨r, -, hlatest⟩ | ⟨⟨message, hgone⟩, -⟩
            · refine ⟨by rw [hparentNow.floor]; omega, r, ?_, hlatest.key_eq, hlatest.le⟩
              rw [← hpages]
              exact hlatest.mem
            · rw [hgone] at hpage
              cases hpage
        · refine h.parent_answer hmin (fun r hr hid => ?_) hpage
          by_contra hle
          exact hown ⟨r, hr, hid, Nat.le_of_not_lt hle⟩
    · -- at or above it the overlay answers, or has no version
      refine iff_of_true (fun page hread => ?_) fun hhidden => ?_
      · rw [BranchStorage.getPage_own hfork] at hread
        rcases hshows.getPage (Nat.le_of_not_lt hbelow) pageId with ⟨r, hok, hlatest⟩ | ⟨⟨message, hgone⟩, hnone⟩
        · rw [hok] at hread
          exact ⟨_, latest_of_overlay hputs hlatest (Nat.lt_of_not_le hfork), (Except.ok.inj hread).symm⟩
        · rw [hgone] at hread
          refine h.parent_answer hmin (fun r hr hid => ?_) hread
          rw [hputs] at hr
          obtain ⟨own, hown, rfl⟩ := List.mem_map.1 hr
          have := hnone own hown hid
          show query < s.branch.baseLsn + own.lsn
          omega
      · have := hhidden.2.1
        omega

/-- A file with one page, at the LSN of the page's put, and a fork of it there. -/
def forkedPage : BranchStorage :=
  ⟨.file (LocalFile.live [.acquireFence 7, .putPage ⟨1, 7⟩ 5 [1]]), .file .create, 1⟩

theorem pageView_own_version : ∃ s, RunWhere step Carried (start forkedPage) s ∧
    (s.branch.getPage 5 2).1.map Page.lsn = .ok 2 ∧ ∃ l : Line, s.PageView l.pages 5 2 := by
  obtain ⟨l, hparent⟩ : ∃ l, LocalFile.ShowsLine (LocalFile.live [.acquireFence 7, .putPage ⟨1, 7⟩ 5 [1]]) l :=
    LocalFile.ShowsLine.live (by decide +kernel)
  have hrun : RunWhere step Carried (start forkedPage) _ := RunWhere.nil.plays
    [.branch (.acquireFence 8), .branch (.putPage ⟨1, 8⟩ 5 [2])]
    ⟨trivial, _, rfl, trivial, _, rfl, rfl⟩
  refine ⟨_, hrun, by decide +kernel, l, ?_⟩
  exact (pageView_iff l forkedPage _ hparent LocalFile.ShowsLine.create hrun 5 2).2 fun hhidden =>
    absurd hhidden.2.1 (by decide +kernel)

/-- The branch has put two pages and moved its floor to the second's LSN. -/
def floorMoved : Forked :=
  ((((start forkedPage).stepBranch (.acquireFence 8)).stepBranch (.putPage ⟨1, 8⟩ 5 [2])).stepBranch
    (.putPage ⟨1, 8⟩ 6 [3])).stepBranch (.setRetentionFloor 3)

/-- A read at the LSN of the branch's version, which is below the floor, answers the
parent's older version. -/
theorem pageView_breaks : RunWhere step (fun _ _ => True) (start forkedPage) floorMoved ∧
    ∃ l : Line, forkedPage.parent.Shows l ∧ ¬ floorMoved.PageView l.pages 5 2 := by
  obtain ⟨l, hparent⟩ : ∃ l, LocalFile.ShowsLine (LocalFile.live [.acquireFence 7, .putPage ⟨1, 7⟩ 5 [1]]) l :=
    LocalFile.ShowsLine.live (by decide +kernel)
  have hrun : RunWhere step (fun _ _ => True) (start forkedPage) floorMoved := RunWhere.nil.plays
    [.branch (.acquireFence 8), .branch (.putPage ⟨1, 8⟩ 5 [2]), .branch (.putPage ⟨1, 8⟩ 6 [3]),
      .branch (.setRetentionFloor 3)]
    ⟨trivial, _, rfl, trivial, _, rfl, trivial, _, rfl, trivial, _, rfl, rfl⟩
  refine ⟨hrun, l, hparent, fun hview => ?_⟩
  have hread : (floorMoved.branch.getPage 5 2).1.map Page.lsn = .ok 1 := by decide +kernel
  have hown : (⟨5, 2, [2]⟩ : PageRecord) ∈ floorMoved.puts := by decide +kernel
  cases hpage : (floorMoved.branch.getPage 5 2).1 with
  | error e =>
    rw [hpage] at hread
    cases hread
  | ok page =>
    obtain ⟨r, hlatest, rfl⟩ := hview page hpage
    rw [hpage] at hread
    have hnewer : 2 ≤ r.lsn := hlatest.greatest _ (mem_merged.2 (.inr hown)) rfl (le_refl 2)
    have hlsn : r.lsn = 1 := Except.ok.inj hread
    omega

end Forked

end Twill.Storage
