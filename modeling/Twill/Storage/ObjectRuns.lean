/-
What every operation of the object-storage backend keeps, and with it what a
whole run of one handle keeps: reads answer from the history of puts, and a
handle opened anew on the bucket answers as the old one did.

The one operation that can break this is compaction, whose image is named after
the retention floor: it promises every version up to there, so the floor must
not be ahead of the log.
-/
import Twill.Storage.ObjectPages

namespace Twill.Storage.Object

open StateExcept (runOn run_bind run_bind_ok run_bind_error run_pure run_throw run_get run_modify run_ite)
open Versions (Sums)
open Transition (RunWhere)

variable {w w' : World}

/-! ## Appending -/

theorem sortedLog_of_slots {b : Bucket} (h : b.log.map Prod.fst = List.range' 1 b.log.length) :
    b.sortedLog = b.log := by
  apply List.Pairwise.insertionSort_eq
  have hsorted : (b.log.map Prod.fst).Pairwise (· ≤ ·) := by
    rw [h]
    exact List.pairwise_le_range'
  exact List.pairwise_map.1 hsorted

theorem replayLog_of_slots {b : Bucket} (h : b.log.map Prod.fst = List.range' 1 b.log.length) (hw : Nat) :
    replayLog b hw = b.log.foldl (replaySegment hw) ⟨0, 1, 0, 0, [], 0⟩ := by
  rw [replayLog, sortedLog_of_slots h]

/-- The bucket with one more segment. -/
def Bucket.push (b : Bucket) (seg : Segment) : Bucket := { b with log := b.log ++ [(b.log.length + 1, seg)] }

theorem items_push (b : Bucket) (seg : Segment) : (b.push seg).items = b.items ++ seg := by
  simp [Bucket.push, Bucket.items]

theorem history_push (b : Bucket) (seg : Segment) :
    (b.push seg).history = b.history ++ pagesFrom (1 + b.items.length) seg := by
  rw [Bucket.history, items_push, pagesFrom_append]
  rfl

theorem mem_history_push {b : Bucket} {seg : Segment} {r : PageRecord} :
    r ∈ (b.push seg).history ↔ r ∈ b.history ∨ r ∈ pagesFrom (1 + b.items.length) seg := by
  rw [history_push, List.mem_append]

/-- A version no newer than the log was there before it grew. -/
theorem mem_history_of_push {b : Bucket} {seg : Segment} {r : PageRecord} (h : r ∈ (b.push seg).history)
    (hle : r.lsn ≤ b.items.length) : r ∈ b.history := by
  rcases mem_history_push.1 h with h | h
  · exact h
  · have := lsn_lt_of_mem_pagesFrom h
    omega

theorem LayerOk.push {b : Bucket} {key : LayerKey} {records : List PageRecord} (h : LayerOk b key records)
    (seg : Segment) : LayerOk (b.push seg) key records := by
  have hlen : b.items.length ≤ (b.push seg).items.length := by simp [items_push]
  cases key with
  | delta lo hi =>
    obtain ⟨hhi, hrecords⟩ := h
    refine ⟨hhi.trans hlen, fun r => ?_⟩
    rw [hrecords r]
    constructor
    · rintro ⟨hr, hspan⟩
      exact ⟨mem_history_push.2 (.inl hr), hspan⟩
    · rintro ⟨hr, hspan⟩
      exact ⟨mem_history_of_push hr (hspan.2.trans hhi), hspan⟩
  | image f =>
    obtain ⟨hf, hsums⟩ := h
    exact ⟨hf.trans hlen, hsums.mono (fun r hr => mem_history_push.2 (.inl hr))
      fun r hr hle => mem_history_of_push hr (hle.trans hf)⟩

theorem Covered.push {b : Bucket} {hw : Nat} {image : Option Nat} {deltas : List DeltaMeta}
    (h : Covered b hw image deltas) (hle : hw ≤ b.items.length) (seg : Segment) :
    Covered (b.push seg) hw image deltas := by
  intro r hr hlsn
  exact h r (mem_history_of_push hr (hlsn.trans hle)) hlsn

/-- A segment in the next free slot, numbered by the handle. -/
theorem Inv.append (h : Inv w) (seg : Segment) :
    Inv { w with bucket := w.bucket.push seg, inner := applySegment w.inner seg } := by
  have hdurable := h.durable
  have happlied : Applied (w.bucket.items ++ seg) (seg.foldl applyItem w.inner) :=
    Applied.segment seg ⟨h.nextLsn, hdurable ▸ h.flushed, h.memtable⟩
  obtain ⟨nextLsn, memtable, memtableBytes, hfold⟩ := foldl_applyItem_eq seg w.inner
  have hinner : applySegment w.inner seg =
      { w.inner with
        nextLsn, memtable, memtableBytes
        nextSeq := w.inner.nextSeq + 1
        durableLsn := nextLsn - 1
        commitLsn := if seg.any LogItem.isWal then nextLsn - 1 else w.inner.commitLsn } := by
    simp only [applySegment, hfold]
    split_ifs <;> rfl
  rw [hfold] at happlied
  have hnext : nextLsn = w.bucket.items.length + seg.length + 1 := by simpa using happlied.nextLsn
  have hslots : (w.bucket.push seg).log.map Prod.fst = List.range' 1 (w.bucket.push seg).log.length := by
    simp only [Bucket.push, List.map_append, h.slots, List.length_append, List.length_singleton,
      List.range'_concat, List.map_cons, List.map_nil]
    simp [add_comm]
  have hreplay : ∀ hw, replayLog (w.bucket.push seg) hw =
      replaySegment hw (replayLog w.bucket hw) (w.bucket.log.length + 1, seg) := by
    intro hw
    rw [replayLog_of_slots hslots, replayLog_of_slots h.slots]
    simp [Bucket.push, List.foldl_append]
  have hlen : (w.bucket.push seg).items.length = w.bucket.items.length + seg.length := by simp [items_push]
  have hflushed := h.flushed
  rw [hinner]
  refine ⟨hslots, ?_, ?_, ?_, fun hw => ?_, h.floor, ?_, ?_, fun key records hkey => (h.layers key records hkey).push seg,
    fun key records hkey => (h.cache key records hkey).push seg, h.live, h.spans, h.apart,
    h.covered.push (hdurable ▸ h.flushed) seg, h.coveredBucket.push (hdurable ▸ h.flushed) seg, h.images, h.imageFloor,
    fun f hf r hr hlt => ?_⟩
  · simp [h.nextSeq, Bucket.push]
  · dsimp only
    omega
  · dsimp only
    omega
  · -- The replay of the longer log ends in the same commit mark.
    rw [hreplay, replaySegment]
    have hseg := @Replayed.segment hw seg w.bucket.items
      { replayLog w.bucket hw with maxSeq := max (replayLog w.bucket hw).maxSeq (w.bucket.log.length + 1) }
      (by
        rw [replayLog_of_slots h.slots]
        have := Replayed.log hw w.bucket.log
        exact ⟨this.nextLsn, this.durable, this.memtable⟩)
    have hcommit : ∀ (seg : Segment) (r : LogReplay), (seg.foldl (replayItem hw) r).commitLsn = r.commitLsn := by
      intro seg
      induction seg with
      | nil => intro r; rfl
      | cons item seg ih =>
        intro r
        rw [List.foldl_cons, ih]
        cases item with
        | wal bytes => rfl
        | page pageId image =>
          simp only [replayItem]
          split_ifs <;> rfl
    dsimp only
    split_ifs
    · dsimp only
      rw [hseg.durable, List.length_append]
      omega
    · rw [hcommit]
      exact h.commit hw
  · dsimp only
    omega
  · intro r
    have := happlied.memtable r
    rw [Bucket.history, items_push]
    exact this
  · -- The image ends at or below the old log, so new versions are above it.
    by_cases hold : r.lsn ≤ w.bucket.items.length
    · exact h.above f hf r (mem_history_of_push hr hold) hlt
    · have hlookup := h.live (.image f) (by simp [Inner.live, show w.inner.image = some f from hf])
      obtain ⟨records, hrecords⟩ := Option.isSome_iff_exists.1 hlookup
      have := (h.layers _ _ hrecords).1
      omega

theorem run_checkFence (w : World) (token : FenceToken) :
    runOn (checkFence token) w =
      if token.epoch ≠ w.bucket.durableEpoch then (.error (.fenced token.epoch w.bucket.durableEpoch), w)
      else (.ok (), w) := by
  rw [checkFence, run_bind_ok (run_get w)]
  exact run_ite ..

/-- Alone on the bucket, the handle's next slot is free and the first try claims it. -/
theorem run_claimSlot (h : Inv w) (token : FenceToken) (items : Segment) (retries : Nat) :
    runOn (claimSlot token items retries) w = (.ok (), { w with bucket := w.bucket.push items }) := by
  have hfree : ¬ w.bucket.taken w.inner.nextSeq = true := by
    rw [Bucket.taken, List.any_eq_true]
    rintro ⟨e, he, heq⟩
    have hslot : e.1 ∈ List.range' 1 w.bucket.log.length := by
      rw [← h.slots]
      exact List.mem_map_of_mem he
    have := (List.mem_range'_1.1 hslot).2
    have heq' : e.1 = w.inner.nextSeq := by simpa using heq
    rw [h.nextSeq] at heq'
    omega
  have honce : ∀ again, runOn (claimOnce token items again) w = (.ok (), { w with bucket := w.bucket.push items }) := by
    intro again
    rw [claimOnce, run_bind_ok (run_get w), run_ite, if_neg hfree]
    show (Except.ok (), _) = _
    rw [h.nextSeq]
    rfl
  cases retries <;> exact honce _

theorem Inv.lsn_le (h : Inv w) {r : PageRecord} (hr : r ∈ w.bucket.history) : r.lsn ≤ w.inner.durableLsn := by
  rw [h.durable]
  exact (lsn_le_of_mem_history hr).2

/-! ## Flushing -/

/-- The world after a flush. -/
def World.flushed (w : World) : World :=
  if w.inner.memtable.isEmpty then w
  else
    let d : DeltaMeta := ⟨w.inner.flushedHw + 1, w.inner.durableLsn⟩
    { w with
      bucket := { w.bucket with layers := w.bucket.layers.insert d.key w.inner.memtable }
      inner := { w.inner with
        deltas := w.inner.deltas ++ [d], flushedHw := d.hi, memtable := [], memtableBytes := 0 } }

theorem mem_deltas_insert {b : Bucket} {d d' : DeltaMeta} {records : List PageRecord} :
    d' ∈ ({ b with layers := b.layers.insert d.key records } : Bucket).deltas ↔ d' = d ∨ d' ∈ b.deltas := by
  rw [mem_deltas, mem_deltas, AList.mem_insert]
  constructor
  · rintro (hkey | hmem)
    · obtain ⟨lo, hi⟩ := d
      obtain ⟨lo', hi'⟩ := d'
      left
      simpa [DeltaMeta.key] using hkey
    · exact .inr hmem
  · rintro (rfl | hmem)
    · exact .inl rfl
    · exact .inr hmem

theorem Inv.flush (h : Inv w) : Inv w.flushed := by
  unfold World.flushed
  split_ifs with hempty
  · exact h
  set d : DeltaMeta := ⟨w.inner.flushedHw + 1, w.inner.durableLsn⟩ with hd
  have hnonempty : ∃ r, r ∈ w.inner.memtable := by
    rcases hm : w.inner.memtable with - | ⟨r, rest⟩
    · simp [hm] at hempty
    · exact ⟨r, by simp⟩
  have hspan : d.lo ≤ d.hi := by
    obtain ⟨r, hr⟩ := hnonempty
    obtain ⟨hhist, hlt⟩ := (h.memtable r).1 hr
    exact hlt.trans_le (h.lsn_le hhist)
  have hnew : LayerOk w.bucket d.key w.inner.memtable := by
    refine ⟨le_of_eq h.durable, fun r => ?_⟩
    rw [h.memtable r]
    constructor
    · rintro ⟨hr, hlt⟩
      exact ⟨hr, hlt, h.lsn_le hr⟩
    · rintro ⟨hr, hlo, -⟩
      exact ⟨hr, hlo⟩
  have hbelow : ∀ d' ∈ w.bucket.deltas, d'.hi < d.lo := by
    intro d' hd'
    exact Nat.lt_succ_of_le (h.spans d' hd').2
  have hcover : ∀ deltas, Covered w.bucket w.inner.flushedHw w.inner.image deltas →
      (∀ d' ∈ deltas, d' ∈ w.bucket.deltas) → ∀ deltas', (∀ d', d' ∈ deltas' ↔ d' = d ∨ d' ∈ deltas) →
      Covered w.bucket d.hi w.inner.image deltas' := by
    intro deltas hcov hsub deltas' hmem r hr hle
    by_cases hold : r.lsn ≤ w.inner.flushedHw
    · rcases hcov r hr hold with ⟨d', hd', hin⟩ | ⟨himage, hbefore⟩
      · exact .inl ⟨d', (hmem d').2 (.inr hd'), hin⟩
      · refine .inr ⟨himage, fun d' hd' => ?_⟩
        rcases (hmem d').1 hd' with rfl | hd'
        · exact Nat.lt_succ_of_le hold
        · exact hbefore d' hd'
    · exact .inl ⟨d, (hmem d).2 (.inl rfl), Nat.lt_of_not_le hold, hle⟩
  refine ⟨h.slots, h.nextSeq, h.nextLsn, h.durable, h.commit, h.floor, le_rfl, fun r => ?_, fun key records hkey => ?_,
    h.cache, fun key hkey => ?_, fun d' hd' => ?_, fun d₁ hd₁ d₂ hd₂ => ?_, ?_, ?_, fun f hf => ?_, h.imageFloor,
    fun f hf r hr hlt => ?_⟩
  · constructor
    · intro hr
      simp at hr
    · rintro ⟨hr, hlt⟩
      exact absurd (h.lsn_le hr) (Nat.not_le.2 hlt)
  · change (w.bucket.layers.insert d.key w.inner.memtable).lookup key = some records at hkey
    by_cases heq : key = d.key
    · subst heq
      rw [AList.lookup_insert] at hkey
      cases hkey
      exact hnew
    · rw [AList.lookup_insert_ne heq] at hkey
      exact h.layers key records hkey
  · show ((w.bucket.layers.insert d.key w.inner.memtable).lookup key).isSome
    rw [AList.lookup_isSome, AList.mem_insert]
    by_cases heq : key = d.key
    · exact .inl heq
    · right
      rw [← AList.lookup_isSome]
      refine h.live key ?_
      simpa [Inner.live, heq] using hkey
  · rcases mem_deltas_insert.1 hd' with rfl | hd'
    · exact ⟨hspan, le_rfl⟩
    · have hold := h.spans d' hd'
      have hend := hbelow d' hd'
      exact ⟨hold.1, hend.le.trans hspan⟩
  · rcases mem_deltas_insert.1 hd₁ with rfl | hd₁ <;> rcases mem_deltas_insert.1 hd₂ with rfl | hd₂
    · exact .inl rfl
    · exact .inr (.inr (hbelow d₂ hd₂))
    · exact .inr (.inl (hbelow d₁ hd₁))
    · exact h.apart d₁ hd₁ d₂ hd₂
  · exact hcover _ h.covered (fun _ => h.live_delta) _ (by simp [or_comm])
  · exact hcover _ h.coveredBucket (fun _ => id) _ (fun _ => mem_deltas_insert)
  · refine h.images f ?_
    have := (AList.mem_insert _).1 hf
    simpa [DeltaMeta.key] using this
  · exact absurd (h.lsn_le hr) (Nat.not_le.2 hlt)

theorem run_flushLocked (h : Inv w) : runOn flushLocked w = (.ok (), w.flushed) := by
  rw [flushLocked, run_bind_ok (run_get w), run_ite]
  unfold World.flushed
  by_cases hempty : w.inner.memtable.isEmpty = true
  · rw [if_pos hempty, if_pos hempty]
    rfl
  · rw [if_neg hempty, if_neg hempty]
    have hfree : ¬ (w.bucket.layers.lookup
        (DeltaMeta.key ⟨w.inner.flushedHw + 1, w.inner.durableLsn⟩)).isSome = true := by
      rw [AList.lookup_isSome, ← mem_deltas]
      intro hmem
      have := h.spans _ hmem
      dsimp only at this
      omega
    rw [run_ite, if_neg hfree]
    rfl

/-! ## Compacting -/

theorem mem_mergedRecords {m : AList fun _ : Nat => Nat × Bytes} {r : PageRecord} :
    r ∈ mergedRecords m ↔ m.lookup r.pageId = some (r.lsn, r.image) := by
  obtain ⟨pageId, lsn, image⟩ := r
  simp only [mergedRecords, List.mem_map]
  constructor
  · rintro ⟨⟨k, v⟩, he, heq⟩
    obtain ⟨rfl, rfl, rfl⟩ : k = pageId ∧ v.1 = lsn ∧ v.2 = image := by simpa using heq
    exact List.mem_dlookup m.nodupKeys he
  · intro hlookup
    exact ⟨⟨pageId, (lsn, image)⟩, List.of_mem_dlookup hlookup, rfl⟩

/-- The merge map holds a version of the page that is no older. -/
def Dominates (m : AList fun _ : Nat => Nat × Bytes) (x : PageRecord) : Prop :=
  ∃ y ∈ mergedRecords m, y.pageId = x.pageId ∧ x.lsn ≤ y.lsn

/-- Replacing a page's version by one that is no older. -/
theorem insert_spec {m : AList fun _ : Nat => Nat × Bytes} {r : PageRecord}
    (hcur : ∀ cur, m.lookup r.pageId = some cur → cur.1 ≤ r.lsn) :
    (∀ y ∈ mergedRecords (m.insert r.pageId (r.lsn, r.image)), y ∈ mergedRecords m ∨ y = r) ∧
      Dominates (m.insert r.pageId (r.lsn, r.image)) r ∧
      ∀ x, Dominates m x → Dominates (m.insert r.pageId (r.lsn, r.image)) x := by
  have hself : r ∈ mergedRecords (m.insert r.pageId (r.lsn, r.image)) := by
    rw [mem_mergedRecords, AList.lookup_insert]
  refine ⟨fun y hy => ?_, ⟨r, hself, rfl, le_rfl⟩, ?_⟩
  · rw [mem_mergedRecords] at hy
    by_cases hpage : y.pageId = r.pageId
    · rw [hpage, AList.lookup_insert] at hy
      right
      obtain ⟨hlsn, himage⟩ : r.lsn = y.lsn ∧ r.image = y.image := by simpa using hy
      cases y
      cases r
      simp_all
    · rw [AList.lookup_insert_ne hpage] at hy
      exact .inl (mem_mergedRecords.2 hy)
  · rintro x ⟨y, hy, hpage, hle⟩
    by_cases hsame : y.pageId = r.pageId
    · rw [mem_mergedRecords, hsame] at hy
      exact ⟨r, hself, hsame.symm.trans hpage, hle.trans (hcur _ hy)⟩
    · refine ⟨y, ?_, hpage, hle⟩
      rw [mem_mergedRecords] at hy ⊢
      rw [AList.lookup_insert_ne hsame, hy]

theorem mergeKeepGreatest_spec (m : AList fun _ : Nat => Nat × Bytes) (r : PageRecord) :
    (∀ y ∈ mergedRecords (mergeKeepGreatest m r), y ∈ mergedRecords m ∨ y = r) ∧
      Dominates (mergeKeepGreatest m r) r ∧ ∀ x, Dominates m x → Dominates (mergeKeepGreatest m r) x := by
  cases hlookup : m.lookup r.pageId with
  | none =>
    have heq : mergeKeepGreatest m r = m.insert r.pageId (r.lsn, r.image) := by
      simp only [mergeKeepGreatest, hlookup]
    rw [heq]
    exact insert_spec (by simp [hlookup])
  | some cur =>
    by_cases hle : cur.1 ≤ r.lsn
    · have heq : mergeKeepGreatest m r = m.insert r.pageId (r.lsn, r.image) := by
        simp only [mergeKeepGreatest, hlookup, if_pos hle]
      rw [heq]
      exact insert_spec (by simpa [hlookup] using hle)
    · have heq : mergeKeepGreatest m r = m := by
        simp only [mergeKeepGreatest, hlookup, if_neg hle]
      rw [heq]
      refine ⟨fun y hy => .inl hy, ⟨⟨r.pageId, cur.1, cur.2⟩, ?_, rfl, by dsimp only; omega⟩, fun x hx => hx⟩
      rw [mem_mergedRecords, hlookup]

theorem mergeLayer_spec (f : Nat) (records : List PageRecord) (m : AList fun _ : Nat => Nat × Bytes) :
    (∀ y ∈ mergedRecords (mergeLayer f m records), y ∈ mergedRecords m ∨ (y ∈ records ∧ y.lsn ≤ f)) ∧
      (∀ x ∈ records, x.lsn ≤ f → Dominates (mergeLayer f m records) x) ∧
      ∀ x, Dominates m x → Dominates (mergeLayer f m records) x := by
  induction records using List.reverseRecOn with
  | nil => exact ⟨fun y hy => .inl hy, by simp, fun x hx => hx⟩
  | append_singleton records r ih =>
    obtain ⟨hfrom, hdom, hkeep⟩ := ih
    by_cases hle : r.lsn ≤ f
    · have hmerge : mergeLayer f m (records ++ [r]) = mergeKeepGreatest (mergeLayer f m records) r := by
        simp [mergeLayer, List.filter_append, hle]
      obtain ⟨hfrom', hself, hkeep'⟩ := mergeKeepGreatest_spec (mergeLayer f m records) r
      rw [hmerge]
      refine ⟨fun y hy => ?_, fun x hx hxf => ?_, fun x hx => hkeep' x (hkeep x hx)⟩
      · rcases hfrom' y hy with hy | rfl
        · exact (hfrom y hy).imp id fun h => ⟨by simp [h.1], h.2⟩
        · exact .inr ⟨by simp, hle⟩
      · rcases List.mem_append.1 hx with hx | hx
        · exact hkeep' x (hdom x hx hxf)
        · rw [List.mem_singleton.1 hx]
          exact hself
    · have hmerge : mergeLayer f m (records ++ [r]) = mergeLayer f m records := by
        simp [mergeLayer, List.filter_append, hle]
      rw [hmerge]
      refine ⟨fun y hy => (hfrom y hy).imp id fun h => ⟨by simp [h.1], h.2⟩, fun x hx hxf => ?_, hkeep⟩
      rcases List.mem_append.1 hx with hx | hx
      · exact hdom x hx hxf
      · rw [List.mem_singleton.1 hx] at hxf
        exact absurd hxf hle

/-- The versions a layer accounts for. -/
def LayerKey.holds : LayerKey → PageRecord → Prop
  | .delta lo hi, r => lo ≤ r.lsn ∧ r.lsn ≤ hi
  | .image f, r => r.lsn ≤ f

/-- Merging live layers, images no newer than `f`: the result holds versions of
the history at or below `f`, and dominates all of them that the layers account for. -/
theorem run_mergeLayers {f : Nat} {keys : List LayerKey} (h : Inv w)
    (hlive : ∀ key ∈ keys, (w.bucket.layers.lookup key).isSome) (himage : ∀ g, .image g ∈ keys → g ≤ f)
    {m : AList fun _ : Nat => Nat × Bytes} (hm : ∀ y ∈ mergedRecords m, y ∈ w.bucket.history ∧ y.lsn ≤ f) :
    ∃ m' w', runOn (mergeLayers f keys m) w = (.ok m', w') ∧ Warmed w w' ∧
      (∀ y ∈ mergedRecords m', y ∈ w.bucket.history ∧ y.lsn ≤ f) ∧ (∀ x, Dominates m x → Dominates m' x) ∧
      ∀ key ∈ keys, ∀ x ∈ w.bucket.history, x.lsn ≤ f → key.holds x → Dominates m' x := by
  induction keys generalizing w m with
  | nil => exact ⟨m, w, rfl, h.warmed, hm, fun x hx => hx, by simp⟩
  | cons key keys ih =>
    obtain ⟨records, w₁, hload, hok, hwarm⟩ := run_loadLayer h (hlive key (by simp))
    have hrecords : ∀ y ∈ records, y ∈ w.bucket.history := by
      intro y hy
      cases key with
      | delta lo hi => exact ((hok.2 y).1 hy).1
      | image g => exact hok.2.sub hy
    obtain ⟨hfrom, hdom, hkeep⟩ := mergeLayer_spec f records m
    have hm' : ∀ y ∈ mergedRecords (mergeLayer f m records), y ∈ w.bucket.history ∧ y.lsn ≤ f := by
      intro y hy
      rcases hfrom y hy with hy | ⟨hy, hle⟩
      · exact hm y hy
      · exact ⟨hrecords y hy, hle⟩
    obtain ⟨m', w₂, hrun, hwarm', hm'', hkeep', hdom'⟩ := ih (hwarm.inv h)
      (by rw [hwarm.bucket]; exact fun key hkey => hlive key (by simp [hkey]))
      (fun g hg => himage g (by simp [hg])) (by rw [hwarm.bucket]; exact hm')
    rw [hwarm.bucket] at hm'' hdom'
    refine ⟨m', w₂, ?_, hwarm.trans hwarm', hm'', fun x hx => hkeep' x (hkeep x hx), fun key' hkey' x hx hle hholds => ?_⟩
    · rw [mergeLayers, run_bind_ok hload]
      exact hrun
    · rcases List.mem_cons.1 hkey' with rfl | hkey'
      · refine hkeep' x ?_
        cases key' with
        | delta lo hi => exact hdom x ((hok.2 x).2 ⟨hx, hholds⟩) hle
        | image g =>
          obtain ⟨y, hy, hpage, hxy⟩ := hok.2.covers x hx hholds
          have hyf : y.lsn ≤ f := (hok.2.le y hy).trans (himage g (by simp))
          obtain ⟨z, hz, hzpage, hyz⟩ := hdom y hy hyf
          exact ⟨z, hz, hzpage.trans hpage, hxy.trans hyz⟩
      · exact hdom' key' hkey' x hx hle hholds

theorem memtable_flushed (w : World) : w.flushed.inner.memtable = [] := by
  unfold World.flushed
  split_ifs with hempty
  · simpa using hempty
  · rfl

theorem flushed_counters (w : World) : w.flushed.bucket.log = w.bucket.log ∧
    w.flushed.inner.retentionFloor = w.inner.retentionFloor ∧ w.flushed.inner.durableLsn = w.inner.durableLsn := by
  unfold World.flushed
  split_ifs <;> exact ⟨rfl, rfl, rfl⟩

/-- The world after an image at the floor has replaced the layers below it. -/
def World.compacted (w : World) (records : List PageRecord) : World :=
  let f := w.inner.retentionFloor
  { w with
    bucket := { w.bucket with layers := w.bucket.layers.insert (.image f) records }
    inner := { w.inner with deltas := w.inner.deltas.filter (f < ·.hi), image := some f } }

theorem mem_deltas_image {b : Bucket} {d : DeltaMeta} {f : Nat} {records : List PageRecord} :
    d ∈ ({ b with layers := b.layers.insert (.image f) records } : Bucket).deltas ↔ d ∈ b.deltas := by
  rw [mem_deltas, mem_deltas, AList.mem_insert]
  simp [DeltaMeta.key]

theorem Inv.compact (h : Inv w) (hmem : w.inner.memtable = []) (hfloor : w.inner.retentionFloor ≤ w.inner.durableLsn)
    {records : List PageRecord} (hrecords : Sums PageRecord.pageId PageRecord.lsn {r | r ∈ w.bucket.history}
      w.inner.retentionFloor {r | r ∈ records}) : Inv (w.compacted records) := by
  set f := w.inner.retentionFloor with hf
  have hok : LayerOk w.bucket (.image f) records := ⟨h.durable ▸ hfloor, hrecords⟩
  have hflushed : ∀ r ∈ w.bucket.history, r.lsn ≤ w.inner.flushedHw := by
    intro r hr
    by_contra hlt
    have := (h.memtable r).2 ⟨hr, by omega⟩
    rw [hmem] at this
    cases this
  have hbelow : ∀ r, (∃ g, w.inner.image = some g ∧ r ≤ g) → r ≤ f := by
    rintro r ⟨g, hg, hle⟩
    exact hle.trans (h.imageFloor g hg)
  refine ⟨h.slots, h.nextSeq, h.nextLsn, h.durable, h.commit, h.floor, h.flushed, h.memtable, fun key records' hkey => ?_,
    h.cache, fun key hkey => ?_, fun d hd => h.spans d (mem_deltas_image.1 hd),
    fun d hd d' hd' => h.apart d (mem_deltas_image.1 hd) d' (mem_deltas_image.1 hd'), fun r hr hle => ?_,
    fun r hr hle => ?_, fun g hg => ?_, fun g hg => ?_, fun g hg r hr hlt => ?_⟩
  · change (w.bucket.layers.insert (.image f) records).lookup key = some records' at hkey
    by_cases heq : key = .image f
    · subst heq
      rw [AList.lookup_insert] at hkey
      cases hkey
      exact hok
    · rw [AList.lookup_insert_ne heq] at hkey
      exact h.layers key records' hkey
  · show ((w.bucket.layers.insert (.image f) records).lookup key).isSome
    rw [AList.lookup_isSome, AList.mem_insert]
    by_cases heq : key = .image f
    · exact .inl heq
    · right
      rw [← AList.lookup_isSome]
      obtain ⟨d, hd, rfl⟩ : ∃ d ∈ w.inner.deltas, d.key = key := by
        have hcases : (∃ d, (d ∈ w.inner.deltas ∧ f < d.hi) ∧ d.key = key) ∨ key = .image f := by
          simpa [World.compacted, Inner.live] using hkey
        rcases hcases with ⟨d, ⟨hd, -⟩, hkey⟩ | hkey
        · exact ⟨d, hd, hkey⟩
        · exact absurd hkey heq
      exact h.live _ (by simpa [Inner.live] using .inl ⟨d, hd, rfl⟩)
  · -- A version whose delta was folded away is at or below the floor, and older than the deltas that stay.
    rcases h.covered r hr hle with ⟨d, hd, hspan⟩ | ⟨himage, hbefore⟩
    · by_cases hkeep : f < d.hi
      · exact .inl ⟨d, List.mem_filter.2 ⟨hd, by simpa using hkeep⟩, hspan⟩
      · refine .inr ⟨⟨f, rfl, by omega⟩, fun d' hd' => ?_⟩
        obtain ⟨hd', hhi⟩ := List.mem_filter.1 hd'
        have hhi' : f < d'.hi := by simpa using hhi
        have hspan' := (h.spans d (h.live_delta hd)).1
        rcases h.apart d (h.live_delta hd) d' (h.live_delta hd') with rfl | hlt | hlt
        · exact absurd hhi' hkeep
        · omega
        · omega
    · exact .inr ⟨⟨f, rfl, hbelow _ himage⟩, fun d hd => hbefore d (List.mem_filter.1 hd).1⟩
  · rcases h.coveredBucket r hr hle with ⟨d, hd, hspan⟩ | ⟨himage, hbefore⟩
    · exact .inl ⟨d, mem_deltas_image.2 hd, hspan⟩
    · exact .inr ⟨⟨f, rfl, hbelow _ himage⟩, fun d hd => hbefore d (mem_deltas_image.1 hd)⟩
  · refine ⟨f, rfl, ?_⟩
    rcases (AList.mem_insert _).1 hg with heq | hmem
    · cases heq
      exact le_rfl
    · exact hbelow g (h.images g hmem)
  · obtain rfl : f = g := Option.some.inj hg
    exact le_rfl
  · exact absurd (hflushed r hr) (Nat.not_le.2 hlt)

/-- Compaction with the floor at or below the log's end. -/
theorem run_compact (h : Inv w) (hfloor : w.inner.retentionFloor ≤ w.inner.durableLsn) :
    ∃ w', runOn compact w = (.ok (), w') ∧ Inv w' ∧ w'.bucket.log = w.bucket.log ∧
      w'.inner.retentionFloor = w.inner.retentionFloor := by
  obtain ⟨hlog, hfloor', hdurable⟩ := flushed_counters w
  have hflush := h.flush
  rw [Object.compact, run_bind_ok (run_flushLocked h), run_bind_ok (run_get _)]
  dsimp only
  rw [run_ite]
  split_ifs with hzero
  · exact ⟨w.flushed, rfl, hflush, hlog, hfloor'⟩
  · have hkeys : ∀ key ∈ (w.flushed.inner.image.map LayerKey.image).toList ++ w.flushed.inner.deltas.map DeltaMeta.key,
        key ∈ w.flushed.inner.live := by
      intro key hkey
      simp only [Inner.live, List.mem_append] at hkey ⊢
      exact hkey.symm
    obtain ⟨m, w', hrun, hwarm, hm, -, hdom⟩ := run_mergeLayers (m := ∅) hflush
      (fun key hkey => hflush.live key (hkeys key hkey))
      (fun g hg => by
        have : w.flushed.inner.image = some g := by simpa [DeltaMeta.key] using hg
        exact hflush.imageFloor g this)
      (by intro y hy; simp [mergedRecords] at hy)
    rw [run_bind_ok hrun]
    refine ⟨w'.compacted (mergedRecords m), ?_, ?_, ?_, ?_⟩
    · rw [← hwarm.inner]
      rfl
    · refine (hwarm.inv hflush).compact (by rw [hwarm.inner, memtable_flushed]) (by rw [hwarm.inner]; omega) ?_
      rw [hwarm.bucket, hwarm.inner]
      refine ⟨fun y hy => (hm y hy).1, fun y hy => (hm y hy).2, fun x hx hle => ?_⟩
      -- The memtable is empty, so every version is accounted for by a live layer.
      have hflushed : x.lsn ≤ w.flushed.inner.flushedHw := by
        by_contra hlt
        have := (hflush.memtable x).2 ⟨hx, by omega⟩
        rw [memtable_flushed] at this
        cases this
      rcases hflush.covered x hx hflushed with ⟨d, hd, hspan⟩ | ⟨⟨g, hg, hxg⟩, -⟩
      · exact hdom d.key (by simpa using .inr ⟨d, hd, rfl⟩) x hx hle hspan
      · exact hdom (.image g) (by simp [hg]) x hx hle hxg
    · show w'.bucket.log = w.bucket.log
      rw [hwarm.bucket, hlog]
    · show w'.inner.retentionFloor = w.inner.retentionFloor
      rw [hwarm.inner, hfloor']

/-! ## Collecting garbage, moving the floor, taking the lease -/

theorem contains_live {g : Inner} {key : LayerKey} : g.live.contains key = true ↔ key ∈ g.live := by
  simp

/-- The world once the objects that are not live are deleted. -/
def World.swept (w : World) : World :=
  let dead := w.bucket.layers.keys.filter fun key => !w.inner.live.contains key
  { w with
    bucket := { w.bucket with layers := w.bucket.layers.filterVals fun key _ => w.inner.live.contains key }
    cache := w.cache.filterVals fun key _ => !dead.contains key }

theorem run_gc (w : World) : runOn gc w = (.ok (), w.swept) := by
  rw [gc, run_bind_ok (run_get w)]
  simp only [World.swept, Bool.not_not]
  rfl

theorem lookup_swept (w : World) (key : LayerKey) :
    w.swept.bucket.layers.lookup key = if w.inner.live.contains key then w.bucket.layers.lookup key else none :=
  AList.lookup_filterVals_key _ _ _

theorem Inv.swept (h : Inv w) : Inv w.swept := by
  have hlookup : ∀ key records, w.swept.bucket.layers.lookup key = some records →
      key ∈ w.inner.live ∧ w.bucket.layers.lookup key = some records := by
    intro key records hkey
    rw [lookup_swept] at hkey
    split_ifs at hkey with hlive
    exact ⟨contains_live.1 hlive, hkey⟩
  have hlive : ∀ key ∈ w.inner.live, (w.swept.bucket.layers.lookup key).isSome := by
    intro key hkey
    rw [lookup_swept, if_pos (contains_live.2 hkey)]
    exact h.live key hkey
  have hdeltas : ∀ d, d ∈ w.swept.bucket.deltas ↔ d ∈ w.inner.deltas := by
    intro d
    rw [mem_deltas, ← AList.lookup_isSome]
    constructor
    · intro hsome
      obtain ⟨records, hrecords⟩ := Option.isSome_iff_exists.1 hsome
      have hmem := (hlookup _ _ hrecords).1
      obtain ⟨lo, hi⟩ := d
      simp only [Inner.live, List.mem_append, List.mem_map, Option.mem_toList, Option.map_eq_some_iff] at hmem
      rcases hmem with ⟨⟨lo', hi'⟩, hd, heq⟩ | ⟨f, -, heq⟩
      · simp only [DeltaMeta.key, LayerKey.delta.injEq] at heq
        rwa [heq.1, heq.2] at hd
      · cases heq
    · intro hd
      exact hlive d.key (by simpa [Inner.live] using .inl ⟨d, hd, rfl⟩)
  have hsub : ∀ d ∈ w.swept.bucket.deltas, d ∈ w.bucket.deltas := fun d hd => h.live_delta ((hdeltas d).1 hd)
  refine ⟨h.slots, h.nextSeq, h.nextLsn, h.durable, h.commit, h.floor, h.flushed, h.memtable,
    fun key records hkey => h.layers key records (hlookup key records hkey).2, fun key records hkey => ?_, hlive,
    fun d hd => h.spans d (hsub d hd), fun d hd d' hd' => h.apart d (hsub d hd) d' (hsub d' hd'), h.covered,
    fun r hr hle => ?_, fun f hf => ?_, h.imageFloor, h.above⟩
  · have hcache : w.cache.lookup key = some records := by
      have heq : w.swept.cache.lookup key = _ := AList.lookup_filterVals_key _ _ _
      rw [heq] at hkey
      split_ifs at hkey
      exact hkey
    exact h.cache key records hcache
  · rcases h.covered r hr hle with ⟨d, hd, hspan⟩ | ⟨himage, hbefore⟩
    · exact .inl ⟨d, (hdeltas d).2 hd, hspan⟩
    · exact .inr ⟨himage, fun d hd => hbefore d ((hdeltas d).1 hd)⟩
  · obtain ⟨records, hrecords⟩ := Option.isSome_iff_exists.1 (AList.lookup_isSome.2 hf)
    have hmem := (hlookup _ _ hrecords).1
    simp only [Inner.live, List.mem_append, List.mem_map, Option.mem_toList, Option.map_eq_some_iff] at hmem
    rcases hmem with ⟨d, -, heq⟩ | ⟨g, hg, heq⟩
    · cases heq
    · cases heq
      exact ⟨f, hg, le_rfl⟩

theorem run_setRetentionFloor (h : Inv w) (lsn : Nat) :
    ∃ answer w', runOn (setRetentionFloor lsn) w = (answer, w') ∧ Inv w' ∧ w'.bucket.log = w.bucket.log ∧
      (w'.inner.retentionFloor = w.inner.retentionFloor ∨ w'.inner.retentionFloor = lsn) ∧
      w'.inner.durableLsn = w.inner.durableLsn := by
  rw [setRetentionFloor, run_bind_ok (run_get w)]
  dsimp only
  rw [run_ite]
  split_ifs with hback
  · exact ⟨_, w, rfl, h, rfl, .inl rfl, rfl⟩
  · refine ⟨_, _, rfl, ?_, rfl, .inr rfl, rfl⟩
    refine ⟨h.slots, h.nextSeq, h.nextLsn, h.durable, h.commit, rfl, h.flushed, h.memtable, h.layers, h.cache, h.live,
      h.spans, h.apart, h.covered, h.coveredBucket, h.images, fun f hf => ?_, h.above⟩
    exact (h.imageFloor f hf).trans (Nat.le_of_not_lt hback)

theorem run_acquireFence (h : Inv w) (owner : Nat) :
    ∃ w', runOn (acquireFence owner) w = (.ok ⟨w.bucket.durableEpoch + 1, owner⟩, w') ∧ Inv w' ∧
      w'.bucket.log = w.bucket.log ∧ w'.inner.retentionFloor = w.inner.retentionFloor ∧
      w'.inner.durableLsn = w.inner.durableLsn := by
  rw [acquireFence, run_bind_ok (run_get w)]
  refine ⟨_, rfl, ?_, rfl, rfl, rfl⟩
  exact ⟨h.slots, h.nextSeq, h.nextLsn, h.durable, h.commit, h.floor, h.flushed, h.memtable, h.layers, h.cache, h.live,
    h.spans, h.apart, h.covered, h.coveredBucket, h.images, h.imageFloor, h.above⟩

/-- A segment under another fence is refused; any other is put at the next slot. -/
theorem run_appendSegment_log (h : Inv w) (config : Config) (token : FenceToken) (items : Segment) :
    (token.epoch ≠ w.bucket.durableEpoch ∧ ∃ e, runOn (appendSegment config token items) w = (.error e, w)) ∨
      ∃ w', runOn (appendSegment config token items) w = (.ok (w.bucket.items.length + items.length), w') ∧ Inv w' ∧
        w'.bucket.log = (w.bucket.push items).log ∧ w'.inner.retentionFloor = w.inner.retentionFloor := by
  have hfence := run_checkFence w token
  rw [appendSegment]
  split_ifs at hfence with hepoch
  · exact .inl ⟨hepoch, _, run_bind_error hfence⟩
  · right
    set w₁ : World := { w with bucket := w.bucket.push items, inner := applySegment w.inner items } with hw₁
    have hinv : Inv w₁ := h.append items
    have hdurable : w₁.inner.durableLsn = w.bucket.items.length + items.length := by
      rw [hinv.durable]
      simp [hw₁, items_push]
    have hfloor : w₁.inner.retentionFloor = w.inner.retentionFloor := by
      obtain ⟨nextLsn, memtable, memtableBytes, hfold⟩ := foldl_applyItem_eq items w.inner
      simp only [hw₁, applySegment, hfold]
      split_ifs <;> rfl
    have hmodify : runOn (modifyInner fun g => applySegment g items) { w with bucket := w.bucket.push items } =
        (.ok (), w₁) := rfl
    rw [run_bind_ok hfence, run_bind_ok (run_claimSlot h token items _), run_bind_ok hmodify, run_bind_ok (run_get w₁)]
    dsimp only
    rw [run_ite]
    split_ifs with hfull
    · rw [run_bind_ok (run_flushLocked hinv)]
      obtain ⟨hlog, hfloor', -⟩ := flushed_counters w₁
      exact ⟨w₁.flushed, by rw [hdurable]; rfl, hinv.flush, hlog, hfloor'.trans hfloor⟩
    · exact ⟨w₁, by rw [hdurable]; rfl, hinv, rfl, hfloor⟩

/-- A fenced append changes nothing; any other is acked with the LSN of its last item. -/
theorem run_appendSegment (h : Inv w) (config : Config) (token : FenceToken) (items : Segment) :
    (∃ e, runOn (appendSegment config token items) w = (.error e, w)) ∨
      ∃ w', runOn (appendSegment config token items) w = (.ok (w.bucket.items.length + items.length), w') ∧ Inv w' ∧
        w'.bucket.items = w.bucket.items ++ items ∧ w'.inner.retentionFloor = w.inner.retentionFloor := by
  rcases run_appendSegment_log h config token items with ⟨-, herror⟩ | ⟨w', hrun, hinv, hlog, hfloor⟩
  · exact .inl herror
  · refine .inr ⟨w', hrun, hinv, ?_, hfloor⟩
    rw [Bucket.items, hlog]
    exact items_push w.bucket items

/-- The log alone tells where it ends. -/
theorem Inv.durable_of_log (h : Inv w) (h' : Inv w') (hlog : w.bucket.log = w'.bucket.log) :
    w.inner.durableLsn = w'.inner.durableLsn := by
  rw [h.durable, h'.durable, Bucket.items, Bucket.items, hlog]

/-! ## Opening anew -/

theorem foldl_max_le {l : List Nat} {n bound : Nat} (hn : n ≤ bound) (hl : ∀ x ∈ l, x ≤ bound) :
    l.foldl max n ≤ bound := by
  induction l generalizing n with
  | nil => exact hn
  | cons x l ih => exact ih (max_le hn (hl x (by simp))) fun y hy => hl y (by simp [hy])

theorem le_foldl_max {l : List Nat} {n : Nat} : n ≤ l.foldl max n ∧ ∀ x ∈ l, x ≤ l.foldl max n := by
  induction l generalizing n with
  | nil => simp
  | cons y l ih =>
    obtain ⟨hn, hl⟩ := ih (n := max n y)
    refine ⟨(le_max_left n y).trans hn, fun x hx => ?_⟩
    rcases List.mem_cons.1 hx with rfl | hx
    · exact (le_max_right n x).trans hn
    · exact hl x hx

/-- The running choice of the greatest image. -/
def greaterImage (best : Option Nat) (lsn : Nat) : Option Nat :=
  match best with
  | none => some lsn
  | some i => if i < lsn then some lsn else some i

theorem foldl_greaterImage (l : List Nat) (best : Option Nat) :
    (∀ f, l.foldl greaterImage best = some f → f ∈ l ∨ best = some f) ∧
      (∀ f ∈ l, ∃ g, l.foldl greaterImage best = some g ∧ f ≤ g) ∧
      ∀ f, best = some f → ∃ g, l.foldl greaterImage best = some g ∧ f ≤ g := by
  induction l generalizing best with
  | nil => exact ⟨fun f hf => .inr hf, by simp, fun f hf => ⟨f, hf, le_rfl⟩⟩
  | cons x l ih =>
    obtain ⟨hfrom, hmem, hkeep⟩ := ih (greaterImage best x)
    rw [List.foldl_cons]
    have hstep : ∃ g, greaterImage best x = some g ∧ x ≤ g ∧ (g = x ∨ best = some g) ∧ ∀ f, best = some f → f ≤ g := by
      cases best with
      | none => exact ⟨x, rfl, le_rfl, .inl rfl, by simp⟩
      | some i =>
        by_cases hlt : i < x
        · exact ⟨x, if_pos hlt, le_rfl, .inl rfl, by simpa using hlt.le⟩
        · exact ⟨i, if_neg hlt, by omega, .inr rfl, by simp⟩
    obtain ⟨g, hg, hxg, hgfrom, hgbest⟩ := hstep
    refine ⟨fun f hf => ?_, fun f hf => ?_, fun f hf => ?_⟩
    · rcases hfrom f hf with hmem | hbest
      · exact .inl (by simp [hmem])
      · rw [hg] at hbest
        cases hbest
        exact hgfrom.imp (fun h => by simp [h]) id
    · rcases List.mem_cons.1 hf with rfl | hf
      · obtain ⟨g', hg', hle⟩ := hkeep g hg
        exact ⟨g', hg', hxg.trans hle⟩
      · exact hmem f hf
    · obtain ⟨g', hg', hle⟩ := hkeep g hg
      exact ⟨g', hg', (hgbest f hf).trans hle⟩

theorem mem_images {b : Bucket} {f : Nat} : f ∈ b.layers.keys.filterMap LayerKey.asImage ↔ .image f ∈ b.layers := by
  simp only [List.mem_filterMap, ← AList.mem_keys]
  constructor
  · rintro ⟨key, hkey, hf⟩
    cases key with
    | delta lo hi => simp [LayerKey.asImage] at hf
    | image lsn =>
      obtain rfl : lsn = f := by simpa [LayerKey.asImage] using hf
      exact hkey
  · intro hkey
    exact ⟨.image f, hkey, rfl⟩

/-- What opening infers from the layers' names. -/
theorem discoverLayers_spec (b : Bucket) : ∃ deltas image flushedHw, discoverLayers b = (deltas, image, flushedHw) ∧
    (∀ d, d ∈ deltas ↔ d ∈ b.deltas) ∧ (∀ f, image = some f → .image f ∈ b.layers) ∧
    (∀ f, .image f ∈ b.layers → ∃ g, image = some g ∧ f ≤ g) ∧
    (∀ d ∈ b.deltas, d.hi ≤ flushedHw) ∧ (∀ f, image = some f → f ≤ flushedHw) ∧
    ∀ bound, (∀ d ∈ b.deltas, d.hi ≤ bound) → (∀ f, image = some f → f ≤ bound) → flushedHw ≤ bound := by
  set deltas := (b.layers.keys.filterMap LayerKey.asDelta).insertionSort fun x y => x.hi ≤ y.hi with hdeltas
  set image := (b.layers.keys.filterMap LayerKey.asImage).foldl greaterImage none with himage
  set flushedHw := (deltas.map (·.hi) ++ image.toList).foldl max 0 with hflushedHw
  have hmem : ∀ d, d ∈ deltas ↔ d ∈ b.deltas := fun d => List.mem_insertionSort _
  obtain ⟨hfrom, hgreatest, -⟩ := foldl_greaterImage (b.layers.keys.filterMap LayerKey.asImage) none
  obtain ⟨-, hle⟩ := le_foldl_max (l := deltas.map (·.hi) ++ image.toList) (n := 0)
  refine ⟨deltas, image, flushedHw, rfl, hmem, fun f hf => ?_, fun f hf => hgreatest f (mem_images.2 hf), fun d hd => ?_,
    fun f hf => ?_, fun bound hd hf => ?_⟩
  · rcases hfrom f hf with h | h
    · exact mem_images.1 h
    · cases h
  · exact hle d.hi (by simpa using .inl ⟨d, (hmem d).2 hd, rfl⟩)
  · exact hle f (by simp [hf])
  · refine foldl_max_le (Nat.zero_le _) fun x hx => ?_
    rcases List.mem_append.1 hx with hx | hx
    · obtain ⟨d, hd', rfl⟩ := List.mem_map.1 hx
      exact hd d ((hmem d).1 hd')
    · exact hf x (by simpa using hx)

theorem maxSeq_foldl {hw : Nat} : ∀ (log : List (Nat × Segment)) (r : LogReplay),
    (log.foldl (replaySegment hw) r).maxSeq = (log.map Prod.fst).foldl max r.maxSeq
  | [], _ => rfl
  | e :: log, r => by
    have hitems : ∀ (seg : Segment) (r : LogReplay), (seg.foldl (replayItem hw) r).maxSeq = r.maxSeq := by
      intro seg
      induction seg with
      | nil => intro r; rfl
      | cons item seg ih =>
        intro r
        rw [List.foldl_cons, ih]
        cases item with
        | wal bytes => rfl
        | page pageId image =>
          simp only [replayItem]
          split_ifs <;> rfl
    have hseg : (replaySegment hw r e).maxSeq = max r.maxSeq e.1 := by
      simp only [replaySegment]
      split_ifs
      · exact hitems _ _
      · exact hitems _ _
    rw [List.foldl_cons, maxSeq_foldl log, hseg]
    rfl

theorem foldl_max_range' (n : Nat) : (List.range' 1 n).foldl max 0 = n := by
  induction n with
  | zero => rfl
  | succ n ih => simp [List.range'_concat, ih, add_comm]

/-- A handle opened anew finds the invariant in the bucket. -/
theorem Inv.withStore (h : Inv w) : Inv (withStore w.bucket) := by
  obtain ⟨deltas, image, flushedHw, hdiscover, hdeltas, hfrom, hgreatest, hhi, hf, hbound⟩ :=
    discoverLayers_spec w.bucket
  set r := replayLog w.bucket flushedHw with hr
  have hrecover : recover w.bucket =
      ⟨r.maxSeq + 1, r.nextLsn, r.durableLsn, r.commitLsn, w.bucket.durableEpoch, w.bucket.retention.getD 0, r.memtable,
        r.memtableBytes, flushedHw, deltas, image⟩ := by
    simp only [recover, hdiscover, hr]
  have hreplay : r = w.bucket.log.foldl (replaySegment flushedHw) ⟨0, 1, 0, 0, [], 0⟩ :=
    replayLog_of_slots h.slots flushedHw
  have hreplayed : Replayed flushedHw w.bucket.items r := by
    rw [hreplay]
    exact Replayed.log _ w.bucket.log
  have hseq : r.maxSeq = w.bucket.log.length := by
    rw [hreplay, maxSeq_foldl, h.slots]
    exact foldl_max_range' _
  have hmem : ∀ {key}, key ∈ w.bucket.layers → ∃ records, LayerOk w.bucket key records := by
    intro key hkey
    obtain ⟨records, hrecords⟩ := Option.isSome_iff_exists.1 (AList.lookup_isSome.2 hkey)
    exact ⟨records, h.layers key records hrecords⟩
  have hflushed : flushedHw ≤ w.bucket.items.length := by
    refine hbound _ (fun d hd => ?_) fun f hf' => ?_
    · obtain ⟨records, hok⟩ := hmem (mem_deltas.1 hd)
      exact hok.1
    · obtain ⟨records, hok⟩ := hmem (hfrom f hf')
      exact hok.1
  -- The image found is the live one.
  have hsame : ∀ f, w.inner.image = some f → image = some f := by
    intro f hlive
    obtain ⟨g, hg, hle⟩ := hgreatest f (AList.lookup_isSome.1 (h.live _ (by simp [Inner.live, hlive])))
    obtain ⟨f', hf', hle'⟩ := h.images g (hfrom g hg)
    rw [hlive] at hf'
    cases hf'
    rw [hg, Nat.le_antisymm hle' hle]
  have hcovered : ∀ ds : List DeltaMeta, (∀ d, d ∈ ds ↔ d ∈ w.bucket.deltas) →
      Covered w.bucket flushedHw image ds := by
    intro ds hds x hx hle
    by_cases hold : x.lsn ≤ w.inner.flushedHw
    · rcases h.coveredBucket x hx hold with ⟨d, hd, hspan⟩ | ⟨⟨f, hlive, hxf⟩, hbefore⟩
      · exact .inl ⟨d, (hds d).2 hd, hspan⟩
      · exact .inr ⟨⟨f, hsame f hlive, hxf⟩, fun d hd => hbefore d ((hds d).1 hd)⟩
    · -- An unflushed version is above every delta and above the image, so above the flushed mark.
      exfalso
      have : flushedHw ≤ x.lsn - 1 := by
        refine hbound _ (fun d hd => ?_) fun f hf' => ?_
        · have := (h.spans d hd).2
          omega
        · obtain ⟨g, hlive, hle'⟩ := h.images f (hfrom f hf')
          have := h.above g hlive x hx (by omega)
          omega
      omega
  rw [Object.withStore, hrecover]
  refine ⟨h.slots, by simp [hseq], hreplayed.nextLsn, hreplayed.durable, fun hw => ?_, rfl, ?_, hreplayed.memtable,
    h.layers, fun key records hkey => ?_, fun key hkey => ?_, fun d hd => ⟨(h.spans d hd).1, hhi d hd⟩, h.apart,
    hcovered deltas hdeltas, hcovered w.bucket.deltas fun _ => Iff.rfl, hgreatest, fun f hf' => ?_,
    fun f hf' x _ hlt => ?_⟩
  · show r.commitLsn = _
    rw [hr, ← h.commit, ← h.commit]
  · show flushedHw ≤ r.durableLsn
    rw [hreplayed.durable]
    exact hflushed
  · simp at hkey
  · rw [AList.lookup_isSome]
    simp only [Inner.live, List.mem_append, List.mem_map, Option.mem_toList, Option.map_eq_some_iff] at hkey
    rcases hkey with ⟨d, hd, rfl⟩ | ⟨f, hf', rfl⟩
    · exact mem_deltas.1 ((hdeltas d).1 hd)
    · exact hfrom f hf'
  · obtain ⟨g, hlive, hle⟩ := h.images f (hfrom f hf')
    have := h.imageFloor g hlive
    rw [← h.floor] at this
    exact hle.trans this
  · exact (hf f hf').trans_lt hlt

theorem Inv.floor_withStore (h : Inv w) : (Object.withStore w.bucket).inner.retentionFloor = w.inner.retentionFloor := by
  rw [← h.floor]
  rfl

/-! ## Runs of one handle -/

inductive PageAct where
  | acquireFence (owner : Nat)
  | putPage (token : FenceToken) (pageId : Nat) (image : Bytes)
  | appendWal (token : FenceToken) (records : List WalRecord)
  | getPage (pageId query : Nat)
  | flush
  | setRetentionFloor (lsn : Nat)
  | compact
  | gc
  /-- The handle is dropped and the database opened anew. -/
  | reopen

/-- A handle at work, with the pages it was asked to put and the LSNs it answered. -/
structure Session where
  world : World
  puts : List PageRecord

namespace Session

def start : Session := ⟨withStore Bucket.empty, []⟩

def step (config : Config) (s : Session) : PageAct → Option Session
  | .acquireFence owner => some { s with world := (runOn (acquireFence owner) s.world).2 }
  | .putPage token pageId image => match runOn (putPage config token pageId image) s.world with
    | (.ok lsn, w) => some ⟨w, s.puts ++ [⟨pageId, lsn, image⟩]⟩
    | (.error _, w) => some { s with world := w }
  | .appendWal token records => some { s with world := (runOn (appendWal config token records) s.world).2 }
  | .getPage pageId query => some { s with world := (runOn (getPage pageId query) s.world).2 }
  | .flush => some { s with world := (runOn flushLocked s.world).2 }
  | .setRetentionFloor lsn => some { s with world := (runOn (setRetentionFloor lsn) s.world).2 }
  | .compact => some { s with world := (runOn compact s.world).2 }
  | .gc => some { s with world := (runOn gc s.world).2 }
  | .reopen => some { s with world := withStore s.world.bucket }

/-- The floor is only moved to LSNs the log has reached. -/
def FloorReached (s : Session) : PageAct → Prop
  | .setRetentionFloor lsn => lsn ≤ s.world.inner.durableLsn
  | _ => True

/-- Compaction only runs with the floor at or below the log's end. -/
def CompactReached (s : Session) : PageAct → Prop
  | .compact => s.world.inner.retentionFloor ≤ s.world.inner.durableLsn
  | _ => True

/-- The invariant of a session: the bucket's history is what was put. -/
structure Good (s : Session) : Prop where
  inv : Inv s.world
  puts : ∀ r, r ∈ s.puts ↔ r ∈ s.world.bucket.history

variable {config : Config} {s t : Session}

theorem Good.start : Good start := by
  refine ⟨⟨rfl, rfl, rfl, rfl, fun _ => rfl, rfl, le_rfl, ?_, ?_, ?_, ?_, ?_, ?_, ?_, ?_, ?_, ?_, ?_⟩, fun _ => Iff.rfl⟩
  · intro r
    show r ∈ ([] : List PageRecord) ↔ r ∈ ([] : List PageRecord) ∧ _
    simp
  · intro key records hkey
    cases hkey
  · intro key records hkey
    cases hkey
  · intro key hkey
    cases hkey
  · intro d hd
    cases hd
  · intro d hd
    cases hd
  · intro r hr
    cases hr
  · intro r hr
    cases hr
  · intro f hf
    cases AList.lookup_isSome.2 hf
  · intro f hf
    cases hf
  · intro f hf
    cases hf

/-- A step that leaves the log as it is keeps what was put. -/
theorem Good.of_log {w : World} (h : Good s) (hinv : Inv w) (hlog : w.bucket.log = s.world.bucket.log) :
    Good { s with world := w } := by
  refine ⟨hinv, fun r => ?_⟩
  have hhistory : w.bucket.history = s.world.bucket.history := by simp only [Bucket.history, Bucket.items, hlog]
  rw [hhistory]
  exact h.puts r

theorem Good.putPage (h : Good s) {token : FenceToken} {pageId : Nat} {image : Bytes}
    (hstep : s.step config (.putPage token pageId image) = some t) :
    Good t ∧ (s.world.inner.retentionFloor ≤ s.world.inner.durableLsn →
      t.world.inner.retentionFloor ≤ t.world.inner.durableLsn) := by
  have hrefused : ∀ e, runOn (Object.putPage config token pageId image) s.world = (.error e, s.world) →
      Good t ∧ (s.world.inner.retentionFloor ≤ s.world.inner.durableLsn →
        t.world.inner.retentionFloor ≤ t.world.inner.durableLsn) := by
    intro e hrun
    simp only [step, hrun] at hstep
    cases hstep
    exact ⟨h, id⟩
  rw [Object.putPage, run_ite] at hrefused
  by_cases hsize : PAGE_SIZE < image.length
  · rw [if_pos hsize] at hrefused
    exact hrefused _ rfl
  · rw [if_neg hsize] at hrefused
    rcases run_appendSegment h.inv config token [.page pageId image] with ⟨e, hrun⟩ | ⟨w, hrun, hinv, hitems, hfloor⟩
    · exact hrefused e hrun
    · have hrun' : runOn (Object.putPage config token pageId image) s.world =
          (.ok (s.world.bucket.items.length + 1), w) := by
        rw [Object.putPage, run_ite, if_neg hsize]
        exact hrun
      simp only [step, hrun'] at hstep
      cases hstep
      refine ⟨⟨hinv, fun r => ?_⟩, fun hle => ?_⟩
      · rw [Bucket.history, hitems, mem_pagesFrom_snoc_page]
        simp only [List.mem_append, List.mem_singleton]
        rw [h.puts r]
        rfl
      · show w.inner.retentionFloor ≤ w.inner.durableLsn
        rw [hfloor, hinv.durable, hitems, List.length_append, ← h.inv.durable]
        omega

theorem Good.appendWal (h : Good s) {token : FenceToken} {records : List WalRecord}
    (hstep : s.step config (.appendWal token records) = some t) :
    Good t ∧ (s.world.inner.retentionFloor ≤ s.world.inner.durableLsn →
      t.world.inner.retentionFloor ≤ t.world.inner.durableLsn) := by
  obtain rfl := Option.some.inj hstep
  rw [Object.appendWal, run_ite]
  split_ifs with hempty
  · exact ⟨h, id⟩
  · rcases run_appendSegment h.inv config token (records.map .wal) with ⟨e, hrun⟩ | ⟨w, hrun, hinv, hitems, hfloor⟩
    · rw [hrun]
      exact ⟨h, id⟩
    · rw [hrun]
      have hwal : ∀ (items : Segment) (records : List WalRecord),
          pagesFrom 1 (items ++ records.map .wal) = pagesFrom 1 items := by
        intro items records
        induction records generalizing items with
        | nil => simp
        | cons r records ih =>
          rw [List.map_cons, List.append_cons, ih, pagesFrom_snoc_wal]
      refine ⟨⟨hinv, fun r => ?_⟩, fun hle => ?_⟩
      · show r ∈ s.puts ↔ r ∈ w.bucket.history
        rw [h.puts r, Bucket.history, Bucket.history, hitems, hwal]
      · show w.inner.retentionFloor ≤ w.inner.durableLsn
        rw [hfloor, hinv.durable, hitems, List.length_append, ← h.inv.durable]
        omega

/-- Every step keeps the session good, compaction when the floor is reached. -/
theorem Good.step {a : PageAct} (h : Good s) (hcompact : s.CompactReached a) (hstep : s.step config a = some t) :
    Good t := by
  cases a with
  | acquireFence owner =>
    obtain rfl := Option.some.inj hstep
    obtain ⟨w, hrun, hinv, hlog, -⟩ := run_acquireFence h.inv owner
    rw [hrun]
    exact h.of_log hinv hlog
  | putPage token pageId image => exact (h.putPage hstep).1
  | appendWal token records => exact (h.appendWal hstep).1
  | getPage pageId query =>
    obtain rfl := Option.some.inj hstep
    by_cases hfloor : query < s.world.inner.retentionFloor
    · rw [run_getPage_below hfloor]
      exact h
    · obtain ⟨answer, w, hrun, hwarm, -⟩ := run_getPage h.inv pageId (Nat.le_of_not_lt hfloor)
      rw [hrun]
      exact h.of_log (hwarm.inv h.inv) (by rw [hwarm.bucket])
  | flush =>
    obtain rfl := Option.some.inj hstep
    rw [run_flushLocked h.inv]
    exact h.of_log h.inv.flush (flushed_counters _).1
  | setRetentionFloor lsn =>
    obtain rfl := Option.some.inj hstep
    obtain ⟨answer, w, hrun, hinv, hlog, -⟩ := run_setRetentionFloor h.inv lsn
    rw [hrun]
    exact h.of_log hinv hlog
  | compact =>
    obtain rfl := Option.some.inj hstep
    obtain ⟨w, hrun, hinv, hlog, -⟩ := run_compact h.inv hcompact
    rw [hrun]
    exact h.of_log hinv hlog
  | gc =>
    obtain rfl := Option.some.inj hstep
    rw [run_gc]
    exact h.of_log h.inv.swept rfl
  | reopen =>
    obtain rfl := Option.some.inj hstep
    exact h.of_log h.inv.withStore rfl

/-- A floor that is only moved to where the log is stays there. -/
theorem Good.floor_le {a : PageAct} (h : Good s) (hle : s.world.inner.retentionFloor ≤ s.world.inner.durableLsn)
    (hfloor : s.FloorReached a) (hstep : s.step config a = some t) :
    t.world.inner.retentionFloor ≤ t.world.inner.durableLsn := by
  cases a with
  | acquireFence owner =>
    obtain rfl := Option.some.inj hstep
    obtain ⟨w, hrun, -, -, hkept, hdurable⟩ := run_acquireFence h.inv owner
    simp only [hrun, hkept, hdurable]
    exact hle
  | putPage token pageId image => exact (h.putPage hstep).2 hle
  | appendWal token records => exact (h.appendWal hstep).2 hle
  | getPage pageId query =>
    obtain rfl := Option.some.inj hstep
    by_cases hbelow : query < s.world.inner.retentionFloor
    · rw [run_getPage_below hbelow]
      exact hle
    · obtain ⟨answer, w, hrun, hwarm, -⟩ := run_getPage h.inv pageId (Nat.le_of_not_lt hbelow)
      simp only [hrun, hwarm.inner]
      exact hle
  | flush =>
    obtain rfl := Option.some.inj hstep
    obtain ⟨-, hkept, hdurable⟩ := flushed_counters s.world
    simp only [run_flushLocked h.inv, hkept, hdurable]
    exact hle
  | setRetentionFloor lsn =>
    obtain rfl := Option.some.inj hstep
    obtain ⟨answer, w, hrun, -, -, hmoved, hdurable⟩ := run_setRetentionFloor h.inv lsn
    simp only [hrun, hdurable]
    rcases hmoved with hkept | hmoved
    · rw [hkept]
      exact hle
    · rw [hmoved]
      exact hfloor
  | compact =>
    obtain rfl := Option.some.inj hstep
    obtain ⟨w, hrun, hinv, hlog, hkept⟩ := run_compact h.inv hle
    simp only [hrun, hkept, hinv.durable_of_log h.inv hlog]
    exact hle
  | gc =>
    obtain rfl := Option.some.inj hstep
    rw [run_gc]
    exact hle
  | reopen =>
    obtain rfl := Option.some.inj hstep
    have hreopened := h.inv.withStore
    simp only [hreopened.durable_of_log h.inv rfl, h.inv.floor_withStore]
    exact hle

/-- Compaction never outruns the log while the floor is only moved to where the log is. -/
theorem Good.of_floorReached (hrun : RunWhere (Session.step config) FloorReached Session.start s) :
    Good s ∧ s.world.inner.retentionFloor ≤ s.world.inner.durableLsn := by
  refine hrun.invariant (I := fun s => Good s ∧ s.world.inner.retentionFloor ≤ s.world.inner.durableLsn)
    ⟨.start, le_rfl⟩ fun t u a ⟨hgood, hle⟩ hfloor hstep => ⟨hgood.step ?_ hstep, hgood.floor_le hle hfloor hstep⟩
  cases a <;> first | exact trivial | exact hle

/-- The answer to a read, of the pages that were put. -/
def Answers (puts : List PageRecord) (pageId query : Nat) (answer : Except StorageError Page) : Prop :=
  (∃ r, answer = .ok r.page ∧ IsLatest puts pageId query r) ∨
    (answer = .error (noVersionError pageId query) ∧ NoVersion puts pageId query)

theorem Good.puts_eq (h : Good s) : {r | r ∈ s.puts} = {r | r ∈ s.world.bucket.history} := Set.ext h.puts

theorem Good.answers (h : Good s) {pageId query : Nat} (hq : s.world.inner.retentionFloor ≤ query) :
    Answers s.puts pageId query (runOn (Object.getPage pageId query) s.world).1 := by
  obtain ⟨answer, w, hrun, -, hanswer⟩ := run_getPage h.inv _ hq
  rw [hrun]
  simpa only [Answers, IsLatest, NoVersion, h.puts_eq] using hanswer

/-- **Reads through the layers.** In every run of a handle that moves the floor only
to LSNs the log has reached, a read at or above the floor answers the greatest
version put at or below its LSN, zero-padded, and that there is none exactly when
none was put; collecting garbage first makes no difference. -/
theorem getPage_latest (config : Config) (s : Session)
    (hrun : RunWhere (Session.step config) FloorReached Session.start s) (pageId query : Nat)
    (hq : s.world.inner.retentionFloor ≤ query) :
    Answers s.puts pageId query (runOn (Object.getPage pageId query) s.world).1 ∧
      Answers s.puts pageId query (runOn (Object.getPage pageId query) (runOn Object.gc s.world).2).1 := by
  obtain ⟨hgood, -⟩ := Good.of_floorReached hrun
  have hswept : Good { s with world := s.world.swept } := hgood.of_log hgood.inv.swept rfl
  rw [run_gc]
  exact ⟨hgood.answers hq, hswept.answers hq⟩

/-- A page put, covered by an image and read below a later put, at the LSN of the floor. -/
theorem getPage_latest_compacted : ∃ s, RunWhere (Session.step ⟨100, 8⟩) FloorReached Session.start s ∧
    (runOn (Object.getPage 1 1) s.world).1 = .ok ⟨1, padPage [1]⟩ ∧
      Answers s.puts 1 1 (runOn (Object.getPage 1 1) s.world).1 := by
  have hrun : RunWhere (Session.step ⟨100, 8⟩) FloorReached Session.start _ := RunWhere.nil.plays
    [.acquireFence 7, .putPage ⟨1, 7⟩ 1 [1], .setRetentionFloor 1, .compact, .gc, .putPage ⟨1, 7⟩ 1 [2]]
    ⟨trivial, _, rfl, trivial, _, rfl, Nat.le_refl 1, _, rfl, trivial, _, rfl, trivial, _, rfl, trivial, _, rfl, rfl⟩
  exact ⟨_, hrun, rfl, (getPage_latest ⟨100, 8⟩ _ hrun 1 1 (Nat.le_refl 1)).1⟩

/-- The handle opened anew on the bucket stands where the old one does and answers every
read as it does. -/
def RestartsAlike (w : World) : Prop :=
  (withStore w.bucket).inner.nextSeq = w.inner.nextSeq ∧ (withStore w.bucket).inner.nextLsn = w.inner.nextLsn ∧
    (withStore w.bucket).inner.durableLsn = w.inner.durableLsn ∧
    (withStore w.bucket).inner.commitLsn = w.inner.commitLsn ∧
    (withStore w.bucket).inner.retentionFloor = w.inner.retentionFloor ∧
    ∀ pageId query, (runOn (Object.getPage pageId query) (withStore w.bucket)).1 =
      (runOn (Object.getPage pageId query) w).1

/-- The pages put leave one answer. -/
theorem Answers.unique {puts : List PageRecord} {pageId query : Nat} {answer answer' : Except StorageError Page}
    (hdistinct : Versions.Distinct PageRecord.pageId PageRecord.lsn {r | r ∈ puts})
    (h : Answers puts pageId query answer) (h' : Answers puts pageId query answer') : answer = answer' := by
  rcases h with ⟨r, rfl, hr⟩ | ⟨rfl, hno⟩ <;> rcases h' with ⟨r', rfl, hr'⟩ | ⟨rfl, hno'⟩
  · rw [hr.unique hdistinct hr']
  · exact absurd hr.le (Nat.not_le.2 (hno' r hr.mem hr.key_eq))
  · exact absurd hr'.le (Nat.not_le.2 (hno r' hr'.mem hr'.key_eq))
  · rfl

theorem Good.restartsAlike (h : Good s) : RestartsAlike s.world := by
  have hinv := h.inv.withStore
  have hfloor := h.inv.floor_withStore
  refine ⟨?_, ?_, hinv.durable_of_log h.inv rfl, ?_, hfloor, fun pageId query => ?_⟩
  · rw [hinv.nextSeq, h.inv.nextSeq]
    rfl
  · rw [hinv.nextLsn, h.inv.nextLsn]
    rfl
  · rw [hinv.commit 0, h.inv.commit 0]
    rfl
  · by_cases hbelow : query < s.world.inner.retentionFloor
    · rw [run_getPage_below hbelow, run_getPage_below (hfloor.symm ▸ hbelow), hfloor]
    · have hq := Nat.le_of_not_lt hbelow
      have hreopened : Good { s with world := Object.withStore s.world.bucket } := h.of_log hinv rfl
      have hdistinct : Versions.Distinct PageRecord.pageId PageRecord.lsn {r | r ∈ s.puts} := by
        rw [h.puts_eq]
        exact history_distinct s.world.bucket
      exact (hreopened.answers (hfloor.symm ▸ hq)).unique hdistinct (h.answers hq)

/-- **Restart transparency.** In every run whose compactions find the floor at or
below the log's end, a handle opened anew stands where the old one does and answers
every read alike. -/
theorem restartsAlike_of_compactReached (config : Config) (s : Session)
    (hrun : RunWhere (Session.step config) CompactReached Session.start s) : RestartsAlike s.world :=
  (hrun.invariant (I := Good) .start fun _ _ _ hgood hcompact hstep => hgood.step hcompact hstep).restartsAlike

theorem restartsAlike_floor_ahead : ∃ s, RunWhere (Session.step ⟨100, 8⟩) CompactReached Session.start s ∧
    s.world.inner.durableLsn < s.world.inner.retentionFloor ∧ RestartsAlike s.world := by
  have hrun : RunWhere (Session.step ⟨100, 8⟩) CompactReached Session.start _ := RunWhere.nil.plays
    [.acquireFence 7, .putPage ⟨1, 7⟩ 1 [1], .setRetentionFloor 1, .compact, .setRetentionFloor 5]
    ⟨trivial, _, rfl, trivial, _, rfl, trivial, _, rfl, Nat.le_refl 1, _, rfl, trivial, _, rfl, rfl⟩
  exact ⟨_, hrun, by decide, restartsAlike_of_compactReached ⟨100, 8⟩ _ hrun⟩

/-- With the floor ahead of the log, compaction names an image after LSNs not yet
written; the page put there is lost to a handle opened anew. -/
theorem put_lost_on_restart : ∃ s, RunWhere (Session.step ⟨100, 8⟩) (fun _ _ => True) Session.start s ∧
    (runOn (Object.getPage 1 5) s.world).1 = .ok ⟨2, padPage [2]⟩ ∧
    (runOn (Object.getPage 1 5) (withStore s.world.bucket)).1 = .ok ⟨1, padPage [1]⟩ ∧ ¬ RestartsAlike s.world := by
  have hrun : RunWhere (Session.step ⟨100, 8⟩) (fun _ _ => True) Session.start _ := RunWhere.nil.plays
    [.acquireFence 7, .putPage ⟨1, 7⟩ 1 [1], .setRetentionFloor 5, .compact, .putPage ⟨1, 7⟩ 1 [2]]
    ⟨trivial, _, rfl, trivial, _, rfl, trivial, _, rfl, trivial, _, rfl, trivial, _, rfl, rfl⟩
  refine ⟨_, hrun, rfl, rfl, fun halike => ?_⟩
  have := congrArg (Except.map Page.lsn) (halike.2.2.2.2.2 1 5)
  revert this
  decide +kernel

end Session

end Twill.Storage.Object
