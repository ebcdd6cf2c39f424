/-
Page reads of the object-storage backend, and what a restart keeps.

The log is the truth: numbering its items gives every page version ever put.
Memtable, delta layers and image are three ways to hold parts of that history,
and the invariant says which part each holds. A read is then a read of the
history, and so is a read by a handle that was opened anew on the same bucket.
-/
import Twill.Storage.ObjectStorage
import Twill.Lib.StateExcept
import Twill.Lib.Versions
import Twill.Lib.Transition

namespace Twill.Storage.Object

open StateExcept (runOn run_bind run_bind_ok run_bind_error run_pure run_throw run_get run_modify run_ite)
open Versions (NoneAt Sums)

/-! ## The history in the log -/

def LogItem.record : LogItem × Nat → Option PageRecord
  | (.page pageId image, lsn) => some ⟨pageId, lsn, image⟩
  | (.wal _, _) => none

/-- The page versions among items numbered from `start`. -/
def pagesFrom (start : Nat) (items : Segment) : List PageRecord := (items.zipIdx start).filterMap LogItem.record

namespace Bucket

/-- Every item of the log, in LSN order. -/
def items (b : Bucket) : Segment := b.log.flatMap (·.2)

/-- Every page version of the log. -/
def history (b : Bucket) : List PageRecord := pagesFrom 1 b.items

end Bucket

abbrev IsLatest (records : List PageRecord) : Nat → Nat → PageRecord → Prop :=
  Versions.IsLatest PageRecord.pageId PageRecord.lsn {r | r ∈ records}

abbrev NoVersion (records : List PageRecord) : Nat → Nat → Prop :=
  NoneAt PageRecord.pageId PageRecord.lsn {r | r ∈ records}

theorem pagesFrom_append (start : Nat) (a b : Segment) :
    pagesFrom start (a ++ b) = pagesFrom start a ++ pagesFrom (start + a.length) b := by
  simp only [pagesFrom, List.zipIdx_append, List.filterMap_append]

theorem mem_pagesFrom {start : Nat} {items : Segment} {r : PageRecord} :
    r ∈ pagesFrom start items ↔
      start ≤ r.lsn ∧ items[r.lsn - start]? = some (.page r.pageId r.image) := by
  simp only [pagesFrom, List.mem_filterMap]
  constructor
  · rintro ⟨⟨item, lsn⟩, hmem, hrec⟩
    obtain ⟨hle, hget⟩ := List.mem_zipIdx_iff_le_and_getElem?_sub.1 hmem
    cases item with
    | wal bytes => simp [LogItem.record] at hrec
    | page pageId image =>
      obtain rfl : (⟨pageId, lsn, image⟩ : PageRecord) = r := by simpa [LogItem.record] using hrec
      exact ⟨hle, hget⟩
  · rintro ⟨hle, hget⟩
    exact ⟨(.page r.pageId r.image, r.lsn), List.mem_zipIdx_iff_le_and_getElem?_sub.2 ⟨hle, hget⟩, rfl⟩

theorem lsn_lt_of_mem_pagesFrom {start : Nat} {items : Segment} {r : PageRecord} (h : r ∈ pagesFrom start items) :
    start ≤ r.lsn ∧ r.lsn < start + items.length := by
  obtain ⟨hle, hget⟩ := mem_pagesFrom.1 h
  obtain ⟨hlt, -⟩ := List.getElem?_eq_some_iff.1 hget
  omega

/-- An LSN names one version. -/
theorem history_distinct (b : Bucket) : Versions.Distinct PageRecord.pageId PageRecord.lsn {r | r ∈ b.history} := by
  intro x hx y hy _ hlsn
  have hx' := (mem_pagesFrom.1 hx).2
  have hy' := (mem_pagesFrom.1 hy).2
  rw [hlsn, hy'] at hx'
  obtain ⟨hid, himage⟩ : y.pageId = x.pageId ∧ y.image = x.image := by simpa using hx'
  cases x
  cases y
  simp_all

theorem lsn_le_of_mem_history {b : Bucket} {r : PageRecord} (h : r ∈ b.history) : 1 ≤ r.lsn ∧ r.lsn ≤ b.items.length := by
  have := lsn_lt_of_mem_pagesFrom h
  omega

/-! ## The greatest version in a layer -/

theorem bestIn_append (a : List PageRecord) (r : PageRecord) (pageId query : Nat) :
    bestIn (a ++ [r]) pageId query =
      if r.pageId = pageId ∧ r.lsn ≤ query then
        match bestIn a pageId query with
        | none => some r
        | some b => if b.lsn ≤ r.lsn then some r else some b
      else bestIn a pageId query := by
  rw [bestIn, List.foldl_append]
  rfl

theorem bestIn_spec (records : List PageRecord) (pageId query : Nat) :
    (∃ r, bestIn records pageId query = some r ∧ IsLatest records pageId query r) ∨
      (bestIn records pageId query = none ∧ NoVersion records pageId query) := by
  induction records using List.reverseRecOn with
  | nil => exact .inr ⟨rfl, by intro x hx; simp at hx⟩
  | append_singleton records r ih =>
    rw [bestIn_append]
    by_cases hr : r.pageId = pageId ∧ r.lsn ≤ query
    · rw [if_pos hr]
      rcases ih with ⟨b, hb, hlatest⟩ | ⟨hnone, hno⟩
      · rw [hb]
        by_cases hle : b.lsn ≤ r.lsn
        · refine .inl ⟨r, by simp [hle], by simp, hr.1, hr.2, fun x hx hk hq => ?_⟩
          rcases List.mem_append.1 hx with hx | hx
          · exact (hlatest.greatest x hx hk hq).trans hle
          · rw [List.mem_singleton.1 hx]
        · refine .inl ⟨b, by simp [hle], by simpa using .inl hlatest.mem, hlatest.key_eq, hlatest.le,
            fun x hx hk hq => ?_⟩
          rcases List.mem_append.1 hx with hx | hx
          · exact hlatest.greatest x hx hk hq
          · rw [List.mem_singleton.1 hx]
            omega
      · rw [hnone]
        refine .inl ⟨r, rfl, by simp, hr.1, hr.2, fun x hx hk hq => ?_⟩
        rcases List.mem_append.1 hx with hx | hx
        · have := hno x hx hk
          omega
        · rw [List.mem_singleton.1 hx]
    · rw [if_neg hr]
      rcases ih with ⟨b, hb, hlatest⟩ | ⟨hnone, hno⟩
      · refine .inl ⟨b, hb, by simpa using .inl hlatest.mem, hlatest.key_eq, hlatest.le, fun x hx hk hq => ?_⟩
        rcases List.mem_append.1 hx with hx | hx
        · exact hlatest.greatest x hx hk hq
        · rw [List.mem_singleton.1 hx] at hk hq
          exact absurd ⟨hk, hq⟩ hr
      · refine .inr ⟨hnone, fun x hx hk => ?_⟩
        rcases List.mem_append.1 hx with hx | hx
        · exact hno x hx hk
        · rw [List.mem_singleton.1 hx] at hk ⊢
          by_contra hq
          exact hr ⟨hk, by omega⟩

theorem bestIn_some {records : List PageRecord} {pageId query : Nat} {r : PageRecord}
    (h : bestIn records pageId query = some r) : IsLatest records pageId query r := by
  rcases bestIn_spec records pageId query with ⟨r', hr', hlatest⟩ | ⟨hnone, -⟩
  · rw [h] at hr'
    cases hr'
    exact hlatest
  · rw [h] at hnone
    cases hnone

theorem bestIn_none {records : List PageRecord} {pageId query : Nat} (h : bestIn records pageId query = none) :
    NoVersion records pageId query := by
  rcases bestIn_spec records pageId query with ⟨r', hr', -⟩ | ⟨-, hno⟩
  · rw [h] at hr'
    cases hr'
  · exact hno

/-! ## Which part of the history is where -/

/-- What a layer's name promises of its records. -/
def LayerOk (b : Bucket) : LayerKey → List PageRecord → Prop
  | .delta lo hi, records => hi ≤ b.items.length ∧ ∀ r, r ∈ records ↔ r ∈ b.history ∧ lo ≤ r.lsn ∧ r.lsn ≤ hi
  | .image f, records =>
    f ≤ b.items.length ∧ Sums PageRecord.pageId PageRecord.lsn {r | r ∈ b.history} f {r | r ∈ records}

/-- A flushed version lies in one of the deltas, or it is at or below the image
and older than every delta. -/
def Covered (b : Bucket) (flushedHw : Nat) (image : Option Nat) (deltas : List DeltaMeta) : Prop :=
  ∀ r ∈ b.history, r.lsn ≤ flushedHw →
    (∃ d ∈ deltas, d.lo ≤ r.lsn ∧ r.lsn ≤ d.hi) ∨
      ((∃ f, image = some f ∧ r.lsn ≤ f) ∧ ∀ d ∈ deltas, r.lsn < d.lo)

/-- The deltas whose objects are in the bucket. -/
def Bucket.deltas (b : Bucket) : List DeltaMeta := b.layers.keys.filterMap LayerKey.asDelta

structure Inv (w : World) : Prop where
  slots : w.bucket.log.map Prod.fst = List.range' 1 w.bucket.log.length
  nextSeq : w.inner.nextSeq = w.bucket.log.length + 1
  nextLsn : w.inner.nextLsn = w.bucket.items.length + 1
  durable : w.inner.durableLsn = w.bucket.items.length
  commit : ∀ hw, w.inner.commitLsn = (replayLog w.bucket hw).commitLsn
  floor : w.bucket.retention.getD 0 = w.inner.retentionFloor
  flushed : w.inner.flushedHw ≤ w.inner.durableLsn
  memtable : ∀ r, r ∈ w.inner.memtable ↔ r ∈ w.bucket.history ∧ w.inner.flushedHw < r.lsn
  layers : ∀ key records, w.bucket.layers.lookup key = some records → LayerOk w.bucket key records
  cache : ∀ key records, w.cache.lookup key = some records → LayerOk w.bucket key records
  live : ∀ key ∈ w.inner.live, (w.bucket.layers.lookup key).isSome
  spans : ∀ d ∈ w.bucket.deltas, d.lo ≤ d.hi ∧ d.hi ≤ w.inner.flushedHw
  apart : ∀ d ∈ w.bucket.deltas, ∀ d' ∈ w.bucket.deltas, d = d' ∨ d.hi < d'.lo ∨ d'.hi < d.lo
  covered : Covered w.bucket w.inner.flushedHw w.inner.image w.inner.deltas
  coveredBucket : Covered w.bucket w.inner.flushedHw w.inner.image w.bucket.deltas
  images : ∀ f, .image f ∈ w.bucket.layers → ∃ g, w.inner.image = some g ∧ f ≤ g
  imageFloor : ∀ f, w.inner.image = some f → f ≤ w.inner.retentionFloor
  above : ∀ f, w.inner.image = some f → ∀ r ∈ w.bucket.history, w.inner.flushedHw < r.lsn → f < r.lsn

theorem mem_deltas {b : Bucket} {d : DeltaMeta} : d ∈ b.deltas ↔ d.key ∈ b.layers := by
  simp only [Bucket.deltas, List.mem_filterMap, ← AList.mem_keys]
  constructor
  · rintro ⟨key, hkey, hd⟩
    cases key with
    | delta lo hi =>
      obtain rfl : (⟨lo, hi⟩ : DeltaMeta) = d := by simpa [LayerKey.asDelta] using hd
      exact hkey
    | image lsn => simp [LayerKey.asDelta] at hd
  · intro hkey
    exact ⟨d.key, hkey, rfl⟩

theorem Inv.live_delta {w : World} (h : Inv w) {d : DeltaMeta} (hd : d ∈ w.inner.deltas) : d ∈ w.bucket.deltas := by
  have hlive := h.live d.key (by simpa [Inner.live] using .inl ⟨d, hd, rfl⟩)
  rw [mem_deltas, ← AList.lookup_isSome]
  exact hlive

/-! ## Reading -/

section Reading

variable {w : World} {key : LayerKey} {pageId query : Nat}

/-- A world that differs in its cache only, where every entry keeps its promise. -/
structure Warmed (w w' : World) : Prop where
  bucket : w'.bucket = w.bucket
  inner : w'.inner = w.inner
  cache : ∀ key records, w'.cache.lookup key = some records → LayerOk w.bucket key records

theorem Warmed.inv {w' : World} (hw : Warmed w w') (h : Inv w) : Inv w' := by
  obtain ⟨bucket, inner, cache⟩ := w'
  obtain ⟨rfl, rfl, hcache⟩ := hw
  exact ⟨h.slots, h.nextSeq, h.nextLsn, h.durable, h.commit, h.floor, h.flushed, h.memtable, h.layers, hcache,
    h.live, h.spans, h.apart, h.covered, h.coveredBucket, h.images, h.imageFloor, h.above⟩

theorem Warmed.trans {w' w'' : World} (h : Warmed w w') (h' : Warmed w' w'') : Warmed w w'' := by
  refine ⟨h'.bucket.trans h.bucket, h'.inner.trans h.inner, fun key records hlookup => ?_⟩
  have := h'.cache key records hlookup
  rwa [h.bucket] at this

theorem Inv.warmed (h : Inv w) : Warmed w w := ⟨rfl, rfl, h.cache⟩

/-- A live layer loads, and what loads keeps the layer's promise. -/
theorem run_loadLayer (h : Inv w) (hkey : (w.bucket.layers.lookup key).isSome) :
    ∃ records w', runOn (loadLayer key) w = (.ok records, w') ∧ LayerOk w.bucket key records ∧ Warmed w w' := by
  simp only [loadLayer, run_bind, run_get]
  cases hcache : w.cache.lookup key with
  | some hit => exact ⟨hit, w, rfl, h.cache key hit hcache, h.warmed⟩
  | none =>
    obtain ⟨records, hrecords⟩ := Option.isSome_iff_exists.1 hkey
    have hok := h.layers key records hrecords
    refine ⟨records, { w with cache := w.cache.insert key records }, by simp only [hrecords]; rfl, hok, rfl, rfl,
      fun key' records' hlookup => ?_⟩
    by_cases heq : key' = key
    · subst heq
      change (w.cache.insert key' records).lookup key' = some records' at hlookup
      rw [AList.lookup_insert] at hlookup
      cases hlookup
      exact hok
    · change (w.cache.insert key records).lookup key' = some records' at hlookup
      rw [AList.lookup_insert_ne heq] at hlookup
      exact h.cache key' records' hlookup

/-- The search of delta layers that are sorted newest first: the first hit is the
latest version among all their records, and a miss is a miss in each. -/
theorem run_searchDeltas {deltas : List DeltaMeta} (h : Inv w) (hdeltas : ∀ d ∈ deltas, d ∈ w.bucket.deltas)
    (hsorted : deltas.Pairwise fun x y => y.hi ≤ x.hi) :
    ∃ found w', runOn (searchDeltas pageId query deltas) w = (.ok found, w') ∧ Warmed w w' ∧
      match found with
      | some r => ∃ d ∈ deltas, d.lo ≤ r.lsn ∧ r.lsn ≤ d.hi ∧ r ∈ w.bucket.history ∧ r.pageId = pageId ∧
          r.lsn ≤ query ∧ ∀ x ∈ w.bucket.history, x.pageId = pageId → x.lsn ≤ query → r.lsn < x.lsn →
            ∀ d ∈ deltas, ¬ (d.lo ≤ x.lsn ∧ x.lsn ≤ d.hi)
      | none => ∀ x ∈ w.bucket.history, x.pageId = pageId → x.lsn ≤ query →
          ∀ d ∈ deltas, ¬ (d.lo ≤ x.lsn ∧ x.lsn ≤ d.hi) := by
  induction deltas generalizing w with
  | nil => exact ⟨none, w, rfl, h.warmed, by simp⟩
  | cons d deltas ih =>
    obtain ⟨hhead, htail⟩ := List.pairwise_cons.1 hsorted
    have hdeltas' : ∀ d ∈ deltas, d ∈ w.bucket.deltas := fun d hd => hdeltas d (by simp [hd])
    rw [searchDeltas, run_ite]
    split_ifs with hskip
    · -- The span starts after the query: nothing in it can match.
      obtain ⟨found, w', hrun, hwarm, hfound⟩ := ih h hdeltas' htail
      refine ⟨found, w', hrun, hwarm, ?_⟩
      cases found with
      | some r =>
        obtain ⟨d', hd', hlo, hhi, hmem, hpage, hq, hnewer⟩ := hfound
        refine ⟨d', by simp [hd'], hlo, hhi, hmem, hpage, hq, fun x hx hk hle hlt => ?_⟩
        rintro d'' hd''
        rcases List.mem_cons.1 hd'' with rfl | hd''
        · omega
        · exact hnewer x hx hk hle hlt d'' hd''
      | none =>
        rintro x hx hk hle d'' hd''
        rcases List.mem_cons.1 hd'' with rfl | hd''
        · omega
        · exact hfound x hx hk hle d'' hd''
    · have hlookup : (w.bucket.layers.lookup d.key).isSome := by
        rw [AList.lookup_isSome, ← mem_deltas]
        exact hdeltas d (by simp)
      obtain ⟨records, w', hload, ⟨-, hrecords⟩, hwarm⟩ := run_loadLayer h hlookup
      rw [run_bind_ok hload]
      cases hbest : bestIn records pageId query with
      | some r =>
        have hlatest := bestIn_some hbest
        obtain ⟨hmem, hlo, hhi⟩ := (hrecords r).1 hlatest.mem
        refine ⟨some r, w', rfl, hwarm, d, by simp, hlo, hhi, hmem, hlatest.key_eq, hlatest.le, ?_⟩
        rintro x hx hk hle hlt d' hd' ⟨hxlo, hxhi⟩
        rcases List.mem_cons.1 hd' with rfl | hd'
        · have := hlatest.greatest x ((hrecords x).2 ⟨hx, hxlo, hxhi⟩) hk hle
          omega
        · -- An older delta ends before this one starts.
          have hend := hhead d' hd'
          have hspan := (h.spans d (hdeltas d (by simp))).1
          rcases h.apart d (hdeltas d (by simp)) d' (hdeltas' d' hd') with rfl | hbefore | hafter
          · have := hlatest.greatest x ((hrecords x).2 ⟨hx, hxlo, hxhi⟩) hk hle
            omega
          · omega
          · omega
      | none =>
        have hno := bestIn_none hbest
        obtain ⟨found, w'', hrun, hwarm', hfound⟩ := ih (hwarm.inv h)
          (by rw [hwarm.bucket]; exact hdeltas') htail
        rw [hwarm.bucket] at hfound
        refine ⟨found, w'', hrun, hwarm.trans hwarm', ?_⟩
        have hmiss : ∀ x ∈ w.bucket.history, x.pageId = pageId → x.lsn ≤ query → ¬ (d.lo ≤ x.lsn ∧ x.lsn ≤ d.hi) := by
          rintro x hx hk hle ⟨hxlo, hxhi⟩
          have := hno x ((hrecords x).2 ⟨hx, hxlo, hxhi⟩) hk
          omega
        cases found with
        | some r =>
          obtain ⟨d', hd', hlo, hhi, hmem, hpage, hq, hnewer⟩ := hfound
          refine ⟨d', by simp [hd'], hlo, hhi, hmem, hpage, hq, fun x hx hk hle hlt d'' hd'' => ?_⟩
          rcases List.mem_cons.1 hd'' with rfl | hd''
          · exact hmiss x hx hk hle
          · exact hnewer x hx hk hle hlt d'' hd''
        | none =>
          intro x hx hk hle d'' hd''
          rcases List.mem_cons.1 hd'' with rfl | hd''
          · exact hmiss x hx hk hle
          · exact hfound x hx hk hle d'' hd''

/-- The image search, where every version in view that is no part of a summary
would have been found before. -/
theorem run_searchImage (h : Inv w) (hfloor : w.inner.retentionFloor ≤ query)
    (hold : ∀ x ∈ w.bucket.history, x.pageId = pageId → x.lsn ≤ query →
      ∃ f, w.inner.image = some f ∧ x.lsn ≤ f) :
    ∃ found w', runOn (searchImage pageId query w.inner.image) w = (.ok found, w') ∧ Warmed w w' ∧
      match found with
      | some r => IsLatest w.bucket.history pageId query r
      | none => NoVersion w.bucket.history pageId query := by
  cases himage : w.inner.image with
  | none =>
    refine ⟨none, w, rfl, h.warmed, fun x hx hk => ?_⟩
    by_contra hle
    obtain ⟨f, hf, -⟩ := hold x hx hk (by omega)
    rw [himage] at hf
    cases hf
  | some f =>
    have hf := h.imageFloor f himage
    have hlookup : (w.bucket.layers.lookup (.image f)).isSome := h.live (.image f) (by simp [Inner.live, himage])
    obtain ⟨records, w', hload, ⟨-, hsums⟩, hwarm⟩ := run_loadLayer h hlookup
    rw [searchImage, run_ite, if_neg (by omega), run_bind_ok hload]
    refine ⟨bestIn records pageId query, w', rfl, hwarm, ?_⟩
    have hold' : ∀ x ∈ {r | r ∈ w.bucket.history}, x.pageId = pageId → x.lsn ≤ query → x.lsn ≤ f := by
      intro x hx hk hle
      obtain ⟨f', hf', hxf⟩ := hold x hx hk hle
      rw [himage] at hf'
      cases hf'
      exact hxf
    cases hbest : bestIn records pageId query with
    | some r => exact (bestIn_some hbest).of_sums hsums (hf.trans hfloor) hold'
    | none => exact (bestIn_none hbest).of_sums hsums (hf.trans hfloor) hold'

def noVersionError (pageId query : Nat) : StorageError :=
  .notFound s!"page {pageId} has no version at-or-before lsn {query}"

/-- A read at or above the floor answers from the history. -/
theorem run_getPage (h : Inv w) (pageId : Nat) (hfloor : w.inner.retentionFloor ≤ query) :
    ∃ answer w', runOn (getPage pageId query) w = (answer, w') ∧ Warmed w w' ∧
      ((∃ r, answer = .ok r.page ∧ IsLatest w.bucket.history pageId query r) ∨
        (answer = .error (noVersionError pageId query) ∧ NoVersion w.bucket.history pageId query)) := by
  rw [getPage, run_bind_ok (run_get w), run_ite, if_neg (by omega)]
  have hmem : {r | r ∈ w.inner.memtable} ⊆ {r | r ∈ w.bucket.history} := fun r hr => ((h.memtable r).1 hr).1
  cases hbest : bestIn w.inner.memtable pageId query with
  | some r =>
    have hlatest := bestIn_some hbest
    have hnew := ((h.memtable r).1 hlatest.mem).2
    refine ⟨.ok r.page, w, rfl, h.warmed, .inl ⟨r, rfl, hlatest.of_part hmem fun x hx _ _ hlt => ?_⟩⟩
    exact (h.memtable x).2 ⟨hx, by omega⟩
  | none =>
    have hno := bestIn_none hbest
    have hflushed : ∀ x ∈ w.bucket.history, x.pageId = pageId → x.lsn ≤ query → x.lsn ≤ w.inner.flushedHw := by
      intro x hx hk hle
      by_contra hlt
      have := hno x ((h.memtable x).2 ⟨hx, by omega⟩) hk
      omega
    set sorted := w.inner.deltas.insertionSort fun x y => y.hi ≤ x.hi with hsorted
    have hpair : sorted.Pairwise fun x y => y.hi ≤ x.hi := by
      have : Std.Total fun x y : DeltaMeta => y.hi ≤ x.hi := ⟨fun x y => le_total y.hi x.hi⟩
      have : IsTrans DeltaMeta fun x y => y.hi ≤ x.hi := ⟨fun x y z hxy hyz => hyz.trans hxy⟩
      exact List.pairwise_insertionSort _ _
    have hlive : ∀ d ∈ sorted, d ∈ w.bucket.deltas := fun d hd => h.live_delta ((List.mem_insertionSort _).1 hd)
    obtain ⟨found, w', hrun, hwarm, hfound⟩ := run_searchDeltas h hlive hpair
    dsimp only
    rw [run_bind_ok hrun]
    cases found with
    | some r =>
      obtain ⟨d, hd, hlo, hhi, hr, hpage, hq, hnewer⟩ := hfound
      refine ⟨.ok r.page, w', rfl, hwarm, .inl ⟨r, rfl, hr, hpage, hq, fun x hx hk hle => ?_⟩⟩
      by_contra hlt
      -- A newer version would lie in a searched delta, or be older than every delta.
      rcases h.covered x hx (hflushed x hx hk hle) with ⟨d', hd', hspan⟩ | ⟨-, hbelow⟩
      · exact hnewer x hx hk hle (by omega) d' ((List.mem_insertionSort _).2 hd') hspan
      · have := hbelow d ((List.mem_insertionSort _).1 hd)
        omega
    | none =>
      have hold : ∀ x ∈ w'.bucket.history, x.pageId = pageId → x.lsn ≤ query →
          ∃ f, w'.inner.image = some f ∧ x.lsn ≤ f := by
        rw [hwarm.bucket, hwarm.inner]
        intro x hx hk hle
        rcases h.covered x hx (hflushed x hx hk hle) with ⟨d', hd', hspan⟩ | ⟨himage, -⟩
        · exact absurd hspan (hfound x hx hk hle d' ((List.mem_insertionSort _).2 hd'))
        · exact himage
      obtain ⟨found, w'', hrun', hwarm', hfound'⟩ :=
        run_searchImage (hwarm.inv h) (by rw [hwarm.inner]; exact hfloor) hold
      rw [hwarm.inner] at hrun'
      rw [hwarm.bucket] at hfound'
      dsimp only
      rw [run_bind_ok hrun']
      cases found with
      | some r => exact ⟨.ok r.page, w'', rfl, hwarm.trans hwarm', .inl ⟨r, rfl, hfound'⟩⟩
      | none => exact ⟨_, w'', rfl, hwarm.trans hwarm', .inr ⟨rfl, hfound'⟩⟩

/-- Below the floor every read is refused. -/
theorem run_getPage_below (hfloor : query < w.inner.retentionFloor) :
    runOn (getPage pageId query) w =
      (.error (.notFound s!"lsn {query} below PITR floor {w.inner.retentionFloor}"), w) := by
  rw [getPage, run_bind_ok (run_get w), run_ite, if_pos hfloor]
  rfl

end Reading

/-! ## Numbering items -/

theorem mem_memInsert {m : List PageRecord} {x r : PageRecord} (hnew : ∀ y ∈ m, y.lsn ≠ x.lsn) :
    r ∈ memInsert m x ↔ r ∈ m ∨ r = x := by
  simp only [memInsert, List.mem_append, List.mem_filter, List.mem_singleton]
  constructor
  · rintro (⟨hr, -⟩ | rfl)
    · exact .inl hr
    · exact .inr rfl
  · rintro (hr | rfl)
    · exact .inl ⟨hr, by simp [hnew r hr]⟩
    · exact .inr rfl

/-- The memtable holds the versions above the flushed mark. -/
def MemOk (hw : Nat) (items : Segment) (memtable : List PageRecord) : Prop :=
  ∀ r, r ∈ memtable ↔ r ∈ pagesFrom 1 items ∧ hw < r.lsn

theorem pagesFrom_snoc_wal (items : Segment) (bytes : Bytes) :
    pagesFrom 1 (items ++ [.wal bytes]) = pagesFrom 1 items := by
  rw [pagesFrom_append]
  exact List.append_nil _

theorem mem_pagesFrom_snoc_page {items : Segment} {pageId : Nat} {image : Bytes} {r : PageRecord} :
    r ∈ pagesFrom 1 (items ++ [.page pageId image]) ↔
      r ∈ pagesFrom 1 items ∨ r = ⟨pageId, items.length + 1, image⟩ := by
  have hlast : pagesFrom (1 + items.length) [.page pageId image] = [⟨pageId, items.length + 1, image⟩] := by
    rw [add_comm]
    rfl
  rw [pagesFrom_append, hlast, List.mem_append, List.mem_singleton]

theorem MemOk.snoc_page {hw : Nat} {items : Segment} {memtable : List PageRecord} (h : MemOk hw items memtable)
    (pageId : Nat) (image : Bytes) (hlt : hw < items.length + 1) :
    MemOk hw (items ++ [.page pageId image]) (memInsert memtable ⟨pageId, items.length + 1, image⟩) := by
  have hold : ∀ y ∈ memtable, y.lsn ≠ items.length + 1 := by
    intro y hy
    have := lsn_lt_of_mem_pagesFrom ((h y).1 hy).1
    omega
  intro r
  rw [mem_memInsert hold, h r, mem_pagesFrom_snoc_page]
  constructor
  · rintro (⟨hr, hlsn⟩ | rfl)
    · exact ⟨.inl hr, hlsn⟩
    · exact ⟨.inr rfl, hlt⟩
  · rintro ⟨hr | rfl, hlsn⟩
    · exact .inl ⟨hr, hlsn⟩
    · exact .inr rfl

theorem MemOk.skip_page {hw : Nat} {items : Segment} {memtable : List PageRecord} (h : MemOk hw items memtable)
    (pageId : Nat) (image : Bytes) (hle : items.length + 1 ≤ hw) :
    MemOk hw (items ++ [.page pageId image]) memtable := by
  intro r
  rw [h r, mem_pagesFrom_snoc_page]
  constructor
  · rintro ⟨hr, hlsn⟩
    exact ⟨.inl hr, hlsn⟩
  · rintro ⟨hr | rfl, hlsn⟩
    · exact ⟨hr, hlsn⟩
    · dsimp only at hlsn
      omega

/-- What a replay knows after numbering `items`. -/
structure Replayed (hw : Nat) (items : Segment) (r : LogReplay) : Prop where
  nextLsn : r.nextLsn = items.length + 1
  durable : r.durableLsn = items.length
  memtable : MemOk hw items r.memtable

theorem Replayed.item {hw : Nat} {items : Segment} {r : LogReplay} (h : Replayed hw items r) (item : LogItem) :
    Replayed hw (items ++ [item]) (replayItem hw r item) := by
  have hnext := h.nextLsn
  cases item with
  | wal bytes =>
    refine ⟨by simp [replayItem, hnext], by simp [replayItem, hnext], ?_⟩
    simpa [MemOk, replayItem, pagesFrom_snoc_wal] using h.memtable
  | page pageId image =>
    by_cases hlt : hw < r.nextLsn
    · have heq : replayItem hw r (.page pageId image) =
          { r with
            nextLsn := r.nextLsn + 1
            durableLsn := r.nextLsn
            memtable := memInsert r.memtable ⟨pageId, r.nextLsn, image⟩
            memtableBytes := r.memtableBytes + image.length } := if_pos hlt
      rw [heq, hnext]
      exact ⟨by simp, by simp, h.memtable.snoc_page pageId image (by omega)⟩
    · have heq : replayItem hw r (.page pageId image) =
          { r with nextLsn := r.nextLsn + 1, durableLsn := r.nextLsn } := if_neg hlt
      rw [heq, hnext]
      exact ⟨by simp, by simp, h.memtable.skip_page pageId image (by omega)⟩

theorem Replayed.segment {hw : Nat} : ∀ (seg : Segment) {items : Segment} {r : LogReplay},
    Replayed hw items r → Replayed hw (items ++ seg) (seg.foldl (replayItem hw) r)
  | [], items, r, h => by simpa using h
  | item :: seg, items, r, h => by simpa using Replayed.segment seg (h.item item)

theorem Replayed.log (hw : Nat) : ∀ (log : List (Nat × Segment)),
    Replayed hw (log.flatMap (·.2)) (log.foldl (replaySegment hw) ⟨0, 1, 0, 0, [], 0⟩) := by
  intro log
  induction log using List.reverseRecOn with
  | nil => exact ⟨rfl, rfl, by intro r; simp [pagesFrom]⟩
  | append_singleton log e ih =>
    set r := log.foldl (replaySegment hw) ⟨0, 1, 0, 0, [], 0⟩ with hr
    have hseg := Replayed.segment e.2 (r := { r with maxSeq := max r.maxSeq e.1 })
      ⟨ih.nextLsn, ih.durable, ih.memtable⟩
    rw [List.foldl_append, List.flatMap_append, ← hr]
    simp only [List.foldl_cons, List.foldl_nil, List.flatMap_cons, List.flatMap_nil, List.append_nil, replaySegment]
    split_ifs
    · exact ⟨hseg.nextLsn, hseg.durable, hseg.memtable⟩
    · exact hseg

/-- What the handle knows after numbering `items` itself. -/
structure Applied (items : Segment) (g : Inner) : Prop where
  nextLsn : g.nextLsn = items.length + 1
  flushed : g.flushedHw ≤ items.length
  memtable : MemOk g.flushedHw items g.memtable

theorem Applied.item {items : Segment} {g : Inner} (h : Applied items g) (item : LogItem) :
    Applied (items ++ [item]) (applyItem g item) := by
  have hnext := h.nextLsn
  have hflushed := h.flushed
  cases item with
  | wal bytes =>
    refine ⟨by simp [applyItem, hnext], by simp [applyItem]; omega, ?_⟩
    simpa [MemOk, applyItem, pagesFrom_snoc_wal] using h.memtable
  | page pageId image =>
    refine ⟨by simp [applyItem, hnext], by simp [applyItem]; omega, ?_⟩
    simp only [applyItem, hnext]
    exact h.memtable.snoc_page pageId image (by omega)

theorem Applied.segment : ∀ (seg : Segment) {items : Segment} {g : Inner},
    Applied items g → Applied (items ++ seg) (seg.foldl applyItem g)
  | [], items, g, h => by simpa using h
  | item :: seg, items, g, h => by simpa using Applied.segment seg (h.item item)

/-- Numbering touches the LSN counter and the memtable only. -/
theorem foldl_applyItem_eq : ∀ (seg : Segment) (g : Inner), ∃ nextLsn memtable memtableBytes,
    seg.foldl applyItem g = { g with nextLsn, memtable, memtableBytes }
  | [], g => ⟨g.nextLsn, g.memtable, g.memtableBytes, rfl⟩
  | item :: seg, g => by
    obtain ⟨nextLsn, memtable, memtableBytes, heq⟩ := foldl_applyItem_eq seg (applyItem g item)
    refine ⟨nextLsn, memtable, memtableBytes, ?_⟩
    rw [List.foldl_cons, heq]
    cases item <;> rfl

end Twill.Storage.Object
