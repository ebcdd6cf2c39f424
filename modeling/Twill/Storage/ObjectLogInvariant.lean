/-
The invariant of several handles on one bucket, kept by every object-store step
of every call.

Slots are taken one after another, so a handle's `next_seq` is at most one past
the log's end, and a put that succeeds lands there. A handle's counters agree
with a replay of the slots below `next_seq` until `next_seq` is refreshed: the
refresh passes over at least one segment that `next_lsn` has not counted.
-/
import Twill.Storage.ObjectLog
import Twill.Storage.ObjectRuns

namespace Twill.Storage.ObjectLog

open Object (LogItem Segment Bucket LogReplay replaySegment sortedLog_of_slots maxSeq_foldl foldl_max_range')

variable {s s' : Sys} {c : Nat}

/-! ## The log -/

/-- The slots are `1, 2, …` in the order they were taken. -/
def Contiguous (log : List Slot) : Prop := log.map Slot.seq = List.range' 1 log.length

/-- How many items the first `k` slots hold. -/
def count (log : List Slot) (k : Nat) : Nat := ((log.take k).map fun x => x.items.length).sum

theorem count_append {log : List Slot} {k : Nat} (hk : k ≤ log.length) (l : List Slot) :
    count (log ++ l) k = count log k := by
  rw [count, List.take_append_of_le_length hk, count]

theorem count_push (log : List Slot) (x : Slot) :
    count (log ++ [x]) (log.length + 1) = count log log.length + x.items.length := by
  simp [count]

theorem count_succ {log : List Slot} {k : Nat} {x : Slot} (hx : log[k]? = some x) :
    count log (k + 1) = count log k + x.items.length := by
  rw [count, List.take_add_one, hx, List.map_append, List.sum_append, count]
  simp

theorem count_mono {log : List Slot} {k k' : Nat} (hle : k ≤ k') : count log k ≤ count log k' := by
  induction k', hle using Nat.le_induction with
  | base => exact le_rfl
  | succ k' _ ih =>
    cases hx : log[k']? with
    | none =>
      have hlen : log.length ≤ k' := List.getElem?_eq_none_iff.1 hx
      have heq : count log (k' + 1) = count log k' := by
        rw [count, count, List.take_of_length_le hlen, List.take_of_length_le (by omega)]
      omega
    | some x =>
      rw [count_succ hx]
      omega

/-- Where every segment has an item, a longer part of the log has more. -/
theorem count_lt {log : List Slot} {k k' : Nat} (hitems : ∀ x ∈ log, x.items ≠ []) (hlt : k < k')
    (hle : k' ≤ log.length) : count log k < count log k' := by
  have hx : log[k]? = some log[k] := List.getElem?_eq_getElem (by omega)
  have hpos : 0 < log[k].items.length := List.length_pos_of_ne_nil (hitems _ (List.getElem_mem _))
  have hmono : count log (k + 1) ≤ count log k' := count_mono hlt
  rw [count_succ hx] at hmono
  omega

namespace Contiguous

variable {log : List Slot} (h : Contiguous log)
include h

theorem seq_getElem {k : Nat} {x : Slot} (hx : log[k]? = some x) : x.seq = k + 1 := by
  have hmap : (log.map Slot.seq)[k]? = some x.seq := by rw [List.getElem?_map, hx]; rfl
  have hlt := (List.getElem?_eq_some_iff.1 hx).1
  rw [h, List.getElem?_range' hlt] at hmap
  have := Option.some.inj hmap
  omega

theorem mem {x : Slot} (hx : x ∈ log) : 1 ≤ x.seq ∧ x.seq ≤ log.length ∧ log[x.seq - 1]? = some x := by
  obtain ⟨k, hk⟩ := List.mem_iff_getElem?.1 hx
  have hseq := h.seq_getElem hk
  have hlt := (List.getElem?_eq_some_iff.1 hk).1
  refine ⟨by omega, by omega, ?_⟩
  rw [hseq, Nat.add_sub_cancel]
  exact hk

theorem push {items : Segment} {epoch call : Nat} : Contiguous (log ++ [⟨log.length + 1, items, epoch, call⟩]) := by
  rw [Contiguous, List.map_append, h, List.length_append, List.length_singleton, List.range'_concat]
  simp [add_comm]

end Contiguous

theorem map_fst_bucket (s : Sys) : s.bucket.log.map Prod.fst = s.log.map Slot.seq := by
  simp [Sys.bucket, Function.comp_def]

theorem bucket_slots (h : Contiguous s.log) :
    s.bucket.log.map Prod.fst = List.range' 1 s.bucket.log.length := by
  rw [map_fst_bucket, h]
  simp [Sys.bucket]

theorem taken_iff (h : Contiguous s.log) {seq : Nat} : s.bucket.taken seq = true ↔ 1 ≤ seq ∧ seq ≤ s.log.length := by
  have hmem : s.bucket.taken seq = true ↔ seq ∈ s.bucket.log.map Prod.fst := by
    rw [Bucket.taken, List.any_eq_true, List.mem_map]
    simp only [beq_iff_eq]
  rw [hmem, map_fst_bucket, h, List.mem_range'_1]
  omega

theorem scanNextSeq_eq (h : Contiguous s.log) : s.bucket.scanNextSeq = s.log.length + 1 := by
  have hfold : ∀ (l : List (Nat × Segment)) (m : Nat), l.foldl (fun m e => max m e.1) m = (l.map Prod.fst).foldl max m := by
    intro l
    induction l with
    | nil => intro m; rfl
    | cons e l ih => intro m; exact ih _
  rw [Bucket.scanNextSeq, hfold, bucket_slots h, foldl_max_range']
  simp [Sys.bucket]

/-- The replay of the first `k` slots. -/
def replayed (log : List Slot) (k : Nat) : LogReplay :=
  ((log.take k).map fun x => (x.seq, x.items)).foldl (replaySegment 0) ⟨0, 1, 0, 0, [], 0⟩

theorem length_flatMap_take (log : List Slot) (k : Nat) :
    (((log.take k).map fun x => (x.seq, x.items)).flatMap (·.2)).length = count log k := by
  simp only [count, List.flatMap_map, List.length_flatMap]

theorem replayed_lsn (log : List Slot) (k : Nat) :
    (replayed log k).nextLsn = count log k + 1 ∧ (replayed log k).durableLsn = count log k := by
  have h := Object.Replayed.log 0 ((log.take k).map fun x => (x.seq, x.items))
  rw [replayed, h.nextLsn, h.durable, length_flatMap_take]
  exact ⟨rfl, rfl⟩

theorem replayed_maxSeq {log : List Slot} (h : Contiguous log) {k : Nat} (hk : k ≤ log.length) :
    (replayed log k).maxSeq = k := by
  have hseqs : ((log.take k).map fun x => (x.seq, x.items)).map Prod.fst = List.range' 1 k := by
    rw [List.map_map]
    show (log.take k).map Slot.seq = _
    rw [List.map_take, h, List.take_range'_of_length_ge hk]
  rw [replayed, maxSeq_foldl, hseqs]
  exact foldl_max_range' k

theorem replayed_succ {log : List Slot} {k : Nat} {x : Slot} (hx : log[k]? = some x) :
    replayed log (k + 1) = replaySegment 0 (replayed log k) (x.seq, x.items) := by
  rw [replayed, List.take_add_one, hx, List.map_append, List.foldl_append, replayed]
  rfl

theorem replayed_append {log : List Slot} {k : Nat} (hk : k ≤ log.length) (l : List Slot) :
    replayed (log ++ l) k = replayed log k := by
  rw [replayed, List.take_append_of_le_length hk, replayed]

/-! ## The invariant -/

/-- How an LSN compares with the replay's of the last item of a slot: equal, or too
small once the handle was refreshed. -/
def Counts (log : List Slot) (refreshed : Bool) (seq lsn : Nat) : Prop :=
  if refreshed then lsn < count log seq else lsn = count log seq

structure HandleOk (log : List Slot) (g : Handle) : Prop where
  seq_pos : 1 ≤ g.nextSeq
  seq_le : g.nextSeq ≤ log.length + 1
  lsn_pos : 1 ≤ g.nextLsn
  counts : Counts log g.refreshed (g.nextSeq - 1) (g.nextLsn - 1)

/-- The epoch in the lease. -/
def Sys.epoch (s : Sys) : Nat := s.bucket.durableEpoch

/-- An append under way: something to write, under an epoch the lease has reached. -/
def Sound (s : Sys) (q : Request) : Prop := q.items ≠ [] ∧ q.epoch ≤ s.epoch

/-- The call is inside the critical section of its handle. -/
def Holds (s : Sys) (c : Nat) (q : Request) (g : Handle) : Prop :=
  s.handles q.handle = some g ∧ g.lock = some c

/-- What a call's place says. -/
def CallOk (s : Sys) (c : Nat) : Call → Prop
  | .reading _ keys r => ∃ k, k + keys.length ≤ s.log.length ∧ keys = List.range' (k + 1) keys.length ∧
      r = replayed s.log k
  | .renewPutting token _ seen => (seen.map Lease.epoch).getD 0 = token.epoch
  | .releasePutting token seen => seen.epoch = token.epoch
  | .checking q => q.items ≠ []
  | .checked q => Sound s q
  | .putting q _ => Sound s q ∧ ∃ g, Holds s c q g
  | .scanning q _ => Sound s q ∧ ∃ g, Holds s c q g ∧ g.nextSeq ≤ s.log.length
  | .rechecking q _ => Sound s q ∧ ∃ g, Holds s c q g
  | .settling q seq last => Sound s q ∧ ∃ g, Holds s c q g ∧ ⟨seq, q.items, q.epoch, c⟩ ∈ s.log ∧
      Counts s.log g.refreshed seq last
  | _ => True

/-- The call has written its segment. -/
def Call.written : Call → Bool
  | .settling .. => true
  | .finished => true
  | _ => false

/-- An acked append has its slot, and its LSN compares with the replay's. -/
def AckOk (log : List Slot) (a : Ack) : Prop :=
  ∃ x ∈ log, x.seq = a.seq ∧ x.call = a.call ∧ x.items.length = a.len ∧ Counts log a.refreshed a.seq a.lsn

structure Inv (s : Sys) : Prop where
  slots : Contiguous s.log
  items : ∀ x ∈ s.log, x.items ≠ []
  epochs : ∀ x ∈ s.log, x.epoch ≤ s.epoch
  writers : ∀ x ∈ s.log, (s.calls x.call).written = true
  once : (s.log.map Slot.call).Nodup
  handles : ∀ h g, s.handles h = some g → HandleOk s.log g
  calls : ∀ c, CallOk s c (s.calls c)
  acked : ∀ a ∈ s.acked, AckOk s.log a
  issued : s.issued.Pairwise (· < ·)
  issuedLe : ∀ e ∈ s.issued, e ≤ s.epoch

/-! ## What other calls leave alone -/

/-- What a step of another call keeps for `c`: the log and the epoch grow, and the
handle it has locked stays as it is. -/
structure Frame (s s' : Sys) (c : Nat) : Prop where
  log : s.log <+: s'.log
  epoch : s.epoch ≤ s'.epoch
  locked : ∀ h g, s.handles h = some g → g.lock = some c → s'.handles h = some g

theorem Counts.grow {log log' : List Slot} {refreshed : Bool} {seq lsn : Nat} (h : Counts log refreshed seq lsn)
    (hlog : log <+: log') (hseq : seq ≤ log.length) : Counts log' refreshed seq lsn := by
  obtain ⟨l, rfl⟩ := hlog
  rw [Counts, count_append hseq]
  exact h

theorem HandleOk.grow {log log' : List Slot} {g : Handle} (h : HandleOk log g) (hlog : log <+: log') :
    HandleOk log' g := by
  have hle := hlog.length_le
  have hseq := h.seq_le
  exact ⟨h.seq_pos, by omega, h.lsn_pos, h.counts.grow hlog (by omega)⟩

theorem AckOk.grow {log log' : List Slot} {a : Ack} (h : AckOk log a) (hlog : log <+: log') (hslots : Contiguous log) :
    AckOk log' a := by
  obtain ⟨x, hx, hseq, hcall, hlen, hcounts⟩ := h
  have hle := (hslots.mem hx).2.1
  exact ⟨x, hlog.subset hx, hseq, hcall, hlen, hcounts.grow hlog (by omega)⟩

theorem Sound.grow {q : Request} (h : Sound s q) (hepoch : s.epoch ≤ s'.epoch) : Sound s' q := ⟨h.1, h.2.trans hepoch⟩

theorem Holds.frame {q : Request} {g : Handle} (h : Holds s c q g) (hframe : Frame s s' c) : Holds s' c q g :=
  ⟨hframe.locked _ _ h.1 h.2, h.2⟩

theorem CallOk.frame {call : Call} (h : CallOk s c call) (hframe : Frame s s' c) (hslots : Contiguous s.log) :
    CallOk s' c call := by
  have hle := hframe.log.length_le
  cases call with
  | reading handle keys r =>
    obtain ⟨k, hk, hkeys, rfl⟩ := h
    refine ⟨k, by omega, hkeys, ?_⟩
    obtain ⟨l, hl⟩ := hframe.log
    rw [← hl, replayed_append (by omega)]
  | renewPutting token attempt seen => exact h
  | releasePutting token seen => exact h
  | checking q => exact h
  | checked q => exact Sound.grow h hframe.epoch
  | putting q attempt =>
    obtain ⟨hsound, g, hholds⟩ := h
    exact ⟨hsound.grow hframe.epoch, g, hholds.frame hframe⟩
  | scanning q attempt =>
    obtain ⟨hsound, g, hholds, htaken⟩ := h
    exact ⟨hsound.grow hframe.epoch, g, hholds.frame hframe, by omega⟩
  | rechecking q attempt =>
    obtain ⟨hsound, g, hholds⟩ := h
    exact ⟨hsound.grow hframe.epoch, g, hholds.frame hframe⟩
  | settling q seq last =>
    obtain ⟨hsound, g, hholds, hmem, hcounts⟩ := h
    refine ⟨hsound.grow hframe.epoch, g, hholds.frame hframe, hframe.log.subset hmem, hcounts.grow hframe.log ?_⟩
    exact (hslots.mem hmem).2.1
  | unborn => trivial
  | listing handle => trivial
  | acquireReading owner attempt => trivial
  | acquirePutting owner attempt seen => trivial
  | renewReading token attempt => trivial
  | releaseReading token => trivial
  | finished => trivial

/-- A step of `c` keeps the calls: the others by their frame, its own by what it
does. -/
theorem Inv.calls_step {call : Call} (h : Inv s) (hcalls : s'.calls = Function.update s.calls c call)
    (hframe : ∀ d ≠ c, Frame s s' d) (hcall : CallOk s' c call) : ∀ d, CallOk s' d (s'.calls d) := by
  intro d
  rw [hcalls]
  rcases eq_or_ne d c with rfl | hne
  · rw [Function.update_self]
    exact hcall
  · rw [Function.update_of_ne hne]
    exact (h.calls d).frame (hframe d hne) h.slots

theorem Inv.writers_step {call : Call} (h : Inv s) (hcalls : s'.calls = Function.update s.calls c call)
    (hwritten : (s.calls c).written = true → call.written = true) :
    ∀ x ∈ s.log, (s'.calls x.call).written = true := by
  intro x hx
  rw [hcalls]
  rcases eq_or_ne x.call c with heq | hne
  · rw [heq, Function.update_self]
    exact hwritten (heq ▸ h.writers x hx)
  · rw [Function.update_of_ne hne]
    exact h.writers x hx

/-! ## A call moves -/

/-- A call moves and nothing else changes. -/
theorem Inv.setCall {call : Call} (h : Inv s) (hcall : CallOk s c call)
    (hwritten : (s.calls c).written = true → call.written = true) : Inv (s.setCall c call) := by
  have hsame : ∀ d, Frame s (s.setCall c call) d := fun d => ⟨List.prefix_rfl, le_rfl, fun _ _ hg _ => hg⟩
  have hown : CallOk (s.setCall c call) c call := hcall.frame (hsame c) h.slots
  exact ⟨h.slots, h.items, h.epochs, h.writers_step rfl hwritten, h.once, h.handles,
    h.calls_step rfl (fun d _ => hsame d) hown, h.acked, h.issued, h.issuedLe⟩

/-- A call moves and sets a handle that it has locked or that nobody has. -/
theorem Inv.setHandle {call : Call} {handle : Nat} {g : Handle} (h : Inv s) (hg : HandleOk s.log g)
    (hfree : ∀ g₀, s.handles handle = some g₀ → ∀ d ≠ c, g₀.lock ≠ some d)
    (hcall : CallOk (s.setHandle handle g) c call) (hwritten : (s.calls c).written = true → call.written = true) :
    Inv ((s.setHandle handle g).setCall c call) := by
  have hframe : ∀ d ≠ c, Frame s ((s.setHandle handle g).setCall c call) d := by
    refine fun d hd => ⟨List.prefix_rfl, le_rfl, fun h' g' hg' hlock => ?_⟩
    rcases eq_or_ne h' handle with rfl | hne
    · exact absurd hlock (hfree g' hg' d hd)
    · show Function.update s.handles handle (some g) h' = some g'
      rw [Function.update_of_ne hne]
      exact hg'
  have hown : CallOk ((s.setHandle handle g).setCall c call) c call :=
    hcall.frame ⟨List.prefix_rfl, le_rfl, fun _ _ hg' _ => hg'⟩ h.slots
  refine ⟨h.slots, h.items, h.epochs, h.writers_step rfl hwritten, h.once, fun h' g' hg' => ?_,
    h.calls_step rfl hframe hown, h.acked, h.issued, h.issuedLe⟩
  rcases eq_or_ne h' handle with rfl | hne
  · obtain rfl : g = g' := by simpa [Sys.setHandle, Sys.setCall] using hg'
    exact hg
  · have hkept : Function.update s.handles handle (some g) h' = some g' := hg'
    rw [Function.update_of_ne hne] at hkept
    exact h.handles h' g' hkept

theorem Holds.free {q : Request} {g : Handle} (h : Holds s c q g) :
    ∀ g₀, s.handles q.handle = some g₀ → ∀ d ≠ c, g₀.lock ≠ some d := by
  intro g₀ hg₀ d hd hlock
  obtain rfl : g = g₀ := Option.some.inj (h.1.symm.trans hg₀)
  exact hd (Option.some.inj (hlock.symm.trans h.2))

/-- The call gives its handle's lock back and returns. -/
theorem Inv.returnUnlocked {q : Request} {g : Handle} (h : Inv s) (hholds : Holds s c q g) :
    Inv (s.returnUnlocked c q.handle g) := by
  have hg := h.handles _ _ hholds.1
  exact h.setHandle ⟨hg.seq_pos, hg.seq_le, hg.lsn_pos, hg.counts⟩ hholds.free trivial fun _ => rfl

/-! ## Writing a segment -/

theorem nextSeq_of_free (h : Inv s) {handle : Nat} {g : Handle} (hg : s.handles handle = some g)
    (hfree : ¬ s.bucket.taken g.nextSeq = true) : g.nextSeq = s.log.length + 1 := by
  have hok := h.handles _ _ hg
  rw [taken_iff h.slots] at hfree
  have := hok.seq_pos
  have := hok.seq_le
  omega

/-- A put that takes effect lands right after the log's end. -/
theorem Inv.write {q : Request} {g g' : Handle} {call : Call} (h : Inv s) (hsound : Sound s q) (hholds : Holds s c q g)
    (hfree : ¬ s.bucket.taken g.nextSeq = true) (hnew : (s.calls c).written = false)
    (hg' : HandleOk (s.write c q g.nextSeq).log g') (hwritten : call.written = true)
    (hcall : CallOk ((s.write c q g.nextSeq).setHandle q.handle g') c call) :
    Inv (((s.write c q g.nextSeq).setHandle q.handle g').setCall c call) := by
  have hseq := nextSeq_of_free h hholds.1 hfree
  have hlog : s.log <+: (s.write c q g.nextSeq).log := List.prefix_append _ _
  have hmem : ∀ x ∈ (s.write c q g.nextSeq).log, x ∈ s.log ∨ x = ⟨g.nextSeq, q.items, q.epoch, c⟩ := fun x hx => by
    simpa [Sys.write] using hx
  have hframe : ∀ d ≠ c, Frame s (((s.write c q g.nextSeq).setHandle q.handle g').setCall c call) d := by
    refine fun d hd => ⟨hlog, le_rfl, fun h' g₀ hg₀ hlock => ?_⟩
    rcases eq_or_ne h' q.handle with rfl | hne
    · exact absurd hlock (hholds.free g₀ hg₀ d hd)
    · show Function.update s.handles q.handle (some g') h' = some g₀
      rw [Function.update_of_ne hne]
      exact hg₀
  have hown : CallOk (((s.write c q g.nextSeq).setHandle q.handle g').setCall c call) c call := by
    refine hcall.frame ⟨List.prefix_rfl, le_rfl, fun _ _ hg₀ _ => hg₀⟩ ?_
    show Contiguous (s.log ++ [_])
    rw [hseq]
    exact h.slots.push
  refine ⟨?_, fun x hx => ?_, fun x hx => ?_, fun x hx => ?_, ?_, fun h' g₀ hg₀ => ?_, h.calls_step rfl hframe hown,
    fun a ha => (h.acked a ha).grow hlog h.slots, h.issued, h.issuedLe⟩
  · show Contiguous (s.log ++ [_])
    rw [hseq]
    exact h.slots.push
  · rcases hmem x hx with hx | rfl
    · exact h.items x hx
    · exact hsound.1
  · rcases hmem x hx with hx | rfl
    · exact h.epochs x hx
    · exact hsound.2
  · rcases hmem x hx with hx | rfl
    · exact h.writers_step rfl (fun _ => hwritten) x hx
    · show (Function.update s.calls c call c).written = true
      rw [Function.update_self]
      exact hwritten
  · -- A call that wrote before would be settling or finished.
    have hfresh : c ∉ s.log.map Slot.call := by
      intro hc
      obtain ⟨x, hx, hxc⟩ := List.mem_map.1 hc
      have hw := h.writers x hx
      rw [hxc, hnew] at hw
      cases hw
    show ((s.log ++ [_]).map Slot.call).Nodup
    rw [List.map_append, List.map_singleton, List.nodup_append]
    refine ⟨h.once, List.nodup_singleton _, fun a ha b hb => ?_⟩
    obtain rfl := List.mem_singleton.1 hb
    rintro rfl
    exact hfresh ha
  · rcases eq_or_ne h' q.handle with rfl | hne
    · obtain rfl : g' = g₀ := by simpa [Sys.setHandle, Sys.setCall] using hg₀
      exact hg'
    · have hkept : Function.update s.handles q.handle (some g') h' = some g₀ := hg₀
      rw [Function.update_of_ne hne] at hkept
      exact (h.handles h' g₀ hkept).grow hlog

/-- The counters of a handle after its segment was written and numbered. -/
theorem Counts.push {log : List Slot} {refreshed : Bool} {lsn : Nat} (h : Counts log refreshed log.length lsn) (x : Slot) :
    Counts (log ++ [x]) refreshed (log.length + 1) (lsn + x.items.length) := by
  rw [Counts, count_push]
  rw [Counts] at h
  split_ifs at h ⊢ with hr
  · omega
  · omega

theorem Inv.put_ok {q : Request} {g : Handle} (h : Inv s) (hsound : Sound s q) (hholds : Holds s c q g)
    (hfree : ¬ s.bucket.taken g.nextSeq = true) (hnew : (s.calls c).written = false) :
    Inv (((s.write c q g.nextSeq).setHandle q.handle
      { g with nextSeq := g.nextSeq + 1, nextLsn := g.nextLsn + q.items.length }).setCall c
        (.settling q g.nextSeq (g.nextLsn + q.items.length - 1))) := by
  have hg := h.handles _ _ hholds.1
  have hseq := nextSeq_of_free h hholds.1 hfree
  have hpos := hg.lsn_pos
  have hitems : 0 < q.items.length := List.length_pos_of_ne_nil hsound.1
  have hcounts : Counts (s.write c q g.nextSeq).log g.refreshed g.nextSeq (g.nextLsn + q.items.length - 1) := by
    have hbefore := hg.counts
    rw [hseq, Nat.add_sub_cancel] at hbefore
    have hafter := hbefore.push ⟨g.nextSeq, q.items, q.epoch, c⟩
    rw [← hseq] at hafter
    have heq : g.nextLsn - 1 + q.items.length = g.nextLsn + q.items.length - 1 := by omega
    exact heq ▸ hafter
  refine h.write hsound hholds hfree hnew ⟨by simp, ?_, Nat.le_add_right_of_le hpos, ?_⟩ rfl ?_
  · simp [Sys.write, hseq]
  · show Counts _ g.refreshed (g.nextSeq + 1 - 1) (g.nextLsn + q.items.length - 1)
    rw [Nat.add_sub_cancel]
    exact hcounts
  · refine ⟨hsound, _, ⟨Function.update_self .., hholds.2⟩, ?_, hcounts⟩
    exact List.mem_append_right _ (List.mem_singleton_self _)

theorem Inv.put_lost {q : Request} {g : Handle} (h : Inv s) (hsound : Sound s q) (hholds : Holds s c q g)
    (hfree : ¬ s.bucket.taken g.nextSeq = true) (hnew : (s.calls c).written = false) :
    Inv ((s.write c q g.nextSeq).returnUnlocked c q.handle g) := by
  have hg := (h.handles _ _ hholds.1).grow (List.prefix_append s.log [⟨g.nextSeq, q.items, q.epoch, c⟩])
  exact h.write hsound hholds hfree hnew ⟨hg.seq_pos, hg.seq_le, hg.lsn_pos, hg.counts⟩ rfl trivial

/-- Refreshing `next_seq` passes over a segment that `next_lsn` has not counted. -/
theorem Inv.scan {q : Request} {g : Handle} {attempt : Nat} (h : Inv s) (hsound : Sound s q) (hholds : Holds s c q g)
    (htaken : g.nextSeq ≤ s.log.length) (hnew : (s.calls c).written = false) :
    Inv ((s.setHandle q.handle { g with nextSeq := s.bucket.scanNextSeq, refreshed := true }).setCall c
      (.rechecking q attempt)) := by
  have hg := h.handles _ _ hholds.1
  have hpos := hg.seq_pos
  have hmore : count s.log (g.nextSeq - 1) < count s.log s.log.length := count_lt h.items (by omega) le_rfl
  have hcounts := hg.counts
  refine h.setHandle ⟨by simp [Bucket.scanNextSeq], ?_, hg.lsn_pos, ?_⟩ hholds.free
    ⟨hsound, _, Function.update_self .., hholds.2⟩ ?_
  · rw [scanNextSeq_eq h.slots]
  · simp only [Counts, if_true, scanNextSeq_eq h.slots, Nat.add_sub_cancel]
    rw [Counts] at hcounts
    split_ifs at hcounts
    · omega
    · omega
  · rw [hnew]
    intro hno
    cases hno

/-! ## The lease -/

/-- A write of the lease that does not lower its epoch. -/
theorem Inv.setLease {new : Lease} (h : Inv s) (hle : s.epoch ≤ new.epoch) :
    Inv { s.setCall c .finished with lease := some new } := by
  have hframe : ∀ d, Frame s { s.setCall c .finished with lease := some new } d :=
    fun d => ⟨List.prefix_rfl, hle, fun _ _ hg _ => hg⟩
  exact ⟨h.slots, h.items, fun x hx => (h.epochs x hx).trans hle, h.writers_step rfl fun _ => rfl, h.once, h.handles,
    h.calls_step rfl (fun d _ => hframe d) trivial, h.acked, h.issued, fun e he => (h.issuedLe e he).trans hle⟩

theorem Inv.putLease {seen : Option Lease} {new : Lease} {again : Sys} {answer : Sys.PutAnswer} (h : Inv s)
    (hagain : Inv again) (hle : (seen.map Lease.epoch).getD 0 ≤ new.epoch)
    (hput : s.putLease c seen new again answer = some s') : Inv s' := by
  have hepoch : s.lease = seen → s.epoch ≤ new.epoch := by
    rintro rfl
    exact hle
  cases answer with
  | ok =>
    simp only [Sys.putLease] at hput
    split_ifs at hput with heq
    cases hput
    exact h.setLease (hepoch heq)
  | lost =>
    simp only [Sys.putLease] at hput
    split_ifs at hput with heq
    cases hput
    exact h.setLease (hepoch heq)
  | precondition =>
    simp only [Sys.putLease] at hput
    split_ifs at hput
    cases hput
    exact hagain

/-- The epoch an acquisition returns is above all returned before. -/
theorem Inv.issue {seen : Option Lease} {owner now : Nat} {again : Sys} {answer : Sys.PutAnswer} (h : Inv s)
    (hput : s.putLease c seen ⟨(seen.map Lease.epoch).getD 0 + 1, owner, now⟩ again answer = some s') (hs' : Inv s') :
    Inv (Sys.issue answer ((seen.map Lease.epoch).getD 0 + 1) s') := by
  unfold Sys.issue
  split_ifs with hok
  · subst hok
    simp only [Sys.putLease] at hput
    split_ifs at hput with heq
    cases hput
    have hepoch : s.epoch = (seen.map Lease.epoch).getD 0 := by
      rw [← heq]
      rfl
    refine ⟨hs'.slots, hs'.items, hs'.epochs, hs'.writers, hs'.once, hs'.handles, fun d => ?_, hs'.acked, ?_,
      fun e he => ?_⟩
    · exact (hs'.calls d).frame ⟨List.prefix_rfl, le_rfl, fun _ _ hg _ => hg⟩ hs'.slots
    · refine List.pairwise_append.2 ⟨h.issued, List.pairwise_singleton _ _, fun e he e' he' => ?_⟩
      obtain rfl := List.mem_singleton.1 he'
      have := h.issuedLe e he
      omega
    · rcases List.mem_append.1 he with he | he
      · exact hs'.issuedLe e he
      · obtain rfl := List.mem_singleton.1 he
        exact le_rfl
  · exact hs'

/-! ## Every step -/

theorem segmentAt_getElem (h : Contiguous s.log) {k : Nat} {x : Slot} (hx : s.log[k]? = some x) :
    s.segmentAt (k + 1) = some x.items := by
  have hseq := h.seq_getElem hx
  have hfind : s.log.find? (fun y => y.seq == k + 1) = some x := by
    rw [List.find?_eq_some_iff_getElem]
    obtain ⟨hlt, hget⟩ := List.getElem?_eq_some_iff.1 hx
    refine ⟨by simp [hseq], k, hlt, hget, fun j hj => ?_⟩
    have hj' : s.log[j]? = some s.log[j] := List.getElem?_eq_getElem (by omega)
    have := h.seq_getElem hj'
    simp only [Bool.not_eq_true', beq_eq_false_iff_ne]
    omega
  simp only [Sys.segmentAt, Sys.bucket, List.find?_map, Function.comp_def, hfind, Option.map_some]

theorem Inv.readSegment {handle : Nat} {keys : List Nat} {r : LogReplay} (h : Inv s)
    (hcall : s.calls c = .reading handle keys r) (hstep : s.readSegment c handle r keys = some s') : Inv s' := by
  have hok := h.calls c
  rw [hcall] at hok
  obtain ⟨k, hk, hkeys, rfl⟩ := hok
  have hnew : (s.calls c).written = false := by rw [hcall]; rfl
  cases keys with
  | nil =>
    cases hhandle : s.handles handle with
    | some g =>
      simp only [Sys.readSegment, hhandle] at hstep
      cases hstep
    | none =>
      simp only [Sys.readSegment, hhandle] at hstep
      cases hstep
      obtain ⟨hnext, -⟩ := replayed_lsn s.log k
      have hle : k ≤ s.log.length := by simpa using hk
      have hmax := replayed_maxSeq h.slots hle
      refine h.setHandle ⟨by simp, by simp [hmax, hle], by simp [hnext], ?_⟩ (fun g₀ hg₀ => ?_) trivial fun _ => rfl
      · simp [Counts, hmax, hnext]
      · rw [hhandle] at hg₀
        cases hg₀
  | cons key keys =>
    rw [List.length_cons] at hk hkeys
    rw [List.range'_succ] at hkeys
    obtain ⟨rfl, hrest⟩ := List.cons.inj hkeys
    have hx : s.log[k]? = some s.log[k] := List.getElem?_eq_getElem (by omega)
    simp only [Sys.readSegment, segmentAt_getElem h.slots hx] at hstep
    cases hstep
    refine h.setCall ⟨k + 1, by omega, by rw [← hrest], ?_⟩ fun hw => ?_
    · rw [replayed_succ hx, h.slots.seq_getElem hx]
    · rw [hnew] at hw
      cases hw

theorem Inv.list (h : Inv s) (hstep : s.list c = some s') : Inv s' := by
  unfold Sys.list at hstep
  split at hstep
  · rename_i handle hcall
    cases hstep
    have hlog : s.bucket.sortedLog.map (·.1) = List.range' 1 s.log.length := by
      rw [sortedLog_of_slots (bucket_slots h.slots), map_fst_bucket]
      exact h.slots
    refine h.setCall ⟨0, by simp [hlog], by simp [hlog], rfl⟩ fun hw => ?_
    rw [hcall] at hw
    cases hw
  · rename_i q attempt hcall
    have hok := h.calls c
    rw [hcall] at hok
    obtain ⟨hsound, g, hholds, htaken⟩ := hok
    rw [hholds.1] at hstep
    cases hstep
    exact h.scan hsound hholds htaken (by rw [hcall]; rfl)
  · cases hstep

theorem Inv.recheck {q : Request} {g : Handle} {retries attempt : Nat} (h : Inv s) (hsound : Sound s q)
    (hholds : Holds s c q g) (hnew : (s.calls c).written = false) : Inv (s.recheck c q retries attempt g) := by
  unfold Sys.recheck
  split_ifs
  · exact h.returnUnlocked hholds
  · exact h.returnUnlocked hholds
  · refine h.setCall ⟨hsound, g, hholds⟩ fun hw => ?_
    rw [hnew] at hw
    cases hw

theorem Inv.get {retries : Nat} (h : Inv s) (hstep : s.get retries c = some s') : Inv s' := by
  have hok := h.calls c
  unfold Sys.get at hstep
  split at hstep
  · rename_i handle keys r hcall
    exact h.readSegment hcall hstep
  · rename_i owner attempt hcall
    cases hstep
    exact h.setCall trivial fun hw => by rw [hcall] at hw; cases hw
  · rename_i token attempt hcall
    cases hstep
    split_ifs with hepoch
    · exact h.setCall trivial fun _ => rfl
    · exact h.setCall (not_not.1 hepoch).symm fun hw => by rw [hcall] at hw; cases hw
  · rename_i token hcall
    cases hstep
    split_ifs with hepoch
    · exact h.setCall trivial fun _ => rfl
    · cases hlease : s.lease with
      | none => exact h.setCall trivial fun _ => rfl
      | some seen =>
        refine h.setCall ?_ fun hw => by rw [hcall] at hw; cases hw
        have hread : s.bucket.durableEpoch = seen.epoch := by simp [Sys.bucket, Bucket.durableEpoch, hlease]
        exact (hread.symm.trans (not_not.1 hepoch).symm)
  · rename_i q hcall
    rw [hcall] at hok
    cases hstep
    split_ifs with hepoch
    · exact h.setCall trivial fun _ => rfl
    · exact h.setCall ⟨hok, (not_not.1 hepoch).le⟩ fun hw => by rw [hcall] at hw; cases hw
  · rename_i q attempt hcall
    rw [hcall] at hok
    obtain ⟨hsound, g, hholds⟩ := hok
    rw [hholds.1] at hstep
    cases hstep
    exact h.recheck hsound hholds (by rw [hcall]; rfl)
  · cases hstep

theorem Inv.retry (h : Inv s) (retries attempt : Nat) (again : Nat → Call) (hagain : ∀ n, CallOk s c (again n))
    (hnew : (s.calls c).written = false) : Inv (s.retry c retries attempt again) := by
  unfold Sys.retry
  split_ifs
  · exact h.setCall trivial fun _ => rfl
  · refine h.setCall (hagain _) fun hw => ?_
    rw [hnew] at hw
    cases hw

theorem Inv.putSegment {q : Request} {attempt : Nat} {g : Handle} {answer : Sys.PutAnswer} (h : Inv s)
    (hsound : Sound s q) (hholds : Holds s c q g) (hnew : (s.calls c).written = false)
    (hstep : s.putSegment c q attempt g answer = some s') : Inv s' := by
  cases answer with
  | ok =>
    simp only [Sys.putSegment] at hstep
    split_ifs at hstep with hfree
    cases hstep
    exact h.put_ok hsound hholds hfree hnew
  | lost =>
    simp only [Sys.putSegment] at hstep
    split_ifs at hstep with hfree
    cases hstep
    exact h.put_lost hsound hholds hfree hnew
  | precondition =>
    simp only [Sys.putSegment] at hstep
    split_ifs at hstep with htaken
    cases hstep
    refine h.setCall ⟨hsound, g, hholds, ((taken_iff h.slots).1 htaken).2⟩ fun hw => ?_
    rw [hnew] at hw
    cases hw

theorem Inv.put {retries now : Nat} {answer : Sys.PutAnswer} (h : Inv s)
    (hstep : s.put retries c now answer = some s') : Inv s' := by
  have hok := h.calls c
  unfold Sys.put at hstep
  split at hstep
  · rename_i owner attempt seen hcall
    obtain ⟨t, ht, rfl⟩ := Option.map_eq_some_iff.1 hstep
    have hretry := h.retry (c := c) retries attempt (.acquireReading owner)
      (fun _ => trivial) (by rw [hcall]; rfl)
    exact h.issue ht (h.putLease hretry (Nat.le_succ _) ht)
  · rename_i token attempt seen hcall
    rw [hcall] at hok
    have hretry := h.retry (c := c) retries attempt (.renewReading token)
      (fun _ => trivial) (by rw [hcall]; rfl)
    have hle : (seen.map Lease.epoch).getD 0 ≤ token.epoch := le_of_eq hok
    exact h.putLease hretry hle hstep
  · rename_i token seen hcall
    rw [hcall] at hok
    have hle : ((some seen).map Lease.epoch).getD 0 ≤ token.epoch := le_of_eq hok
    have hdone : Inv (s.setCall c .finished) := h.setCall trivial fun _ => rfl
    exact h.putLease hdone hle hstep
  · rename_i q attempt hcall
    rw [hcall] at hok
    obtain ⟨hsound, g, hholds⟩ := hok
    rw [hholds.1] at hstep
    exact h.putSegment hsound hholds (by rw [hcall]; rfl) hstep
  · cases hstep

theorem Inv.fail (h : Inv s) (hstep : s.fail c = some s') : Inv s' := by
  have hok := h.calls c
  unfold Sys.fail at hstep
  split at hstep
  case h_5 q _ hcall =>
    rw [hcall] at hok
    obtain ⟨-, g, hholds⟩ := hok
    rw [hholds.1] at hstep
    cases hstep
    exact h.returnUnlocked hholds
  case h_6 q _ hcall =>
    rw [hcall] at hok
    obtain ⟨-, g, hholds, -⟩ := hok
    rw [hholds.1] at hstep
    cases hstep
    exact h.returnUnlocked hholds
  case h_7 q _ hcall =>
    rw [hcall] at hok
    obtain ⟨-, g, hholds⟩ := hok
    rw [hholds.1] at hstep
    cases hstep
    exact h.returnUnlocked hholds
  case h_8 =>
    cases hstep
    exact h.setCall trivial fun _ => rfl
  all_goals cases hstep

theorem Inv.lock (h : Inv s) (hstep : s.lock c = some s') : Inv s' := by
  have hok := h.calls c
  unfold Sys.lock at hstep
  split at hstep
  · rename_i q hcall
    rw [hcall] at hok
    obtain ⟨g, hg, hstep⟩ := Option.bind_eq_some_iff.1 hstep
    split_ifs at hstep with hlocked
    cases hstep
    have hgok := h.handles _ _ hg
    refine h.setHandle ⟨hgok.seq_pos, hgok.seq_le, hgok.lsn_pos, hgok.counts⟩ (fun g₀ hg₀ d _ hd => ?_)
      ⟨hok, _, Function.update_self .., rfl⟩ fun hw => by rw [hcall] at hw; cases hw
    obtain rfl : g = g₀ := Option.some.inj (hg.symm.trans hg₀)
    rw [hd] at hlocked
    exact hlocked rfl
  · cases hstep

theorem Inv.settle {q : Request} {seq last : Nat} {g : Handle} {flushed : Bool} (h : Inv s)
    (hholds : Holds s c q g) (hmem : ⟨seq, q.items, q.epoch, c⟩ ∈ s.log) (hcounts : Counts s.log g.refreshed seq last) :
    Inv (s.settle c q seq last g flushed) := by
  have hret := h.returnUnlocked hholds
  unfold Sys.settle
  split_ifs
  · refine ⟨hret.slots, hret.items, hret.epochs, hret.writers, hret.once, hret.handles, fun d => ?_, fun a ha => ?_,
      hret.issued, hret.issuedLe⟩
    · exact (hret.calls d).frame ⟨List.prefix_rfl, le_rfl, fun _ _ hg _ => hg⟩ hret.slots
    · rcases List.mem_append.1 ha with ha | ha
      · exact hret.acked a ha
      · obtain rfl := List.mem_singleton.1 ha
        exact ⟨_, hmem, rfl, rfl, rfl, hcounts⟩
  · exact hret

theorem Inv.begin {q : Request} (h : Inv s) (hitems : q.items ≠ []) (hstep : s.begin c q = some s') : Inv s' := by
  unfold Sys.begin at hstep
  split at hstep
  · rename_i g hcall hg
    cases hstep
    exact h.setCall hitems fun hw => by rw [hcall] at hw; cases hw
  · cases hstep

/-- A call begins. -/
theorem Inv.start {call : Call} (h : Inv s) (hcall : CallOk s c call) (hunborn : s.calls c = .unborn) :
    Inv (s.setCall c call) :=
  h.setCall hcall fun hw => by rw [hunborn] at hw; cases hw

theorem Inv.step {retries : Nat} {a : Act} (h : Inv s) (hstep : step retries s a = some s') : Inv s' := by
  cases a with
  | withStore c handle =>
    cases hcall : s.calls c <;> simp only [ObjectLog.step, hcall] at hstep <;> cases hstep
    exact h.start trivial hcall
  | acquireFence c owner =>
    cases hcall : s.calls c <;> simp only [ObjectLog.step, hcall] at hstep <;> cases hstep
    exact h.start trivial hcall
  | renewFence c token =>
    cases hcall : s.calls c <;> simp only [ObjectLog.step, hcall] at hstep <;> cases hstep
    exact h.start trivial hcall
  | releaseFence c token =>
    cases hcall : s.calls c <;> simp only [ObjectLog.step, hcall] at hstep <;> cases hstep
    exact h.start trivial hcall
  | appendWal c handle token records =>
    simp only [ObjectLog.step] at hstep
    split_ifs at hstep with hempty
    exact h.begin (by simpa using hempty) hstep
  | putPage c handle token pageId image =>
    simp only [ObjectLog.step] at hstep
    split_ifs at hstep
    exact h.begin (by simp) hstep
  | list c => exact h.list hstep
  | get c => exact h.get hstep
  | put c now answer => exact h.put hstep
  | fail c => exact h.fail hstep
  | lock c => exact h.lock hstep
  | settle c flushed =>
    have hok := h.calls c
    cases hcall : s.calls c <;> simp only [ObjectLog.step, hcall] at hstep <;> try cases hstep
    rw [hcall] at hok
    obtain ⟨-, g, hholds, hmem, hcounts⟩ := hok
    rw [hholds.1] at hstep
    cases hstep
    exact h.settle hholds hmem hcounts

theorem Inv.init : Inv .init := by
  refine ⟨rfl, fun x hx => ?_, fun x hx => ?_, fun x hx => ?_, .nil, fun h g hg => ?_, fun c => trivial, fun a ha => ?_,
    .nil, fun e he => ?_⟩
  · cases hx
  · cases hx
  · cases hx
  · cases hg
  · cases ha
  · cases he

end Twill.Storage.ObjectLog
