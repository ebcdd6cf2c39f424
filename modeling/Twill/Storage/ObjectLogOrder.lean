/-
What the appends of several handles on one bucket guarantee over every
interleaving of their object-store steps: the LSNs they answer against those of
a replay, the epochs of the lease, and the order of epochs along the log.
-/
import Twill.Storage.ObjectLogInvariant

namespace Twill.Storage.ObjectLog

open Object (LogItem Segment Bucket LogReplay replaySegment scanWal sortedLog_of_slots)
open Transition (Reach RunWhere reach_of_play)

variable {retries : Nat} {s s' : Sys} {c : Nat}

theorem inv_of_reach (hreach : Reach (step retries) .init s) : Inv s :=
  hreach.invariant (I := Inv) .init fun _ _ _ hinv _ hstep => hinv.step hstep

/-! ## LSN agreement -/

/-- The LSN a replay of the log gives to the last item of a slot. -/
def Sys.replayedLsn (s : Sys) (seq : Nat) : Nat :=
  ((s.bucket.sortedLog.filter (·.1 ≤ seq)).foldl (replaySegment 0) ⟨0, 1, 0, 0, [], 0⟩).durableLsn

/-- Every acked LSN is the replay's, the ranges of acked appends ascend with their
slots, and the scan of the log finds the last record of each there. -/
structure Agrees (s : Sys) : Prop where
  lsns : ∀ a ∈ s.acked, a.lsn = s.replayedLsn a.seq
  ranges : ∀ a ∈ s.acked, ∀ b ∈ s.acked, a.seq < b.seq → a.lsn + b.len ≤ b.lsn
  scanned : ∀ a ∈ s.acked, ∀ x ∈ s.log, x.seq = a.seq → ∀ bytes, x.items.getLast? = some (.wal bytes) →
    ⟨a.lsn, bytes⟩ ∈ scanWal s.bucket 0

/-- The slots up to `k` are the first `k`. -/
theorem filter_seq_le : ∀ (log : List Slot) (start k : Nat), log.map Slot.seq = List.range' (start + 1) log.length →
    log.filter (fun x => x.seq ≤ start + k) = log.take k
  | [], _, _, _ => by simp
  | x :: log, start, k, hseqs => by
    rw [List.map_cons, List.length_cons, List.range'_succ] at hseqs
    obtain ⟨hx, hrest⟩ := List.cons.inj hseqs
    cases k with
    | zero =>
      rw [List.take_zero, List.filter_eq_nil_iff]
      intro y hy
      have hseq : y.seq ∈ List.range' (start + 1) (log.length + 1) := by
        rw [List.range'_succ, ← hseqs, ← List.map_cons]
        exact List.mem_map_of_mem hy
      rw [List.mem_range'_1] at hseq
      simp only [decide_eq_true_eq]
      omega
    | succ k =>
      have ih := filter_seq_le log (start + 1) k hrest
      rw [List.filter_cons_of_pos (by simp only [decide_eq_true_eq]; omega), List.take_succ_cons, ← ih,
        Nat.add_assoc, Nat.add_comm 1 k]

theorem replayedLsn_eq (h : Contiguous s.log) (seq : Nat) : s.replayedLsn seq = count s.log seq := by
  have hfilter : s.bucket.log.filter (·.1 ≤ seq) = (s.log.take seq).map fun x => (x.seq, x.items) := by
    have hseqs : s.log.map Slot.seq = List.range' (0 + 1) s.log.length := h
    rw [Sys.bucket, List.filter_map, ← filter_seq_le s.log 0 seq hseqs, Nat.zero_add]
    rfl
  rw [Sys.replayedLsn, sortedLog_of_slots (bucket_slots h), hfilter]
  exact (replayed_lsn s.log seq).2

/-- The last record of a slot, where the scan finds it. -/
theorem mem_scanWal (h : Contiguous s.log) {x : Slot} (hx : x ∈ s.log) {bytes : Bytes}
    (hlast : x.items.getLast? = some (.wal bytes)) : ⟨count s.log x.seq, bytes⟩ ∈ scanWal s.bucket 0 := by
  obtain ⟨hpos, -, hget⟩ := h.mem hx
  have hsucc := count_succ hget
  rw [Nat.sub_add_cancel hpos] at hsucc
  obtain ⟨hlt, hx'⟩ := List.getElem?_eq_some_iff.1 hget
  have hsplit : s.log = s.log.take (x.seq - 1) ++ x :: s.log.drop x.seq := by
    have := List.drop_eq_getElem_cons hlt
    rw [hx', Nat.sub_add_cancel hpos] at this
    rw [← this, List.take_append_drop]
  have hitems : s.bucket.sortedLog.flatMap (·.2) = s.log.flatMap Slot.items := by
    rw [sortedLog_of_slots (bucket_slots h), Sys.bucket, List.flatMap_map]
  have hlen : ((s.log.take (x.seq - 1)).flatMap Slot.items).length = count s.log (x.seq - 1) := by
    rw [List.length_flatMap]
    rfl
  have hne : x.items ≠ [] := by
    rintro hnil
    rw [hnil] at hlast
    cases hlast
  have hlenpos : 0 < x.items.length := List.length_pos_of_ne_nil hne
  -- The last item of the slot is the last of the first `x.seq` slots.
  have hat : (s.log.flatMap Slot.items)[count s.log x.seq - 1]? = some (.wal bytes) := by
    rw [hsplit, List.flatMap_append, List.flatMap_cons]
    rw [List.getElem?_append_right (by rw [hlen, ← hsplit]; omega), hlen, ← hsplit,
      List.getElem?_append_left (by omega), ← hlast, List.getLast?_eq_getElem?]
    congr 1
    omega
  refine List.mem_filterMap.2 ⟨(.wal bytes, count s.log x.seq), ?_, ?_⟩
  · rw [hitems, List.mk_mem_zipIdx_iff_le_and_getElem?_sub]
    exact ⟨by omega, hat⟩
  · exact if_pos (by omega)

theorem count_add_le {log : List Slot} (h : Contiguous log) {x : Slot} (hx : x ∈ log) {seq : Nat} (hlt : seq < x.seq) :
    count log seq + x.items.length ≤ count log x.seq := by
  obtain ⟨hpos, -, hget⟩ := h.mem hx
  have hsucc := count_succ hget
  rw [Nat.sub_add_cancel hpos] at hsucc
  have hmono : count log seq ≤ count log (x.seq - 1) := count_mono (by omega)
  omega

/-- **LSN agreement.** In every state that any interleaving reaches, the acked LSNs
agree with a replay of the log exactly when no append was acked by a handle whose
`next_seq` had been refreshed. -/
theorem agrees_iff (retries : Nat) (s : Sys) (hreach : Reach (step retries) .init s) :
    Agrees s ↔ ∀ a ∈ s.acked, a.refreshed = false := by
  have h := inv_of_reach hreach
  constructor
  · intro hagrees a ha
    obtain ⟨x, hx, hseq, -, -, hcounts⟩ := h.acked a ha
    by_contra hrefreshed
    rw [Bool.not_eq_false] at hrefreshed
    rw [Counts, if_pos hrefreshed] at hcounts
    have := hagrees.lsns a ha
    rw [replayedLsn_eq h.slots] at this
    omega
  · intro hfresh
    have hlsn : ∀ a ∈ s.acked, a.lsn = count s.log a.seq := by
      intro a ha
      obtain ⟨x, hx, hseq, -, -, hcounts⟩ := h.acked a ha
      rw [Counts, hfresh a ha, if_neg (by simp)] at hcounts
      exact hcounts
    refine ⟨fun a ha => ?_, fun a ha b hb hlt => ?_, fun a ha x hx hseq bytes hlast => ?_⟩
    · rw [replayedLsn_eq h.slots, hlsn a ha]
    · obtain ⟨y, hy, hseq, -, hlen, -⟩ := h.acked b hb
      rw [hlsn a ha, hlsn b hb, ← hlen, ← hseq]
      exact count_add_le h.slots hy (by omega)
    · rw [hlsn a ha, ← hseq]
      exact mem_scanWal h.slots hx hlast

/-- One handle opens, takes the lease and appends a record. -/
def firstAppend : List Act :=
  [.withStore 0 0, .list 0, .get 0, .acquireFence 1 7, .get 1, .put 1 0 .ok,
    .appendWal 2 0 ⟨1, 7⟩ [[1]], .get 2, .lock 2]

theorem agrees_first_append : ∃ s, Reach (step 8) .init s ∧ s.acked = [⟨2, 1, 1, 1, false⟩] ∧ Agrees s := by
  have hreach : Reach (step 8) .init _ :=
    reach_of_play .nil (firstAppend ++ [.put 2 0 .ok, .settle 2 true]) rfl
  exact ⟨_, hreach, rfl, (agrees_iff 8 _ hreach).2 (by decide)⟩

/-- A put whose answer is lost, then the next append of the handle: it finds its slot
taken, moves on to the next one, and answers the LSN of the lost one. -/
theorem disagrees_after_lost_put : ∃ s, Reach (step 8) .init s ∧ s.acked = [⟨3, 2, 1, 1, true⟩] ∧
    s.replayedLsn 2 = 2 ∧ ¬ Agrees s := by
  have hreach : Reach (step 8) .init _ := reach_of_play .nil (firstAppend ++
    [.put 2 0 .lost, .appendWal 3 0 ⟨1, 7⟩ [[2]], .get 3, .lock 3, .put 3 0 .precondition, .list 3, .get 3, .put 3 0 .ok,
      .settle 3 true]) rfl
  refine ⟨_, hreach, rfl, rfl, fun hagrees => ?_⟩
  have := hagrees.lsns ⟨3, 2, 1, 1, true⟩ (List.mem_singleton_self _)
  revert this
  decide

/-! ## What a step does to the log and the lease -/

/-- How a call comes to put its segment: it takes its handle's lock, or it has seen
its own epoch in the lease since `next_seq` was refreshed. -/
def Enters (s s' : Sys) (a : Act) (c : Nat) (q : Request) : Prop :=
  s'.log = s.log ∧ ∃ g, s'.handles q.handle = some g ∧
    ((a = .lock c ∧ s.calls c = .checked q ∧ ∃ g₀, s.handles q.handle = some g₀ ∧ g.nextSeq = g₀.nextSeq) ∨
      q.epoch = s.epoch)

/-- A segment put at the log's end by a call that stood before its put. -/
def Puts (s s' : Sys) (c : Nat) : Prop :=
  ∃ q n g, s.calls c = .putting q n ∧ s.handles q.handle = some g ∧ ¬ s.bucket.taken g.nextSeq = true ∧
    s'.log = s.log ++ [⟨g.nextSeq, q.items, q.epoch, c⟩]

/-- One call moves, and the others keep what they rely on. -/
structure Stepped (s s' : Sys) (a : Act) (c : Nat) (call : Call) : Prop where
  calls : s'.calls = Function.update s.calls c call
  frame : ∀ d ≠ c, Frame s s' d
  log : s'.log = s.log ∨ Puts s s' c
  putting : ∀ q n, call = .putting q n → Enters s s' a c q

theorem Stepped.setCall (s : Sys) (a : Act) (c : Nat) {call : Call} (hno : ∀ q n, call ≠ .putting q n) :
    Stepped s (s.setCall c call) a c call :=
  ⟨rfl, fun _ _ => ⟨List.prefix_rfl, le_rfl, fun _ _ hg _ => hg⟩, .inl rfl, fun q n heq => absurd heq (hno q n)⟩

theorem Stepped.setHandle {a : Act} {call : Call} {handle : Nat} {g : Handle}
    (hfree : ∀ g₀, s.handles handle = some g₀ → ∀ d ≠ c, g₀.lock ≠ some d)
    (hputting : ∀ q n, call = .putting q n → Enters s ((s.setHandle handle g).setCall c call) a c q) :
    Stepped s ((s.setHandle handle g).setCall c call) a c call := by
  refine ⟨rfl, fun d hd => ⟨List.prefix_rfl, le_rfl, fun h' g' hg' hlock => ?_⟩, .inl rfl, hputting⟩
  rcases eq_or_ne h' handle with rfl | hne
  · exact absurd hlock (hfree g' hg' d hd)
  · show Function.update s.handles handle (some g) h' = some g'
    rw [Function.update_of_ne hne]
    exact hg'

theorem Stepped.returnUnlocked {a : Act} {q : Request} {g : Handle} (hholds : Holds s c q g) :
    Stepped s (s.returnUnlocked c q.handle g) a c .finished :=
  .setHandle hholds.free (by rintro _ _ ⟨⟩)

theorem Stepped.write {a : Act} {q : Request} {n : Nat} {g g' : Handle} {call : Call} (hcall : s.calls c = .putting q n)
    (hholds : Holds s c q g) (hfree : ¬ s.bucket.taken g.nextSeq = true) (hno : ∀ q n, call ≠ .putting q n) :
    Stepped s (((s.write c q g.nextSeq).setHandle q.handle g').setCall c call) a c call := by
  refine ⟨rfl, fun d hd => ⟨List.prefix_append _ _, le_rfl, fun h' g₀ hg₀ hlock => ?_⟩,
    .inr ⟨q, n, g, hcall, hholds.1, hfree, rfl⟩, fun q n heq => absurd heq (hno q n)⟩
  rcases eq_or_ne h' q.handle with rfl | hne
  · exact absurd hlock (hholds.free g₀ hg₀ d hd)
  · show Function.update s.handles q.handle (some g') h' = some g₀
    rw [Function.update_of_ne hne]
    exact hg₀

theorem Stepped.putLease {a : Act} {seen : Option Lease} {new : Lease} {again : Sys} {call : Call}
    {answer : Sys.PutAnswer} (hagain : Stepped s again a c call) (hle : (seen.map Lease.epoch).getD 0 ≤ new.epoch)
    (hput : s.putLease c seen new again answer = some s') : ∃ call', Stepped s s' a c call' := by
  have hwrite : s.lease = seen → ∃ call', Stepped s { s.setCall c .finished with lease := some new } a c call' := by
    rintro rfl
    refine ⟨.finished, rfl, fun d hd => ⟨List.prefix_rfl, hle, fun _ _ hg _ => hg⟩, .inl rfl, fun _ _ heq => ?_⟩
    cases heq
  cases answer with
  | ok =>
    simp only [Sys.putLease] at hput
    split_ifs at hput with heq
    cases hput
    exact hwrite heq
  | lost =>
    simp only [Sys.putLease] at hput
    split_ifs at hput with heq
    cases hput
    exact hwrite heq
  | precondition =>
    simp only [Sys.putLease] at hput
    split_ifs at hput
    cases hput
    exact ⟨call, hagain⟩

theorem Stepped.retry {a : Act} {attempt : Nat} {again : Nat → Call} (hno : ∀ m q n, again m ≠ .putting q n) :
    ∃ call, Stepped s (s.retry c retries attempt again) a c call := by
  unfold Sys.retry
  split_ifs
  · exact ⟨_, .setCall s a c (by rintro _ _ ⟨⟩)⟩
  · exact ⟨_, .setCall s a c (hno _)⟩

/-- Only the lists of acks and of issued epochs differ. -/
theorem Stepped.record {a : Act} {call : Call} (h : Stepped s s' a c call) (issued : List Nat) (acked : List Ack) :
    Stepped s { s' with issued := issued, acked := acked } a c call :=
  ⟨h.calls, fun d hd => ⟨(h.frame d hd).1, (h.frame d hd).2, (h.frame d hd).3⟩, h.log, h.putting⟩

theorem stepped_list {a : Act} (h : Inv s) (hstep : s.list c = some s') : ∃ call, Stepped s s' a c call := by
  have hok := h.calls c
  unfold Sys.list at hstep
  split at hstep
  · cases hstep
    exact ⟨_, .setCall s a c (by rintro _ _ ⟨⟩)⟩
  · rename_i q attempt hcall
    rw [hcall] at hok
    obtain ⟨-, g, hholds, -⟩ := hok
    rw [hholds.1] at hstep
    cases hstep
    exact ⟨_, .setHandle hholds.free (by rintro _ _ ⟨⟩)⟩
  · cases hstep

theorem stepped_readSegment {a : Act} {handle : Nat} {keys : List Nat} {r : LogReplay}
    (hstep : s.readSegment c handle r keys = some s') : ∃ call, Stepped s s' a c call := by
  cases keys with
  | nil =>
    cases hhandle : s.handles handle with
    | some g =>
      simp only [Sys.readSegment, hhandle] at hstep
      cases hstep
    | none =>
      simp only [Sys.readSegment, hhandle] at hstep
      cases hstep
      refine ⟨_, .setHandle (fun g₀ hg₀ => ?_) (by rintro _ _ ⟨⟩)⟩
      rw [hhandle] at hg₀
      cases hg₀
  | cons key keys =>
    cases hsegment : s.segmentAt key with
    | none =>
      simp only [Sys.readSegment, hsegment] at hstep
      cases hstep
      exact ⟨_, .setCall s a c (by rintro _ _ ⟨⟩)⟩
    | some items =>
      simp only [Sys.readSegment, hsegment] at hstep
      cases hstep
      exact ⟨_, .setCall s a c (by rintro _ _ ⟨⟩)⟩

theorem stepped_get {a : Act} (h : Inv s) (hstep : s.get retries c = some s') : ∃ call, Stepped s s' a c call := by
  have hok := h.calls c
  unfold Sys.get at hstep
  split at hstep
  · exact stepped_readSegment hstep
  · cases hstep
    exact ⟨_, .setCall s a c (by rintro _ _ ⟨⟩)⟩
  · cases hstep
    split_ifs
    · exact ⟨_, .setCall s a c (by rintro _ _ ⟨⟩)⟩
    · exact ⟨_, .setCall s a c (by rintro _ _ ⟨⟩)⟩
  · cases hstep
    split_ifs
    · exact ⟨_, .setCall s a c (by rintro _ _ ⟨⟩)⟩
    · cases s.lease with
      | none => exact ⟨_, .setCall s a c (by rintro _ _ ⟨⟩)⟩
      | some seen => exact ⟨_, .setCall s a c (by rintro _ _ ⟨⟩)⟩
  · cases hstep
    split_ifs
    · exact ⟨_, .setCall s a c (by rintro _ _ ⟨⟩)⟩
    · exact ⟨_, .setCall s a c (by rintro _ _ ⟨⟩)⟩
  · rename_i q attempt hcall
    rw [hcall] at hok
    obtain ⟨-, g, hholds⟩ := hok
    rw [hholds.1] at hstep
    cases hstep
    unfold Sys.recheck
    split_ifs with hepoch
    · exact ⟨_, .returnUnlocked hholds⟩
    · exact ⟨_, .returnUnlocked hholds⟩
    · refine ⟨_, rfl, fun _ _ => ⟨List.prefix_rfl, le_rfl, fun _ _ hg _ => hg⟩, .inl rfl, fun q' n heq => ?_⟩
      obtain ⟨rfl, -⟩ := Call.putting.inj heq
      exact ⟨rfl, g, hholds.1, .inr (not_not.1 hepoch)⟩
  · cases hstep

theorem stepped_put {a : Act} {now : Nat} {answer : Sys.PutAnswer} (h : Inv s)
    (hstep : s.put retries c now answer = some s') : ∃ call, Stepped s s' a c call := by
  have hok := h.calls c
  unfold Sys.put at hstep
  split at hstep
  · rename_i owner attempt seen hcall
    obtain ⟨t, ht, rfl⟩ := Option.map_eq_some_iff.1 hstep
    obtain ⟨call, hretry⟩ : ∃ call, Stepped s (s.retry c retries attempt (.acquireReading owner)) a c call :=
      Stepped.retry (by rintro _ _ _ ⟨⟩)
    obtain ⟨call', hput⟩ := hretry.putLease (Nat.le_succ _) ht
    refine ⟨call', ?_⟩
    unfold Sys.issue
    split_ifs
    · exact hput.record _ _
    · exact hput
  · rename_i token attempt seen hcall
    rw [hcall] at hok
    have hle : (seen.map Lease.epoch).getD 0 ≤ token.epoch := le_of_eq hok
    obtain ⟨call, hretry⟩ : ∃ call, Stepped s (s.retry c retries attempt (.renewReading token)) a c call :=
      Stepped.retry (by rintro _ _ _ ⟨⟩)
    exact hretry.putLease hle hstep
  · rename_i token seen hcall
    rw [hcall] at hok
    have hle : ((some seen).map Lease.epoch).getD 0 ≤ token.epoch := le_of_eq hok
    have hdone : Stepped s (s.setCall c .finished) a c .finished := .setCall s a c (by rintro _ _ ⟨⟩)
    exact hdone.putLease hle hstep
  · rename_i q attempt hcall
    rw [hcall] at hok
    obtain ⟨-, g, hholds⟩ := hok
    rw [hholds.1] at hstep
    simp only [Option.bind_some] at hstep
    cases answer with
    | ok =>
      simp only [Sys.putSegment] at hstep
      split_ifs at hstep with hfree
      cases hstep
      exact ⟨_, .write hcall hholds hfree (by rintro _ _ ⟨⟩)⟩
    | lost =>
      simp only [Sys.putSegment] at hstep
      split_ifs at hstep with hfree
      cases hstep
      exact ⟨.finished, .write hcall hholds hfree (by rintro _ _ ⟨⟩)⟩
    | precondition =>
      simp only [Sys.putSegment] at hstep
      split_ifs at hstep
      cases hstep
      exact ⟨_, .setCall s a c (by rintro _ _ ⟨⟩)⟩
  · cases hstep

theorem stepped_fail {a : Act} (h : Inv s) (hstep : s.fail c = some s') : ∃ call, Stepped s s' a c call := by
  have hok := h.calls c
  unfold Sys.fail at hstep
  split at hstep
  case h_5 q _ hcall =>
    rw [hcall] at hok
    obtain ⟨-, g, hholds⟩ := hok
    rw [hholds.1] at hstep
    cases hstep
    exact ⟨_, .returnUnlocked hholds⟩
  case h_6 q _ hcall =>
    rw [hcall] at hok
    obtain ⟨-, g, hholds, -⟩ := hok
    rw [hholds.1] at hstep
    cases hstep
    exact ⟨_, .returnUnlocked hholds⟩
  case h_7 q _ hcall =>
    rw [hcall] at hok
    obtain ⟨-, g, hholds⟩ := hok
    rw [hholds.1] at hstep
    cases hstep
    exact ⟨_, .returnUnlocked hholds⟩
  case h_8 =>
    cases hstep
    exact ⟨_, .setCall s a c (by rintro _ _ ⟨⟩)⟩
  all_goals cases hstep

theorem stepped_begin {a : Act} {q : Request} (hstep : s.begin c q = some s') : ∃ call, Stepped s s' a c call := by
  unfold Sys.begin at hstep
  split at hstep
  · cases hstep
    exact ⟨_, .setCall s a c (by rintro _ _ ⟨⟩)⟩
  · cases hstep

/-- What any step does, said once. -/
theorem stepped (h : Inv s) {a : Act} (hstep : step retries s a = some s') : ∃ c call, Stepped s s' a c call := by
  cases a with
  | withStore c handle =>
    cases hcall : s.calls c <;> simp only [step, hcall] at hstep <;> cases hstep
    exact ⟨c, _, .setCall s _ c (by rintro _ _ ⟨⟩)⟩
  | acquireFence c owner =>
    cases hcall : s.calls c <;> simp only [step, hcall] at hstep <;> cases hstep
    exact ⟨c, _, .setCall s _ c (by rintro _ _ ⟨⟩)⟩
  | renewFence c token =>
    cases hcall : s.calls c <;> simp only [step, hcall] at hstep <;> cases hstep
    exact ⟨c, _, .setCall s _ c (by rintro _ _ ⟨⟩)⟩
  | releaseFence c token =>
    cases hcall : s.calls c <;> simp only [step, hcall] at hstep <;> cases hstep
    exact ⟨c, _, .setCall s _ c (by rintro _ _ ⟨⟩)⟩
  | appendWal c handle token records =>
    simp only [step] at hstep
    split_ifs at hstep
    exact ⟨c, stepped_begin hstep⟩
  | putPage c handle token pageId image =>
    simp only [step] at hstep
    split_ifs at hstep
    exact ⟨c, stepped_begin hstep⟩
  | list c => exact ⟨c, stepped_list h hstep⟩
  | get c => exact ⟨c, stepped_get h hstep⟩
  | put c now answer => exact ⟨c, stepped_put h hstep⟩
  | fail c => exact ⟨c, stepped_fail h hstep⟩
  | lock c =>
    simp only [step, Sys.lock] at hstep
    split at hstep
    · rename_i q hcall
      obtain ⟨g, hg, hstep⟩ := Option.bind_eq_some_iff.1 hstep
      split_ifs at hstep with hlocked
      cases hstep
      refine ⟨c, _, .setHandle (fun g₀ hg₀ d _ hd => ?_) fun q' n heq => ?_⟩
      · obtain rfl : g = g₀ := Option.some.inj (hg.symm.trans hg₀)
        rw [hd] at hlocked
        exact hlocked rfl
      · obtain ⟨rfl, -⟩ := Call.putting.inj heq
        exact ⟨rfl, _, Function.update_self .., .inl ⟨rfl, hcall, g, hg, rfl⟩⟩
    · cases hstep
  | settle c flushed =>
    have hok := h.calls c
    cases hcall : s.calls c <;> simp only [step, hcall] at hstep <;> try cases hstep
    rw [hcall] at hok
    obtain ⟨-, g, hholds, -⟩ := hok
    rw [hholds.1] at hstep
    cases hstep
    refine ⟨c, .finished, ?_⟩
    have hreturn := Stepped.returnUnlocked (a := .settle c flushed) hholds
    unfold Sys.settle
    split_ifs
    · exact hreturn.record _ _
    · exact hreturn

/-! ## The order of epochs -/

theorem Stepped.grows {a : Act} {call : Call} (h : Stepped s s' a c call) : s.log <+: s'.log ∧ s.epoch ≤ s'.epoch := by
  have hframe := h.frame (c + 1) (by omega)
  exact ⟨hframe.log, hframe.epoch⟩

theorem reach_grows (h : Inv s) (hreach : Reach (step retries) s s') : s.log <+: s'.log ∧ s.epoch ≤ s'.epoch := by
  have hall := hreach.invariant (I := fun t => Inv t ∧ s.log <+: t.log ∧ s.epoch ≤ t.epoch)
    ⟨h, List.prefix_rfl, le_rfl⟩ fun t u a ⟨hinv, hlog, hepoch⟩ _ hstep => by
      obtain ⟨c, call, hstepped⟩ := stepped hinv hstep
      exact ⟨hinv.step hstep, hlog.trans hstepped.grows.1, hepoch.trans hstepped.grows.2⟩
  exact hall.2

/-- No append takes its handle's lock when a segment of a newer epoch lies below the
handle's `next_seq`: none was passed since the append checked the fence. -/
def LocksFresh (s : Sys) : Act → Prop
  | .lock c => ∀ q, s.calls c = .checked q → ∀ g, s.handles q.handle = some g →
      ∀ x ∈ s.log, x.seq < g.nextSeq → x.epoch ≤ q.epoch
  | _ => True

/-- The epochs ascend along the log, and whoever is about to put has nothing newer
below the slot it tries. -/
structure Ordered (s : Sys) : Prop where
  ascending : s.log.Pairwise fun x y => x.epoch ≤ y.epoch
  putting : ∀ c q n, s.calls c = .putting q n → ∀ g, s.handles q.handle = some g → ∀ x ∈ s.log, x.seq < g.nextSeq →
    x.epoch ≤ q.epoch

/-- Only what was there can lie below the `next_seq` of a handle. -/
theorem Stepped.below {a : Act} {call : Call} (h : Stepped s s' a c call) (hinv : Inv s) {handle : Nat} {g : Handle}
    (hg : s.handles handle = some g) {x : Slot} (hx : x ∈ s'.log) (hlt : x.seq < g.nextSeq) : x ∈ s.log := by
  rcases h.log with heq | ⟨q, n, g₀, -, hg₀, hfree, heq⟩
  · rwa [heq] at hx
  · rw [heq] at hx
    rcases List.mem_append.1 hx with hx | hx
    · exact hx
    · obtain rfl := List.mem_singleton.1 hx
      have hseq := nextSeq_of_free hinv hg₀ hfree
      have hle := (hinv.handles _ _ hg).seq_le
      simp only at hlt
      omega

theorem Ordered.step {a : Act} (h : Ordered s) (hinv : Inv s) (hfresh : LocksFresh s a)
    (hstep : step retries s a = some s') : Ordered s' := by
  obtain ⟨c, call, hstepped⟩ := stepped hinv hstep
  refine ⟨?_, fun d q n hd g hg x hx hlt => ?_⟩
  · rcases hstepped.log with heq | ⟨q, n, g, hcall, hg, hfree, heq⟩
    · rw [heq]
      exact h.ascending
    · -- The put lands at the end, so every segment lies below the slot it tried.
      rw [heq]
      refine List.pairwise_append.2 ⟨h.ascending, List.pairwise_singleton _ _, fun x hx y hy => ?_⟩
      obtain rfl := List.mem_singleton.1 hy
      have hseq := nextSeq_of_free hinv hg hfree
      have hle := (hinv.slots.mem hx).2.1
      exact h.putting c q n hcall g hg x hx (by omega)
  · rw [hstepped.calls] at hd
    rcases eq_or_ne d c with rfl | hne
    · rw [Function.update_self] at hd
      obtain ⟨hlog, g', hg', hhow⟩ := hstepped.putting q n hd
      obtain rfl : g' = g := Option.some.inj (hg'.symm.trans hg)
      rw [hlog] at hx
      rcases hhow with ⟨rfl, hcall, g₀, hg₀, heq⟩ | hepoch
      · exact hfresh q hcall g₀ hg₀ x hx (by omega)
      · rw [hepoch]
        exact hinv.epochs x hx
    · rw [Function.update_of_ne hne] at hd
      have hok := hinv.calls d
      rw [hd] at hok
      obtain ⟨-, g₀, hholds⟩ := hok
      obtain rfl : g₀ = g := Option.some.inj (((hstepped.frame d hne).locked _ _ hholds.1 hholds.2).symm.trans hg)
      exact h.putting d q n hd g₀ hholds.1 x (hstepped.below hinv hholds.1 hx hlt) hlt

theorem Ordered.of_run (hrun : RunWhere (ObjectLog.step retries) LocksFresh .init s) : Ordered s := by
  have hall := hrun.invariant (I := fun t => Inv t ∧ Ordered t)
    ⟨.init, .nil, fun c q n hcall => nomatch hcall⟩ fun t u a ⟨hinv, hordered⟩ hfresh hstep =>
      ⟨hinv.step hstep, hordered.step hinv hfresh hstep⟩
  exact hall.2

/-- What a single writer needs of the lease and the log. -/
structure SingleWriter (retries : Nat) (s : Sys) : Prop where
  /-- No epoch is returned twice. -/
  issued : s.issued.Nodup
  /-- The lease's epoch never goes down, and no slot is overwritten or removed. -/
  grows : ∀ t, Reach (step retries) s t → s.epoch ≤ t.epoch ∧ s.log <+: t.log
  slots : (s.log.map Slot.seq).Nodup
  /-- An acked append is in exactly one slot. -/
  acked : ∀ a ∈ s.acked, (∃ x ∈ s.log, x.seq = a.seq ∧ x.call = a.call) ∧
    ∀ x ∈ s.log, x.call = a.call → x.seq = a.seq

theorem SingleWriter.of_reach (hreach : Reach (step retries) .init s) : SingleWriter retries s := by
  have h := inv_of_reach hreach
  refine ⟨h.issued.imp fun hlt => hlt.ne, fun t ht => (reach_grows h ht).symm, ?_, fun a ha => ?_⟩
  · rw [h.slots]
    exact List.nodup_range'
  · obtain ⟨x, hx, hseq, hcall, -, -⟩ := h.acked a ha
    refine ⟨⟨x, hx, hseq, hcall⟩, fun y hy hycall => ?_⟩
    rw [List.inj_on_of_nodup_map h.once hy hx (hycall.trans hcall.symm), hseq]

/-- **Single-writer order.** Every interleaving keeps the epochs apart and each acked
segment in one slot of its own; and if appends take their locks fresh, the epochs
never go down along the log. -/
theorem singleWriter_and_ordered (retries : Nat) (s : Sys) (hreach : Reach (step retries) .init s) :
    SingleWriter retries s ∧
      (RunWhere (step retries) LocksFresh .init s → s.log.Pairwise fun x y => x.epoch ≤ y.epoch) :=
  ⟨.of_reach hreach, fun hrun => (Ordered.of_run hrun).ascending⟩

theorem singleWriter_first_append : ∃ s, s.log.length = 1 ∧ SingleWriter 8 s ∧
    s.log.Pairwise fun x y => x.epoch ≤ y.epoch := by
  have hrun : RunWhere (step 8) LocksFresh .init _ := RunWhere.nil.plays
    [.withStore 0 0, .list 0, .get 0, .acquireFence 1 7, .get 1, .put 1 0 .ok,
      .appendWal 2 0 ⟨1, 7⟩ [[1]], .get 2, .lock 2, .put 2 0 .ok, .settle 2 true]
    ⟨trivial, _, rfl, trivial, _, rfl, trivial, _, rfl, trivial, _, rfl, trivial, _, rfl, trivial, _, rfl, trivial, _, rfl,
      trivial, _, rfl, fun _ _ _ _ _ hx => (List.not_mem_nil hx).elim, _, rfl, trivial, _, rfl, trivial, _, rfl, rfl⟩
  obtain ⟨hsingle, hordered⟩ := singleWriter_and_ordered 8 _ hrun.reach
  exact ⟨_, rfl, hsingle, hordered hrun⟩

/-- Two appends of one handle have checked the fence when another handle takes the
lease over and writes. The first finds its slot taken, refreshes `next_seq` and is
fenced; the second takes the lock after it and writes past the newer segment. -/
theorem stale_append_after_takeover : ∃ s, Reach (step 8) .init s ∧ s.log.map Slot.epoch = [2, 1] ∧
    s.acked.map Ack.call = [6, 4] ∧ ¬ s.log.Pairwise fun x y => x.epoch ≤ y.epoch := by
  have hreach : Reach (step 8) .init _ := reach_of_play .nil
    [.withStore 0 0, .list 0, .get 0, .withStore 1 1, .list 1, .get 1, .acquireFence 2 7, .get 2, .put 2 0 .ok,
      .appendWal 3 0 ⟨1, 7⟩ [[1]], .get 3, .appendWal 4 0 ⟨1, 7⟩ [[2]], .get 4,
      .acquireFence 5 8, .get 5, .put 5 0 .ok, .appendWal 6 1 ⟨2, 8⟩ [[3]], .get 6, .lock 6, .put 6 0 .ok, .settle 6 true,
      .lock 3, .put 3 0 .precondition, .list 3, .get 3, .lock 4, .put 4 0 .ok, .settle 4 true] rfl
  exact ⟨_, hreach, rfl, rfl, by decide⟩

end Twill.Storage.ObjectLog
