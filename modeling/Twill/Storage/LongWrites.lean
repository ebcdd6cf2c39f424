/-
Writes whose lengths do not fit the log's 32-bit fields.

A file's frame has four bytes for its length and an object's segment four for its count and for
each record's length; what is longer is stored modulo `2 ^ 32` and acked all the same. A run
calls a backend and scans, after every call, what is then stored; the scan is the acked records
throughout exactly when every acked batch fits.
-/
import Twill.Storage.Line
import Twill.Storage.ObjectCodec
import Twill.Lib.Except

namespace Twill.Storage

open LocalFile (numbered walPayload)
open StateExcept (runOn)

/-! ## Stored bytes -/

namespace Object

/-- The objects of the log, in slot order. -/
def Bucket.objects (b : Bucket) : List Bytes := b.sortedLog.map fun e => encodeSegment e.2

/-- `scan_wal`, which decodes the objects one after another. -/
def scanObjects (objects : List Bytes) (after : Nat) : Except StorageError (List LogEntry) := do
  let segments ← objects.mapM decodeSegment
  return (entriesFrom 1 segments.flatten).filter (after < ·.lsn)

end Object

namespace Backend

/-- `scan_wal` on what the backend has stored. -/
def rescan : Backend → Nat → Except StorageError (List LogEntry)
  | .file h, after => LocalFile.scanWal h.file after
  | .object _ w, after => Object.scanObjects w.bucket.objects after

/-- A backend with nothing written yet. -/
def IsNew (b : Backend) : Prop := b = .file LocalFile.Handle.create ∨ ∃ config, b = .object config (Object.withStore .empty)

/-- The lengths and counts of a batch fit their fields. -/
def Fits : Backend → List WalRecord → Prop
  | .file _, records => (walPayload records).length + 1 < 2 ^ 32
  | .object .., records => records.length < 2 ^ 32 ∧ ∀ r ∈ records, r.length < 2 ^ 32

inductive Call where
  | acquireFence (owner : Nat)
  | appendWal (token : FenceToken) (records : List WalRecord)
  | putPage (token : FenceToken) (pageId : UInt64) (image : Bytes)
  | setRetentionFloor (lsn : UInt64)

/-- The backend after a call, and the records the call acked, numbered up to its answer. -/
def exec (b : Backend) : Call → Backend × List LogEntry
  | .acquireFence owner => ((b.acquireFence owner).2, [])
  | .appendWal token records => match b.appendWal token records with
    | (.ok last, b') => (b', numbered (last + 1 - records.length) records)
    | (.error _, b') => (b', [])
  | .putPage token pageId image => ((b.putPage token pageId image).2, [])
  | .setRetentionFloor lsn => ((b.setRetentionFloor lsn).2, [])

/-- The backend after some calls, and all the records they acked. -/
def run (b : Backend) : List Call → Backend × List LogEntry
  | [] => (b, [])
  | c :: calls => ((run (b.exec c).1 calls).1, (b.exec c).2 ++ (run (b.exec c).1 calls).2)

/-- A batch the backend takes: not empty, under the current fence, and with room in the file. -/
def Admits : Backend → FenceToken → List WalRecord → Prop
  | .file h, token, records => records ≠ [] ∧ token.epoch = h.inner.epoch ∧
      h.inner.fileEnd + (LocalFile.frameBytes LocalFile.T_WAL (walPayload records)).length ≤ LocalFile.MAX_OFFSET
  | .object _ w, token, records => records ≠ [] ∧ token.epoch = w.bucket.durableEpoch

/-- A batch that is taken fits. -/
def AcksFitting (b : Backend) : Call → Prop
  | .appendWal token records => b.Admits token records → b.Fits records
  | _ => True

/-- Every batch that is taken in the run does. -/
def RunFitting : Backend → List Call → Prop
  | _, [] => True
  | b, c :: calls => b.AcksFitting c ∧ RunFitting (b.exec c).1 calls

/-- After every call of the run a scan returns the records acked so far, and no others. -/
def KeepsAcked (b : Backend) (calls : List Call) : Prop :=
  ∀ before, before <+: calls → (b.run before).1.rescan 0 = .ok (b.run before).2

end Backend

/-! ## Frames that fit -/

/-- Groups of items that each weigh at least what their items do and some overhead: either one
group has all the items, or the overhead is there twice. -/
theorem alone_or_twice {β α : Type} {e : β → List α} {weight : α → ℕ} {w : β → ℕ} {overhead : ℕ}
    (h : ∀ f, e f ≠ [] → overhead + ((e f).map weight).sum ≤ w f) {fs : List β} (hne : fs.flatMap e ≠ []) :
    (∃ f ∈ fs, e f = fs.flatMap e) ∨ 2 * overhead + ((fs.flatMap e).map weight).sum ≤ (fs.map w).sum := by
  have hone : ∀ fs : List β, fs.flatMap e ≠ [] → overhead + ((fs.flatMap e).map weight).sum ≤ (fs.map w).sum := by
    intro fs
    induction fs with
    | nil => simp
    | cons f fs ih =>
      intro hne
      rw [List.flatMap_cons, List.map_append, List.sum_append, List.map_cons, List.sum_cons]
      by_cases hf : e f = []
      · rw [List.flatMap_cons, hf, List.nil_append] at hne
        have := ih hne
        simp only [hf, List.map_nil, List.sum_nil]
        omega
      · have hfirst := h f hf
        by_cases hrest : fs.flatMap e = []
        · simp only [hrest, List.map_nil, List.sum_nil]
          omega
        · have := ih hrest
          omega
  induction fs with
  | nil => exact absurd rfl hne
  | cons f fs ih =>
    rw [List.flatMap_cons] at hne ⊢
    by_cases hf : e f = []
    · rw [hf, List.nil_append] at hne ⊢
      rcases ih hne with ⟨g, hg, hall⟩ | htwice
      · exact .inl ⟨g, List.mem_cons_of_mem f hg, hall⟩
      · right
        rw [List.map_cons, List.sum_cons]
        omega
    · by_cases hrest : fs.flatMap e = []
      · exact .inl ⟨f, List.mem_cons_self, by rw [hrest, List.append_nil]⟩
      · right
        have hfirst := h f hf
        have hothers := hone fs hrest
        rw [List.map_append, List.sum_append, List.map_cons, List.sum_cons]
        omega

namespace LocalFile

open Framing (ofLE)

/-- What records take up in a payload. -/
def recordBytes (records : List LogEntry) : Nat := (records.map fun e => e.record.length + 4).sum

/-- What a frame takes up for its records at least. -/
def Frame.weight : Frame → Nat
  | .wal records _ => 13 + recordBytes records
  | _ => 0

theorem ofLE_lt (bytes : Bytes) : ofLE bytes < 256 ^ bytes.length := by
  induction bytes with
  | nil => simp [ofLE]
  | cons b bytes ih =>
    have hbyte := b.toNat_lt
    rw [ofLE, List.length_cons, pow_succ']
    omega

theorem recordBytes_readRecords (count next : Nat) (payload : Bytes) :
    recordBytes (readRecords count next payload).1 ≤ payload.length := by
  induction count generalizing next payload with
  | zero => simp [readRecords, recordBytes]
  | succ count ih =>
    rw [readRecords]
    split
    · simp [recordBytes]
    · dsimp only
      split
      · simp [recordBytes]
      · next h4 hlen =>
        have hrest := ih (next + 1) ((payload.drop 4).drop (ofLE (payload.take 4)))
        simp only [recordBytes, List.map_cons, List.sum_cons, List.length_take, List.length_drop] at hrest hlen ⊢
        omega

theorem weight_readPayload {next next' : Nat} {tag : UInt8} {payload : Bytes} {f : Frame}
    (h : readPayload next tag payload = (some f, next')) : f.weight ≤ 9 + payload.length := by
  cases f with
  | wal records commitLsn =>
    unfold readPayload at h
    split at h
    · split at h
      · exact absurd h (by simp)
      next h4 =>
      dsimp only at h
      split at h
      · exact absurd h (by simp)
      · obtain ⟨rfl, -⟩ := Frame.wal.inj (Option.some.inj (Prod.mk.inj h).1)
        have hbytes := recordBytes_readRecords (ofLE (payload.take 4)) next (payload.drop 4)
        rw [List.length_drop] at hbytes
        simp only [Frame.weight]
        omega
    · split_ifs at h <;> exact absurd h (by simp)
  | _ => exact Nat.zero_le _

/-- A frame that is read takes up what its records do, and no more than its length word can say. -/
theorem weight_readFrame {next next' size : Nat} {bytes : Bytes} {f : Frame} (h : readFrame next bytes = .item f size next') :
    f.weight ≤ size ∧ size ≤ bytes.length ∧ size < 2 ^ 32 + 8 := by
  have hsize := (local_readFrame.item h).2.1
  unfold readFrame at h
  split at h
  · exact absurd h (by simp)
  next h4 =>
  dsimp only at h
  split at h
  · exact absurd h (by simp)
  next hfit =>
  split at h
  · exact absurd h (by simp)
  split at h
  · exact absurd h (by simp)
  next tag payload hbody =>
  split at h
  · next f' n hpayload =>
    obtain ⟨rfl, rfl, rfl⟩ : f' = f ∧ 4 + ofLE (bytes.take 4) + 4 = size ∧ n = next' := by simpa using h
    have hweight := weight_readPayload hpayload
    have hlength := congrArg List.length hbody
    have hword := ofLE_lt (bytes.take 4)
    have hfour : (bytes.take 4).length = 4 := by rw [List.length_take]; omega
    rw [hfour] at hword
    rw [List.length_take, List.length_drop, List.length_cons] at hlength
    omega
  · exact absurd h (by simp)

theorem recordBytes_numbered (records : List WalRecord) (lsn : Nat) :
    (walPayload records).length = 4 + recordBytes (numbered lsn records) := by
  have hsum : ∀ (records : List WalRecord) (lsn : Nat),
      (records.flatMap fun r => Framing.toLE 4 r.length ++ r).length = recordBytes (numbered lsn records) := by
    intro records
    induction records with
    | nil => exact fun _ => rfl
    | cons r records ih =>
      intro lsn
      have hrest := ih (lsn + 1)
      simp only [recordBytes, numbered, List.flatMap_cons, List.length_append, Framing.length_toLE, List.map_cons,
        List.sum_cons] at hrest ⊢
      omega
  rw [walPayload, List.length_append, Framing.length_toLE, hsum records lsn]

theorem scanWal_of_readLog {all : Bytes} {frames : List Frame} {fileEnd next : Nat} (h : readLog all = .ok (frames, fileEnd, next))
    (after : Nat) : scanWal all after = .ok (frames.flatMap fun f => f.entries.filter (after < ·.lsn)) := by
  rw [scanWal, h]
  change Except.ok (frames.flatMap fun
    | .wal records _ => records.filter (after < ·.lsn)
    | _ => []) = _
  congr 1
  refine List.flatMap_congr fun f _ => ?_
  cases f <;> rfl

/-- A batch that comes back from its frame fits it. -/
theorem fits_of_scanWal {log : Bytes} {frames : List Frame} {g : Inner} {records : List WalRecord} (hlog : Logged log frames g)
    (hne : records ≠ []) {lsn : Nat}
    (hscan : scanWal (log ++ frameBytes T_WAL (walPayload records)) 0 =
      .ok ((frames.flatMap Frame.entries).filter (0 < ·.lsn) ++ numbered lsn records)) :
    (walPayload records).length + 1 < 2 ^ 32 := by
  obtain ⟨fuel, hread⟩ := hlog.readLog_tail (frameBytes T_WAL (walPayload records))
  obtain ⟨found, hfound⟩ : ∃ found, found =
      (Framing.readAll readFrame (fuel + 1) g.nextLsn (frameBytes T_WAL (walPayload records))).1 := ⟨_, rfl⟩
  rw [← hfound] at hread
  have hback : found.flatMap (fun f => f.entries.filter (0 < ·.lsn)) = numbered lsn records := by
    rw [scanWal_of_readLog hread, List.flatMap_append, ← List.filter_flatMap] at hscan
    exact List.append_cancel_left (Except.ok.inj hscan)
  have hnumbered : numbered lsn records ≠ [] := by
    rw [← List.length_pos_iff, length_numbered]
    exact List.length_pos_iff.mpr hne
  have hpayload := recordBytes_numbered records lsn
  have hlength := length_frameBytes T_WAL (walPayload records)
  -- what was found takes up no more than the frame, and each frame of it less than its word can say
  have htotal : (found.map Frame.weight).sum ≤ (frameBytes T_WAL (walPayload records)).length := by
    rw [hfound]
    exact Framing.sum_readAll_le (fun h => ⟨(weight_readFrame h).1, (weight_readFrame h).2.1⟩) _ _ _
  have hshort : ∀ f ∈ found, f.weight < 2 ^ 32 + 8 := by
    rw [hfound]
    refine Framing.forall_mem_readAll (fun h => ?_) _ _ _
    have := weight_readFrame h
    omega
  have hweight : ∀ f : Frame, f.entries.filter (0 < ·.lsn) ≠ [] →
      13 + ((f.entries.filter (0 < ·.lsn)).map fun e => e.record.length + 4).sum ≤ f.weight := by
    intro f hf
    cases f with
    | wal records' c =>
      have hsub : ((records'.filter (0 < ·.lsn)).map fun e => e.record.length + 4).sum ≤ recordBytes records' :=
        (List.filter_sublist.map _).sum_le_sum fun _ _ => Nat.zero_le _
      exact Nat.add_le_add_left hsub 13
    | _ => exact absurd rfl hf
  rcases alone_or_twice hweight (hback ▸ hnumbered) with ⟨f, hf, halone⟩ | htwice
  · have hone := hweight f (by rw [halone, hback]; exact hnumbered)
    have hbound := hshort f hf
    rw [halone, hback] at hone
    rw [recordBytes] at hpayload
    omega
  · rw [hback] at htwice
    rw [recordBytes] at hpayload
    omega

end LocalFile

/-! ## Objects that fit -/

namespace Object

/-- Every segment of the log fits its object. -/
def Bucket.Short (b : Bucket) : Prop := ∀ e ∈ b.log, ShortSegment e.2

theorem short_wal {records : List WalRecord} :
    ShortSegment (records.map .wal) ↔ records.length < 2 ^ 32 ∧ ∀ r ∈ records, r.length < 2 ^ 32 := by
  constructor
  · intro h
    have hcount := h.count
    rw [List.length_map] at hcount
    exact ⟨hcount, fun r hr => h.items _ (List.mem_map_of_mem hr)⟩
  · rintro ⟨hcount, hrecords⟩
    refine ⟨by rwa [List.length_map], fun item hitem => ?_⟩
    obtain ⟨r, hr, rfl⟩ := List.mem_map.mp hitem
    exact hrecords r hr

variable {w w' : World} {l : Line}

theorem mem_numbered {records : List WalRecord} {r : WalRecord} {lsn : Nat} (h : r ∈ records) :
    ∃ e ∈ numbered lsn records, e.record = r := by
  induction records generalizing lsn with
  | nil => exact absurd h (by simp)
  | cons r' records ih =>
    rcases List.mem_cons.mp h with rfl | h
    · exact ⟨⟨lsn, r⟩, List.mem_cons_self, rfl⟩
    · obtain ⟨e, he, hr⟩ := ih h
      exact ⟨e, List.mem_cons_of_mem _ he, hr⟩

theorem decode_objects {b : Bucket} (hslots : b.log.map Prod.fst = List.range' 1 b.log.length) (hshort : b.Short) :
    b.objects.mapM decodeSegment = .ok (b.log.map (·.2)) := by
  rw [Bucket.objects, sortedLog_of_slots hslots, Except.mapM_eq_ok, List.forall₂_map_left_iff, List.forall₂_map_right_iff,
    List.forall₂_same]
  exact fun e he => decodeSegment_encodeSegment (hshort e he)

/-- The objects of a log that fits are scanned as the log itself. -/
theorem ShowsLine.scanObjects (hs : ShowsLine w l) (hshort : w.bucket.Short) : Object.scanObjects w.bucket.objects 0 = .ok l.wal := by
  have hitems : (w.bucket.log.map (·.2)).flatten = w.bucket.items := List.flatMap_def.symm
  have hall : l.wal.filter (0 < ·.lsn) = l.wal := List.filter_eq_self.mpr fun e he => decide_eq_true (l.walReached e he).1
  rw [Object.scanObjects, decode_objects hs.inv.slots hshort]
  change Except.ok _ = _
  rw [hitems, ← hs.wal, hall]

theorem lsn_pos_of_entriesFrom {items : Segment} {start : Nat} {e : LogEntry} (h : e ∈ entriesFrom start items) :
    start ≤ e.lsn ∧ .wal e.record ∈ items := by
  obtain ⟨⟨item, lsn⟩, hmem, heq⟩ := List.mem_filterMap.mp h
  cases item with
  | page pageId image => exact absurd heq (by simp)
  | wal bytes =>
    obtain rfl := Option.some.inj heq
    exact ⟨List.le_snd_of_mem_zipIdx hmem, List.fst_mem_of_mem_zipIdx hmem⟩

theorem objects_push {b : Bucket} {seg : Segment} (hslots : b.log.map Prod.fst = List.range' 1 b.log.length) :
    (b.push seg).objects = b.objects ++ [encodeSegment seg] := by
  have hpush : (b.push seg).log.map Prod.fst = List.range' 1 (b.push seg).log.length := by
    rw [Bucket.push, List.map_append, hslots, List.length_append, List.length_singleton, List.range'_1_concat, Nat.add_comm 1]
    rfl
  rw [Bucket.objects, sortedLog_of_slots hpush, Bucket.objects, sortedLog_of_slots hslots, Bucket.push, List.map_append]
  rfl

/-- A batch that comes back from its object fits it. -/
theorem fits_of_scanObjects {b : Bucket} {records : List WalRecord} {lsn : Nat}
    (hslots : b.log.map Prod.fst = List.range' 1 b.log.length) (hshort : b.Short)
    (hscan : scanObjects (b.push (records.map .wal)).objects 0 = .ok (entriesFrom 1 b.items ++ numbered lsn records)) :
    records.length < 2 ^ 32 ∧ ∀ r ∈ records, r.length < 2 ^ 32 := by
  have hitems : (b.log.map (·.2)).flatten = b.items := List.flatMap_def.symm
  rw [objects_push hslots, scanObjects, List.mapM_append, decode_objects hslots hshort] at hscan
  cases hlast : decodeSegment (encodeSegment (records.map .wal)) with
  | error e =>
    rw [List.mapM_cons, hlast] at hscan
    cases hscan
  | ok last =>
    rw [List.mapM_cons, hlast] at hscan
    have hentries := Except.ok.inj hscan
    rw [List.flatten_append, hitems, entriesFrom_append, List.filter_append] at hentries
    have hall (start : Nat) (hstart : 0 < start) (items : Segment) :
        (entriesFrom start items).filter (0 < ·.lsn) = entriesFrom start items :=
      List.filter_eq_self.mpr fun e he => decide_eq_true (hstart.trans_le (lsn_pos_of_entriesFrom he).1)
    rw [hall _ Nat.one_pos, hall _ (by omega)] at hentries
    have hback : entriesFrom (1 + b.items.length) [last].flatten = numbered lsn records := List.append_cancel_left hentries
    rw [List.flatten_singleton] at hback
    obtain ⟨hcount, hlengths⟩ := of_decodeSegment hlast
    constructor
    · have hlength := congrArg List.length hback
      have hle : (entriesFrom (1 + b.items.length) last).length ≤ last.length := by
        rw [entriesFrom]
        exact (List.length_filterMap_le _ _).trans_eq List.length_zipIdx
      rw [LocalFile.length_numbered] at hlength
      omega
    · intro r hr
      obtain ⟨e, he, rfl⟩ := mem_numbered hr
      rw [← hback] at he
      exact hlengths _ (lsn_pos_of_entriesFrom he).2

end Object

/-! ## Calls -/

section Calls

/-- An append to a file that is acked has put its frame behind the log. -/
theorem LocalFile.file_of_appendWal {h h' : LocalFile.Handle} {l : Line} {token : FenceToken} {records : List WalRecord} {last : Nat}
    (hs : LocalFile.ShowsLine h l) (hrun : runOn (LocalFile.appendWal none token records) h = (.ok last, h')) :
    records ≠ [] ∧ h'.file = h.file ++ LocalFile.frameBytes LocalFile.T_WAL (walPayload records) := by
  obtain ⟨frames, hlogged, -⟩ := hs.logged
  have hexec := LocalFile.exec_appendWal h token records
  rw [hrun, LocalFile.Handle.exec_eq, LocalFile.Handle.step] at hexec
  cases hframe : (LocalFile.Op.appendWal token records).frame h.inner with
  | error e =>
    rw [hframe] at hexec
    cases (Prod.mk.inj hexec).1
  | ok out =>
    obtain ⟨tag, payload⟩ := out
    rw [hframe] at hexec
    simp only [LocalFile.Op.frame] at hframe
    split_ifs at hframe with hempty hfence
    obtain ⟨rfl, rfl⟩ := Prod.mk.inj (Except.ok.inj hframe)
    dsimp only at hexec
    split_ifs at hexec with hmax
    · cases (Prod.mk.inj hexec).1
    · have hfile := congrArg LocalFile.Handle.file (Prod.mk.inj hexec).2
      dsimp only at hfile
      rw [hlogged.fileEnd, Framing.writeAt_end] at hfile
      exact ⟨by simpa using hempty, hfile.symm⟩

theorem LocalFile.appendWal_ok_iff {h : LocalFile.Handle} {token : FenceToken} {records : List WalRecord} :
    (∃ last, (runOn (LocalFile.appendWal none token records) h).1 = .ok last) ↔
      records ≠ [] ∧ token.epoch = h.inner.epoch ∧
        h.inner.fileEnd + (LocalFile.frameBytes LocalFile.T_WAL (walPayload records)).length ≤ LocalFile.MAX_OFFSET := by
  have hexec := LocalFile.exec_appendWal h token records
  rw [LocalFile.Handle.exec_eq, LocalFile.Handle.step, LocalFile.Op.frame] at hexec
  have hanswer := congrArg Prod.fst hexec
  dsimp only at hanswer
  cases hres : (runOn (LocalFile.appendWal none token records) h).1 with
  | error e =>
    refine ⟨by rintro ⟨last, ⟨⟩⟩, ?_⟩
    rintro ⟨hne, htoken, hroom⟩
    rw [hres, if_neg (by simpa using hne), if_neg (not_not.mpr htoken)] at hanswer
    dsimp only at hanswer
    rw [if_neg (Nat.not_lt.mpr hroom)] at hanswer
    cases hanswer
  | ok last =>
    refine ⟨fun _ => ?_, fun _ => ⟨last, rfl⟩⟩
    rw [hres] at hanswer
    split_ifs at hanswer with hempty hfence
    · cases hanswer
    · cases hanswer
    · dsimp only at hanswer
      split_ifs at hanswer with hmax
      · cases hanswer
      · exact ⟨by simpa using hempty, not_not.mp hfence, Nat.not_lt.mp hmax⟩

/-- An append to a file that is refused has changed nothing. -/
theorem LocalFile.eq_of_appendWal_error {h h' : LocalFile.Handle} {token : FenceToken} {records : List WalRecord} {e : StorageError}
    (hrun : runOn (LocalFile.appendWal none token records) h = (.error e, h')) : h' = h := by
  have hexec := LocalFile.exec_appendWal h token records
  rw [hrun, LocalFile.Handle.exec_eq, LocalFile.Handle.step] at hexec
  split at hexec
  · exact (Prod.mk.inj hexec).2.symm
  · dsimp only at hexec
    split_ifs at hexec
    · exact (Prod.mk.inj hexec).2.symm
    · cases (Prod.mk.inj hexec).1

/-- An append to a bucket that is acked has put its segment behind the log. -/
theorem Object.log_of_appendWal {w w' : Object.World} {config : Object.Config} {token : FenceToken} {records : List WalRecord}
    (hinv : Object.Inv w) {last : Nat} (hrun : runOn (Object.appendWal config token records) w = (.ok last, w')) :
    w'.bucket.log = (w.bucket.push (records.map .wal)).log := by
  rw [Object.appendWal, StateExcept.run_ite] at hrun
  split_ifs at hrun with hempty
  · cases (Prod.mk.inj hrun).1
  · rcases Object.run_appendSegment_log hinv config token (records.map .wal) with ⟨-, e, herror⟩ | ⟨w₁, hok, -, hlog, -⟩
    · rw [herror] at hrun
      cases (Prod.mk.inj hrun).1
    · rw [hok] at hrun
      obtain ⟨-, rfl⟩ := Prod.mk.inj hrun
      exact hlog

theorem Object.appendWal_ok_iff {w : Object.World} {config : Object.Config} {token : FenceToken} {records : List WalRecord}
    (hinv : Object.Inv w) : (∃ last, (runOn (Object.appendWal config token records) w).1 = .ok last) ↔
      records ≠ [] ∧ token.epoch = w.bucket.durableEpoch := by
  rw [Object.appendWal, StateExcept.run_ite]
  by_cases hempty : records.isEmpty
  · rw [if_pos hempty]
    exact ⟨by rintro ⟨last, ⟨⟩⟩, fun h => absurd hempty (by simpa using h.1)⟩
  · rw [if_neg hempty]
    have hfence := Object.run_checkFence w token
    rcases Object.run_appendSegment_log hinv config token (records.map .wal) with ⟨htoken, e, hrun⟩ | ⟨w', hrun, -⟩
    · rw [hrun]
      exact ⟨by rintro ⟨last, ⟨⟩⟩, fun h => absurd h.2 htoken⟩
    · refine ⟨fun _ => ⟨by simpa using hempty, ?_⟩, fun _ => ⟨_, congrArg Prod.fst hrun⟩⟩
      by_contra htoken
      rw [if_pos htoken] at hfence
      rw [Object.appendSegment, StateExcept.run_bind_error hfence] at hrun
      cases (Prod.mk.inj hrun).1

theorem Object.log_of_putPage {w w' : Object.World} {config : Object.Config} {token : FenceToken} {pageId : Nat} {image : Bytes}
    (hinv : Object.Inv w) {lsn : Nat} (hrun : runOn (Object.putPage config token pageId image) w = (.ok lsn, w')) :
    image.length ≤ PAGE_SIZE ∧ w'.bucket.log = (w.bucket.push [.page pageId image]).log := by
  rw [Object.putPage, StateExcept.run_ite] at hrun
  split_ifs at hrun with hsize
  · cases (Prod.mk.inj hrun).1
  · rcases Object.run_appendSegment_log hinv config token [.page pageId image] with ⟨-, e, herror⟩ | ⟨w₁, hok, -, hlog, -⟩
    · rw [herror] at hrun
      cases (Prod.mk.inj hrun).1
    · rw [hok] at hrun
      obtain ⟨-, rfl⟩ := Prod.mk.inj hrun
      exact ⟨Nat.not_lt.mp hsize, hlog⟩

theorem Object.Bucket.Short.push {b b' : Object.Bucket} {seg : Object.Segment} (h : b.Short) (hseg : Object.ShortSegment seg)
    (hlog : b'.log = (b.push seg).log) : b'.Short := by
  intro e he
  rw [hlog, Object.Bucket.push] at he
  rcases List.mem_append.mp he with he | he
  · exact h e he
  · obtain rfl := List.mem_singleton.mp he
    exact hseg

namespace Backend

/-- Every segment of a bucket's log fits its object. -/
def Stored : Backend → Prop
  | .file _ => True
  | .object _ w => w.bucket.Short

variable {b b' : Backend} {l : Line}

theorem Shows.rescan (hs : b.Shows l) (hstored : b.Stored) : b.rescan 0 = .ok l.wal := by
  cases b with
  | file h =>
    have hall : l.wal.filter (0 < ·.lsn) = l.wal := List.filter_eq_self.mpr fun e he => decide_eq_true (l.walReached e he).1
    have hscan := LocalFile.ShowsLine.scanWal hs 0
    rwa [hall] at hscan
  | object config w => exact Object.ShowsLine.scanObjects hs hstored

theorem Shows.admits_iff (hs : b.Shows l) {token : FenceToken} {records : List WalRecord} :
    b.Admits token records ↔ ∃ last, (b.appendWal token records).1 = .ok last := by
  cases b with
  | file h => exact LocalFile.appendWal_ok_iff.symm
  | object config w => exact (Object.appendWal_ok_iff (Object.ShowsLine.inv hs)).symm

theorem Shows.exec_appendWal (hs : b.Shows l) (hstored : b.Stored) {token : FenceToken} {records : List WalRecord}
    (hfits : b.AcksFitting (.appendWal token records)) :
    ∃ l', (b.exec (.appendWal token records)).1.Shows l' ∧ (b.exec (.appendWal token records)).1.Stored ∧
      l'.wal = l.wal ++ (b.exec (.appendWal token records)).2 := by
  have hnext : l.durable + records.length + 1 - records.length = l.durable + 1 := by omega
  rw [exec]
  cases hres : (b.appendWal token records).1 with
  | error e =>
    have hsame : b.appendWal token records = (.error e, b) := by
      refine Prod.ext hres ?_
      cases b with
      | file h => exact congrArg Backend.file (LocalFile.eq_of_appendWal_error (Prod.ext hres rfl))
      | object config w =>
        rcases hs.appendWal token (show (Backend.object config w).Carries records from trivial) with ⟨e', hrefused⟩ | ⟨b', hok, -⟩
        · rw [hrefused]
        · rw [hok] at hres
          cases hres
    rw [hsame]
    exact ⟨l, hs, hstored, (List.append_nil _).symm⟩
  | ok last =>
    have hcarries : b.Carries records := by
      cases b with
      | file h =>
        have := hfits (hs.admits_iff.mpr ⟨last, hres⟩)
        simp only [Fits] at this
        simp only [Carries]
        omega
      | object config w => trivial
    rcases hs.appendWal token hcarries with ⟨e, hrefused⟩ | ⟨b', hok, hs'⟩
    · rw [hrefused] at hres
      cases hres
    · rw [hok]
      dsimp only
      rw [hnext]
      refine ⟨l.append records, hs', ?_, rfl⟩
      cases b with
      | file h =>
        obtain ⟨h', rfl⟩ : ∃ h', b' = .file h' := ⟨_, (Prod.mk.inj hok).2.symm⟩
        trivial
      | object config w =>
        obtain ⟨w', hrun, rfl⟩ : ∃ w', runOn (Object.appendWal config token records) w = (.ok (l.durable + records.length), w') ∧
            b' = .object config w' := ⟨_, Prod.ext (Prod.mk.inj hok).1 rfl, (Prod.mk.inj hok).2.symm⟩
        exact Object.Bucket.Short.push hstored (Object.short_wal.mpr (hfits (hs.admits_iff.mpr ⟨last, hres⟩)))
          (Object.log_of_appendWal (Object.ShowsLine.inv hs) hrun)

/-- A call that takes nothing longer than can be stored leaves the line with what it acked. -/
theorem Shows.exec (hs : b.Shows l) (hstored : b.Stored) {c : Call} (hfits : b.AcksFitting c) :
    ∃ l', (b.exec c).1.Shows l' ∧ (b.exec c).1.Stored ∧ l'.wal = l.wal ++ (b.exec c).2 := by
  cases c with
  | acquireFence owner =>
    refine ⟨l, hs.acquireFence owner, ?_, (List.append_nil _).symm⟩
    cases b with
    | file h => trivial
    | object config w =>
      obtain ⟨w', hrun, -, hlog, -⟩ := Object.run_acquireFence (Object.ShowsLine.inv hs) owner
      change Object.Bucket.Short (runOn (Object.acquireFence owner) w).2.bucket
      rw [hrun, Object.Bucket.Short, hlog]
      exact hstored
  | appendWal token records => exact hs.exec_appendWal hstored hfits
  | putPage token pageId image =>
    rcases hs.putPage token pageId image with ⟨e, hrefused⟩ | ⟨b', hok, hs'⟩
    · refine ⟨l, ?_, ?_, (List.append_nil _).symm⟩
      · rw [Backend.exec, hrefused]
        exact hs
      · rw [Backend.exec, hrefused]
        exact hstored
    · refine ⟨l.put pageId.toNat image, ?_, ?_, (List.append_nil _).symm⟩
      · rw [Backend.exec, hok]
        exact hs'
      · rw [Backend.exec, hok]
        cases b with
        | file h =>
          obtain ⟨h', rfl⟩ : ∃ h', b' = .file h' := ⟨_, (Prod.mk.inj hok).2.symm⟩
          trivial
        | object config w =>
          obtain ⟨w', hrun, rfl⟩ : ∃ w', runOn (Object.putPage config token pageId.toNat image) w = (.ok (l.durable + 1), w') ∧
              b' = .object config w' := ⟨_, Prod.ext (Prod.mk.inj hok).1 rfl, (Prod.mk.inj hok).2.symm⟩
          obtain ⟨hsize, hlog⟩ := Object.log_of_putPage (Object.ShowsLine.inv hs) hrun
          refine Object.Bucket.Short.push hstored ⟨by simp, fun item hitem => ?_⟩ hlog
          obtain rfl := List.mem_singleton.mp hitem
          exact ⟨pageId.toNat_lt, hsize⟩
  | setRetentionFloor lsn =>
    rcases hs.setRetentionFloor lsn with ⟨e, hrefused⟩ | ⟨b', hok, hs'⟩
    · refine ⟨l, ?_, ?_, (List.append_nil _).symm⟩
      · rw [Backend.exec, hrefused]
        exact hs
      · rw [Backend.exec, hrefused]
        exact hstored
    · refine ⟨l.setFloor lsn.toNat, ?_, ?_, (List.append_nil _).symm⟩
      · rw [Backend.exec, hok]
        exact hs'
      · cases b with
        | file h => trivial
        | object config w =>
          obtain ⟨answer, w', hrun, -, hlog, -⟩ := Object.run_setRetentionFloor (Object.ShowsLine.inv hs) lsn.toNat
          change Object.Bucket.Short (runOn (Object.setRetentionFloor lsn.toNat) w).2.bucket
          rw [hrun, Object.Bucket.Short, hlog]
          exact hstored

/-- A batch that was acked and comes back with the next scan fits. -/
theorem Shows.fits_of_rescan (hs : b.Shows l) (hstored : b.Stored) {c : Call}
    (hscan : (b.exec c).1.rescan 0 = .ok (l.wal ++ (b.exec c).2)) : b.AcksFitting c := by
  cases c with
  | appendWal token records =>
    intro hadmits
    obtain ⟨last, hres⟩ := hs.admits_iff.mp hadmits
    obtain ⟨b', hok⟩ : ∃ b', b.appendWal token records = (.ok last, b') := ⟨_, Prod.ext hres rfl⟩
    rw [Backend.exec, hok] at hscan
    dsimp only at hscan
    cases b with
    | file h =>
      obtain ⟨h', hrun, rfl⟩ : ∃ h', runOn (LocalFile.appendWal none token records) h = (.ok last, h') ∧ b' = .file h' :=
        ⟨_, Prod.ext (Prod.mk.inj hok).1 rfl, (Prod.mk.inj hok).2.symm⟩
      obtain ⟨hne, hfile⟩ := LocalFile.file_of_appendWal hs hrun
      obtain ⟨frames, hlogged, hwal⟩ := LocalFile.ShowsLine.logged hs
      have hall : (frames.flatMap LocalFile.Frame.entries).filter (0 < ·.lsn) = l.wal := by
        rw [← hwal]
        exact List.filter_eq_self.mpr fun e he => decide_eq_true (l.walReached e he).1
      change LocalFile.scanWal h'.file 0 = _ at hscan
      rw [hfile, ← hall] at hscan
      exact LocalFile.fits_of_scanWal hlogged hne hscan
    | object config w =>
      obtain ⟨w', hrun, rfl⟩ : ∃ w', runOn (Object.appendWal config token records) w = (.ok last, w') ∧
          b' = .object config w' := ⟨_, Prod.ext (Prod.mk.inj hok).1 rfl, (Prod.mk.inj hok).2.symm⟩
      have hlog := Object.log_of_appendWal (Object.ShowsLine.inv hs) hrun
      have hobjects : w'.bucket.objects = (w.bucket.push (records.map .wal)).objects := by
        rw [Object.Bucket.objects, Object.Bucket.objects, Object.Bucket.sortedLog, Object.Bucket.sortedLog, hlog]
      change Object.scanObjects w'.bucket.objects 0 = _ at hscan
      rw [hobjects, Object.ShowsLine.wal hs] at hscan
      exact Object.fits_of_scanObjects (Object.ShowsLine.inv hs).slots hstored hscan
  | _ => trivial

/-- Along a run, the scans are the acked records exactly while what is acked fits. -/
theorem Shows.runFitting_iff (hs : b.Shows l) (hstored : b.Stored) (calls : List Call) :
    (∀ before, before <+: calls → (b.run before).1.rescan 0 = .ok (l.wal ++ (b.run before).2)) ↔ b.RunFitting calls := by
  induction calls generalizing b l with
  | nil =>
    refine ⟨fun _ => trivial, fun _ before hbefore => ?_⟩
    obtain rfl := List.prefix_nil.mp hbefore
    rw [Backend.run, List.append_nil]
    exact hs.rescan hstored
  | cons c calls ih =>
    -- what the first call acked is at the end of the line when the rest of the run starts
    have hrest {l' : Line} (hwal : l'.wal = l.wal ++ (b.exec c).2) (before : List Call) :
        l.wal ++ (b.run (c :: before)).2 = l'.wal ++ ((b.exec c).1.run before).2 := by
      rw [hwal, List.append_assoc]
      rfl
    constructor
    · intro h
      have hone := h [c] (List.cons_prefix_cons.mpr ⟨rfl, List.nil_prefix⟩)
      have hfits : b.AcksFitting c := hs.fits_of_rescan hstored (by simpa [Backend.run] using hone)
      obtain ⟨l', hs', hstored', hwal⟩ := hs.exec hstored hfits
      refine ⟨hfits, (ih hs' hstored').mp fun before hbefore => ?_⟩
      rw [← hrest hwal]
      exact h (c :: before) (List.cons_prefix_cons.mpr ⟨rfl, hbefore⟩)
    · rintro ⟨hfits, hcalls⟩ before hbefore
      obtain ⟨l', hs', hstored', hwal⟩ := hs.exec hstored hfits
      cases before with
      | nil =>
        rw [Backend.run, List.append_nil]
        exact hs.rescan hstored
      | cons c' before =>
        obtain ⟨rfl, hbefore'⟩ := List.cons_prefix_cons.mp hbefore
        rw [hrest hwal]
        exact (ih hs' hstored').mpr hcalls before hbefore'

theorem IsNew.shows (h : b.IsNew) : b.Shows .empty ∧ b.Stored := by
  rcases h with rfl | ⟨config, rfl⟩
  · exact ⟨LocalFile.ShowsLine.create, trivial⟩
  · exact ⟨Object.ShowsLine.withStore, fun e he => absurd he List.not_mem_nil⟩

/-- **Truncated lengths.** From a new file or bucket, a scan after every call of a run returns
exactly the records acked so far if and only if the lengths and counts of every batch that is
taken fit their fields. -/
theorem keepsAcked_iff (hnew : b.IsNew) (calls : List Call) : b.KeepsAcked calls ↔ b.RunFitting calls := by
  obtain ⟨hs, hstored⟩ := hnew.shows
  exact hs.runFitting_iff hstored calls

/-- A fence and a batch of two records in a new file. -/
theorem keepsAcked_two_records :
    (Backend.file LocalFile.Handle.create).KeepsAcked [.acquireFence 7, .appendWal ⟨1, 7⟩ [[1, 2], [3]]] := by
  refine (keepsAcked_iff (.inl rfl) _).mpr ⟨trivial, fun _ => ?_, trivial⟩
  change (walPayload [[1, 2], [3]]).length + 1 < 2 ^ 32
  decide

/-- A record whose frame is `2 ^ 32` bytes long: its length word is zero, so the scan stops before it. -/
def longRecord : WalRecord := List.replicate (2 ^ 32 - 9) 0

theorem length_walPayload_longRecord : (walPayload [longRecord]).length = 2 ^ 32 - 1 := by
  simp only [walPayload, longRecord, List.flatMap_cons, List.flatMap_nil, List.append_nil, List.length_append,
    Framing.length_toLE, List.length_replicate]
  norm_num

/-- The record is acked, and no scan finds it. -/
theorem longRecord_lost :
    ¬ (Backend.file LocalFile.Handle.create).KeepsAcked [.acquireFence 7, .appendWal ⟨1, 7⟩ [longRecord]] := by
  intro h
  obtain ⟨hs, hstored⟩ := IsNew.shows (b := .file LocalFile.Handle.create) (.inl rfl)
  obtain ⟨-, hfits, -⟩ := (hs.runFitting_iff hstored _).mp h
  obtain ⟨h₁, hh₁⟩ : ∃ h₁, h₁ = (runOn (LocalFile.acquireFence none 7) LocalFile.Handle.create).2 := ⟨_, rfl⟩
  have hepoch : h₁.inner.epoch = 1 := by rw [hh₁]; rfl
  have hend : h₁.inner.fileEnd = 81 := by rw [hh₁]; rfl
  have hlength := length_walPayload_longRecord
  have hroom : h₁.inner.fileEnd + (LocalFile.frameBytes LocalFile.T_WAL (walPayload [longRecord])).length ≤
      LocalFile.MAX_OFFSET := by
    rw [hend, LocalFile.length_frameBytes, hlength]
    decide
  have hacks : (Backend.file h₁).AcksFitting (.appendWal ⟨1, 7⟩ [longRecord]) := by
    rw [hh₁]
    exact hfits
  have hbound : (walPayload [longRecord]).length + 1 < 2 ^ 32 := hacks ⟨List.cons_ne_nil _ _, hepoch.symm, hroom⟩
  rw [hlength] at hbound
  exact absurd hbound (by decide)

end Backend

end Calls

end Twill.Storage
