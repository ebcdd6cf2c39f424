/-
Recovery of the single-file backend.

Every operation is the same three things: a decision from the counters (refuse,
or append this frame), the frame's write, and a change of the counters
(`Handle.exec_eq`). Recovery does the reverse from the bytes alone, so the work
is one simulation: the frame an operation appends reads back as the record
whose replay makes the same change (`Logged.append`). A file cut anywhere is
then a shorter log and a piece of a frame, at which the reader stops.
-/
import Twill.Storage.LocalFile
import Twill.Lib.StateExcept

namespace Twill.Storage.LocalFile

open Framing (toLE ofLE length_toLE ofLE_toLE Reads)
open StateExcept (run_bind run_pure run_throw run_modify run_ite)

/-! ## What an operation is -/

/-- Numbers a batch's records from its first LSN. -/
def numbered : Nat → List WalRecord → List LogEntry
  | _, [] => []
  | next, r :: records => ⟨next, r⟩ :: numbered (next + 1) records

namespace Op

/-- The operation's decision: an error before anything is written, or its frame. -/
def frame (g : Inner) : Op → Except StorageError (UInt8 × Bytes)
  | .appendWal token records =>
    if records.isEmpty then .error (.invalid "append_wal: empty batch")
    else if token.epoch ≠ g.epoch then .error (.fenced token.epoch g.epoch)
    else .ok (T_WAL, walPayload records)
  | .putPage token pageId image =>
    if PAGE_SIZE < image.length then
      .error (.invalid s!"page image {image.length} exceeds PAGE_SIZE {PAGE_SIZE}")
    else if token.epoch ≠ g.epoch then .error (.fenced token.epoch g.epoch)
    else .ok (T_PAGE, toLE 8 pageId.toNat ++ image)
  | .acquireFence _ => .ok (T_FENCE, toLE 8 (g.epoch + 1))
  | .createBranch baseLsn =>
    if baseLsn.toNat < g.retentionFloor then
      .error (.notFound s!"base lsn {baseLsn} below PITR floor {g.retentionFloor}")
    else .ok (T_BRANCH, toLE 8 g.nextBranchId ++ toLE 8 baseLsn.toNat ++ toLE 8 ROOT)
  | .deleteBranch branch =>
    if (g.branches.lookup branch.toNat).isNone then .error (.notFound s!"branch {branch}")
    else if g.branches.values.any (·.parent == branch.toNat) then
      .error (.invalid s!"branch {branch} has live children; delete them first")
    else .ok (T_BRANCH_DEL, toLE 8 branch.toNat)
  | .setRetentionFloor lsn =>
    if lsn.toNat < g.retentionFloor then
      .error (.invalid s!"retention floor must move forward: {lsn} < {g.retentionFloor}")
    else .ok (T_RETENTION, toLE 8 lsn.toNat)

/-- What the caller gets once the frame is durable. -/
def ack (g : Inner) : Op → Ack
  | .appendWal _ records => .lsn (g.nextLsn + records.length - 1)
  | .putPage .. => .lsn g.nextLsn
  | .acquireFence owner => .token ⟨g.epoch + 1, owner⟩
  | .createBranch _ => .branch g.nextBranchId
  | .deleteBranch _ => .unit
  | .setRetentionFloor _ => .unit

/-- The counters once the frame, `size` bytes long, is durable. -/
def applied (g : Inner) (size : Nat) : Op → Inner
  | .appendWal _ records =>
    let last := g.nextLsn + records.length - 1
    { g with fileEnd := g.fileEnd + size, nextLsn := last + 1, durableLsn := last, commitLsn := last }
  | .putPage _ pageId image =>
    { g with fileEnd := g.fileEnd + size, nextLsn := g.nextLsn + 1, durableLsn := g.nextLsn }.pushPage
      pageId.toNat g.nextLsn (padPage image)
  | .acquireFence _ => { g with fileEnd := g.fileEnd + size, epoch := g.epoch + 1 }
  | .createBranch baseLsn =>
    { g with
      fileEnd := g.fileEnd + size
      nextBranchId := g.nextBranchId + 1
      branches := g.branches.insert g.nextBranchId
        ⟨g.nextBranchId, ROOT, baseLsn.toNat, baseLsn.toNat⟩ }
  | .deleteBranch branch =>
    { g with fileEnd := g.fileEnd + size, branches := g.branches.erase branch.toNat }
  | .setRetentionFloor lsn => { g with fileEnd := g.fileEnd + size, retentionFloor := lsn.toNat }

/-- The operation's frame as the reader parses it. -/
def parsed (g : Inner) : Op → Frame
  | .appendWal _ records => .wal (numbered g.nextLsn records) (g.nextLsn + records.length - 1)
  | .putPage _ pageId image => .page g.nextLsn pageId.toNat image
  | .acquireFence _ => .fence (g.epoch + 1)
  | .createBranch baseLsn => .branch g.nextBranchId baseLsn.toNat ROOT
  | .deleteBranch branch => .branchDel branch.toNat
  | .setRetentionFloor lsn => .retention lsn.toNat

end Op

/-- The three parts of every operation, put together. -/
def Handle.step (h : Handle) (fate : Fate) (op : Op) : Except StorageError Ack × Handle :=
  match op.frame h.inner with
  | .error e => (.error e, h)
  | .ok (tag, payload) =>
    let buf := frameBytes tag payload
    if MAX_OFFSET < h.inner.fileEnd + buf.length then
      (.error (.durabilityUnconfirmed "file too large"), h)
    else match fate with
      | some n =>
        (.error (.durabilityUnconfirmed "write failed"),
          { h with file := Framing.writeAt 0 h.file h.inner.fileEnd (buf.take n) })
      | none =>
        (.ok (op.ack h.inner),
          ⟨Framing.writeAt 0 h.file h.inner.fileEnd buf, op.applied h.inner buf.length⟩)

/-! ## Running `LocalM` -/

@[simp] theorem run_inner (h : Handle) : inner.run.run h = (.ok h.inner, h) := rfl

@[simp] theorem run_modifyInner (f : Inner → Inner) (h : Handle) :
    (modifyInner f).run.run h = (.ok (), { h with inner := f h.inner }) := rfl

theorem run_appendFrame (h : Handle) (fate : Fate) (tag : UInt8) (payload : Bytes) :
    (appendFrame fate tag payload).run.run h =
      if MAX_OFFSET < h.inner.fileEnd + (frameBytes tag payload).length then
        (.error (.durabilityUnconfirmed "file too large"), h)
      else match fate with
        | some n =>
          (.error (.durabilityUnconfirmed "write failed"),
            { h with file := Framing.writeAt 0 h.file h.inner.fileEnd ((frameBytes tag payload).take n) })
        | none =>
          (.ok (), ⟨Framing.writeAt 0 h.file h.inner.fileEnd (frameBytes tag payload),
            { h.inner with fileEnd := h.inner.fileEnd + (frameBytes tag payload).length }⟩) := by
  unfold appendFrame
  cases fate with
  | none => simp only [run_bind, run_inner, run_ite, run_modify, run_modifyInner, run_throw]
  | some n => simp only [run_bind, run_inner, run_ite, run_modify, run_throw]

theorem run_checkFence (h : Handle) (token : FenceToken) :
    (checkFence token).run.run h =
      if token.epoch ≠ h.inner.epoch then (.error (.fenced token.epoch h.inner.epoch), h) else (.ok (), h) := by
  unfold checkFence
  simp only [run_bind, run_inner]
  split <;> rfl

theorem Handle.exec_eq (h : Handle) (fate : Fate) (op : Op) : h.exec fate op = h.step fate op := by
  cases op with
  | appendWal token records =>
    simp only [Handle.exec, Op.exec, appendWal, run_bind, run_ite, run_throw, run_checkFence, run_appendFrame,
      Handle.step, Op.frame]
    split_ifs
    · rfl
    · rfl
    · dsimp only
      split_ifs <;> cases fate <;> rfl
  | putPage token pageId image =>
    simp only [Handle.exec, Op.exec, putPage, run_bind, run_ite, run_throw, run_checkFence, run_appendFrame,
      Handle.step, Op.frame]
    split_ifs
    · rfl
    · rfl
    · dsimp only
      split_ifs <;> cases fate <;> rfl
  | acquireFence owner =>
    simp only [Handle.exec, Op.exec, acquireFence, run_bind, run_inner, run_appendFrame, Handle.step, Op.frame]
    split_ifs <;> cases fate <;> rfl
  | createBranch baseLsn =>
    simp only [Handle.exec, Op.exec, createBranch, run_bind, run_inner, run_ite, run_throw, run_appendFrame,
      Handle.step, Op.frame]
    by_cases hfloor : baseLsn.toNat < h.inner.retentionFloor
    · simp only [hfloor, if_true]
    · simp only [hfloor, if_false]
      split_ifs <;> cases fate <;> rfl
  | deleteBranch branch =>
    simp only [Handle.exec, Op.exec, deleteBranch, run_bind, run_inner, run_ite, run_throw, run_appendFrame,
      Handle.step, Op.frame]
    by_cases hknown : (h.inner.branches.lookup branch.toNat).isNone = true
    · simp only [hknown, if_true]
    · by_cases hchild : h.inner.branches.values.any (·.parent == branch.toNat) = true
      · simp only [if_neg hknown, if_pos hchild]
      · simp only [if_neg hknown, if_neg hchild]
        split_ifs <;> cases fate <;> rfl
  | setRetentionFloor lsn =>
    simp only [Handle.exec, Op.exec, setRetentionFloor, run_bind, run_inner, run_ite, run_throw, run_appendFrame,
      Handle.step, Op.frame]
    by_cases hfloor : lsn.toNat < h.inner.retentionFloor
    · simp only [hfloor, if_true]
    · simp only [hfloor, if_false]
      split_ifs <;> cases fate <;> rfl

/-! ## Frames read back -/

section Reading

variable {tag : UInt8} {payload rest : Bytes} {next next' : Nat} {f : Frame}

@[simp] theorem length_frameBytes (tag : UInt8) (payload : Bytes) :
    (frameBytes tag payload).length = payload.length + 9 := by
  simp only [frameBytes, List.length_append, List.length_cons, length_toLE]
  omega

/-- The reader on a whole frame. -/
theorem readFrame_frameBytes (hlen : payload.length < 2 ^ 32 - 1)
    (hread : readPayload next tag payload = (some f, next')) (rest : Bytes) :
    readFrame next (frameBytes tag payload ++ rest) = .item f (frameBytes tag payload).length next' := by
  have hword : ofLE ((frameBytes tag payload ++ rest).take 4) = payload.length + 1 := by
    have htake : (frameBytes tag payload ++ rest).take 4 = toLE 4 (payload.length + 1) := by
      simp only [frameBytes, List.append_assoc]
      exact List.take_left' (length_toLE 4 _)
    rw [htake, ofLE_toLE (by omega)]
  have hdrop : (frameBytes tag payload ++ rest).drop 4 =
      (tag :: payload) ++ (toLE 4 (crc32Pair tag payload).toNat ++ rest) := by
    simp only [frameBytes, List.append_assoc]
    exact List.drop_left' (length_toLE 4 _)
  have hbody : ((frameBytes tag payload ++ rest).drop 4).take (payload.length + 1) = tag :: payload := by
    rw [hdrop]
    exact List.take_left' rfl
  have hcrc : ofLE (((frameBytes tag payload ++ rest).drop (4 + (payload.length + 1))).take 4) =
      (crc32Pair tag payload).toNat := by
    rw [← List.drop_drop, hdrop, List.drop_left' (by simp), List.take_left' (length_toLE 4 _)]
    exact ofLE_toLE (crc32Pair tag payload).toNat_lt
  have hsize : ¬ (frameBytes tag payload ++ rest).length < 4 := by
    simp only [List.length_append, length_frameBytes]
    omega
  have hfit : ¬ (payload.length + 1 = 0 ∨
      (frameBytes tag payload ++ rest).length < 4 + (payload.length + 1) + 4) := by
    simp only [List.length_append, length_frameBytes]
    omega
  have hsum : crc32 (tag :: payload) = crc32Pair tag payload := rfl
  simp only [readFrame, hword, hbody, hcrc, hsum, if_neg hsize, if_neg hfit, ne_eq, not_true, if_false, hread,
    length_frameBytes]
  congr 1
  omega

/-- The reader on a frame cut short: at its length word, or at the length it announces. -/
theorem readFrame_cut (hlen : payload.length < 2 ^ 32 - 1) {n : Nat} (hn : n < payload.length + 9) :
    readFrame next ((frameBytes tag payload).take n) = .stop next := by
  have hlength : ((frameBytes tag payload).take n).length = n := by
    rw [List.length_take, length_frameBytes]
    omega
  unfold readFrame
  by_cases h4 : n < 4
  · rw [if_pos (by omega)]
  · have htake : ((frameBytes tag payload).take n).take 4 = toLE 4 (payload.length + 1) := by
      rw [List.take_take, min_eq_left (by omega)]
      simp only [frameBytes, List.append_assoc]
      exact List.take_left' (length_toLE 4 _)
    rw [if_neg (by omega), htake, ofLE_toLE (by omega), if_pos (by omega)]

theorem take_drop_append {all tail : Bytes} {i n : Nat} (h : i + n ≤ all.length) :
    ((all ++ tail).drop i).take n = (all.drop i).take n := by
  rw [List.drop_append_of_le_length (by omega), List.take_append_of_le_length (by rw [List.length_drop]; omega)]

/-- What the reader makes of a frame does not depend on what follows it. -/
theorem local_readFrame : Framing.Local readFrame where
  done := fun _ => rfl
  item := by
    intro next next' input f size h
    by_cases h4 : input.length < 4
    · rw [readFrame, if_pos h4] at h
      exact absurd h (by simp)
    obtain ⟨len, hlen⟩ : ∃ len, len = ofLE (input.take 4) := ⟨_, rfl⟩
    by_cases hfit : len = 0 ∨ input.length < 4 + len + 4
    · rw [readFrame, if_neg h4] at h
      dsimp only at h
      rw [← hlen, if_pos hfit] at h
      exact absurd h (by simp)
    obtain ⟨hpos, hsize⟩ := not_or.mp hfit
    have hcut (rest : Bytes) {i n : Nat} (hin : i + n ≤ 4 + len + 4) :
        ((input.take (4 + len + 4) ++ rest).drop i).take n = (input.drop i).take n := by
      rw [take_drop_append (by rw [List.length_take]; omega), List.drop_take, List.take_take, min_eq_left (by omega)]
    -- the frame's own bytes are all the reader looks at
    have hsame (rest : Bytes) : readFrame next (input.take (4 + len + 4) ++ rest) = readFrame next input := by
      have hlong : ¬ (input.take (4 + len + 4) ++ rest).length < 4 := by
        rw [List.length_append, List.length_take]
        omega
      have hword : (input.take (4 + len + 4) ++ rest).take 4 = input.take 4 := hcut rest (i := 0) (by omega)
      have hfit' : ¬ (len = 0 ∨ (input.take (4 + len + 4) ++ rest).length < 4 + len + 4) := by
        rw [List.length_append, List.length_take]
        omega
      rw [readFrame, readFrame, if_neg h4, if_neg hlong]
      dsimp only
      rw [hword, ← hlen, if_neg hfit, if_neg hfit', hcut rest (by omega), hcut rest (by omega)]
    have hitem : size = 4 + len + 4 := by
      rw [readFrame, if_neg h4] at h
      dsimp only at h
      rw [← hlen, if_neg hfit] at h
      split at h
      · exact absurd h (by simp)
      · split at h
        · exact absurd h (by simp)
        · split at h
          · exact (by simpa using h.symm : _ ∧ _ ∧ _).2.1
          · exact absurd h (by simp)
    subst hitem
    exact ⟨by omega, by omega, fun rest => (hsame rest).trans h⟩

/-- A log read to its end is read so with a tail that the reader refuses, too. -/
theorem readLog_extend {log tail : Bytes} {frames : List Frame} {next next' : Nat}
    (h : readLog log = .ok (frames, log.length, next)) (hstop : readFrame next tail = .stop next') :
    readLog (log ++ tail) = .ok (frames, log.length, next') := by
  unfold readLog at h ⊢
  by_cases hlong : log.length < HEADER_SIZE
  · rw [if_pos hlong] at h
    exact absurd h (by simp)
  have hheader : HEADER_SIZE ≤ log.length := Nat.not_lt.mp hlong
  have hlong' : ¬ (log ++ tail).length < HEADER_SIZE := by rw [List.length_append]; omega
  have h16 : 16 ≤ log.length := le_trans (by decide) hheader
  have htake : ∀ i n, i + n ≤ 16 → ((log ++ tail).drop i).take n = (log.drop i).take n :=
    fun i n hin => take_drop_append (hin.trans h16)
  have hmagic : (log ++ tail).take 8 = log.take 8 := htake 0 8 (by decide)
  have hdrop : (log ++ tail).drop HEADER_SIZE = log.drop HEADER_SIZE ++ tail := List.drop_append_of_le_length hheader
  rw [if_neg hlong] at h
  rw [if_neg hlong', hmagic, htake 8 4 (by decide), htake 12 4 (by decide), hdrop]
  split at h
  · exact absurd h (by simp)
  next hmagic =>
  rw [if_neg hmagic]
  dsimp only at h ⊢
  split at h
  · exact absurd h (by simp)
  next hformat =>
  rw [if_neg hformat]
  split at h
  · exact absurd h (by simp)
  next hpage =>
  rw [if_neg hpage]
  obtain ⟨fs, size, n, hread⟩ : ∃ fs size n,
      Framing.readAll readFrame (log.length + 1) 1 (log.drop HEADER_SIZE) = (fs, size, n) := ⟨_, _, _, rfl⟩
  rw [hread] at h
  obtain ⟨rfl, hsize, rfl⟩ : fs = frames ∧ HEADER_SIZE + size = log.length ∧ n = next := by simpa using h
  have hwhole : size = (log.drop HEADER_SIZE).length := by rw [List.length_drop]; omega
  rw [hwhole] at hread
  obtain ⟨cs, hcs, hne, hreads⟩ := local_readFrame.reads_of_readAll hread
  have hcount := Framing.length_le_length_flatten hne
  have hlength : cs.flatten.length = log.length - HEADER_SIZE := by rw [← hcs, List.length_drop]
  have hfuel : cs.length < (log ++ tail).length + 1 := by rw [List.length_append]; omega
  have hall := Framing.readAll_of_reads hreads hstop hfuel
  rw [hcs, hall, hlength]
  simp only [Except.ok.injEq, Prod.mk.injEq, and_true, true_and]
  omega

theorem length_walPayload_le {records : List WalRecord} :
    records.length + 4 ≤ (walPayload records).length ∧ ∀ r ∈ records, r.length ≤ (walPayload records).length := by
  have hsum : ∀ l : List WalRecord, l.length ≤ (l.flatMap fun r => toLE 4 r.length ++ r).length ∧
      ∀ r ∈ l, r.length ≤ (l.flatMap fun r => toLE 4 r.length ++ r).length := by
    intro l
    induction l with
    | nil => simp
    | cons r l ih =>
      refine ⟨?_, fun r' hr' => ?_⟩
      · simp only [List.length_cons, List.flatMap_cons, List.length_append, length_toLE]
        have := ih.1
        omega
      · simp only [List.flatMap_cons, List.length_append, length_toLE]
        rcases List.mem_cons.1 hr' with rfl | hr'
        · omega
        · have := ih.2 r' hr'
          omega
  simp only [walPayload, List.length_append, length_toLE]
  refine ⟨?_, fun r hr => ?_⟩
  · have := (hsum records).1
    omega
  · have := (hsum records).2 r hr
    omega

theorem length_numbered : ∀ (next : Nat) (records : List WalRecord),
    (numbered next records).length = records.length
  | _, [] => rfl
  | next, r :: records => by simp [numbered, length_numbered (next + 1) records]

theorem readRecords_flatMap : ∀ (records : List WalRecord) (next : Nat),
    (∀ r ∈ records, r.length < 2 ^ 32) →
      readRecords records.length next (records.flatMap fun r => toLE 4 r.length ++ r) =
        (numbered next records, next + records.length, false)
  | [], next, _ => rfl
  | r :: records, next, h => by
    have ih := readRecords_flatMap records (next + 1) fun r' hr' => h r' (by simp [hr'])
    have hr : r.length < 256 ^ 4 := by simpa using h r (by simp)
    have hword : ((toLE 4 r.length ++ (r ++ records.flatMap fun r => toLE 4 r.length ++ r))).take 4 =
        toLE 4 r.length := List.take_left' (length_toLE 4 _)
    have hrest : ((toLE 4 r.length ++ (r ++ records.flatMap fun r => toLE 4 r.length ++ r))).drop 4 =
        r ++ records.flatMap fun r => toLE 4 r.length ++ r := List.drop_left' (length_toLE 4 _)
    have h4 : ¬ ((toLE 4 r.length ++ (r ++ records.flatMap fun r => toLE 4 r.length ++ r))).length < 4 := by simp
    have hlong : ¬ (r ++ records.flatMap fun r => toLE 4 r.length ++ r).length < r.length := by simp
    simp only [List.flatMap_cons, List.append_assoc, List.length_cons, readRecords, hword, hrest, ofLE_toLE hr,
      if_neg h4, if_neg hlong, List.take_left, List.drop_left, ih, numbered]
    simp only [Prod.mk.injEq, true_and, and_true]
    omega

theorem getLast?_numbered : ∀ (records : List WalRecord) (next : Nat), records ≠ [] →
    ((numbered next records).getLast?.map (·.lsn)).getD 0 = next + records.length - 1
  | [], _, h => absurd rfl h
  | [r], next, _ => rfl
  | r :: r' :: records, next, _ => by
    have ih := getLast?_numbered (r' :: records) (next + 1) (by simp)
    have hcons : (numbered next (r :: r' :: records)).getLast? =
        (numbered (next + 1) (r' :: records)).getLast? := by
      simp [numbered, List.getLast?_cons_cons]
    rw [hcons, ih]
    simp only [List.length_cons]
    omega

theorem readPayload_wal {records : List WalRecord} (hne : records ≠ [])
    (hlen : (walPayload records).length < 2 ^ 32 - 1) :
    readPayload next T_WAL (walPayload records) =
      (some (.wal (numbered next records) (next + records.length - 1)), next + records.length) := by
  obtain ⟨hcount, hrecord⟩ := length_walPayload_le
  have hword : (walPayload records).take 4 = toLE 4 records.length := List.take_left' (length_toLE 4 _)
  have hrest : (walPayload records).drop 4 = records.flatMap fun r => toLE 4 r.length ++ r :=
    List.drop_left' (length_toLE 4 _)
  have hread := readRecords_flatMap records next fun r hr => by
    have := hrecord r hr
    omega
  have h4 : ¬ (walPayload records).length < 4 := by omega
  have hlt : records.length < 256 ^ 4 := by omega
  simp only [readPayload, if_true, if_neg h4, hword, ofLE_toLE hlt, hrest, hread, length_numbered,
    getLast?_numbered records next hne, bne_self_eq_false, Bool.or_self, Bool.false_eq_true, if_false]

theorem ofLE_u64 {n : Nat} (h : n < U64) : ofLE (toLE 8 n) = n :=
  ofLE_toLE (by simpa [U64] using h)

theorem ofLE_take_u64 {n : Nat} (h : n < U64) (rest : Bytes) : ofLE ((toLE 8 n ++ rest).take 8) = n := by
  rw [List.take_left' (length_toLE 8 n), ofLE_u64 h]

end Reading

/-! ## The log of a handle -/

/-- The counters recovery starts from. -/
def Inner.blank : Inner := ⟨0, 0, 0, 0, 0, 0, ∅, ∅, 1⟩

/-- The part of the counters recovery takes from the frames. -/
def Inner.replayed (g : Inner) : Inner := { g with fileEnd := 0, nextLsn := 0 }

/-- `log` is a well-formed file, it reads as `frames`, and they replay to `g`. -/
structure Logged (log : Bytes) (frames : List Frame) (g : Inner) : Prop where
  chunks : ∃ chunks, log = header ++ chunks.flatten ∧ (∀ c ∈ chunks, c ≠ []) ∧
    Reads readFrame 1 chunks frames g.nextLsn
  recovered : frames.foldl recoverFrame Inner.blank = g.replayed
  fileEnd : g.fileEnd = log.length
  fits : g.fileEnd ≤ MAX_OFFSET
  durable : g.durableLsn < g.nextLsn
  commit : g.commitLsn < g.nextLsn
  epoch : g.epoch < g.fileEnd
  branch : g.nextBranchId < g.fileEnd

theorem length_header : header.length = HEADER_SIZE := by decide

namespace Op

variable {g : Inner} {op : Op} {tag : UInt8} {payload : Bytes}

/-- An operation's frame reads back as the record of the operation. -/
theorem readPayload_frame (hframe : op.frame g = .ok (tag, payload)) (hlen : payload.length < 2 ^ 32 - 1)
    (hepoch : g.epoch + 1 < U64) (hbranch : g.nextBranchId < U64) (size : Nat) :
    readPayload g.nextLsn tag payload = (some (op.parsed g), (op.applied g size).nextLsn) := by
  cases op with
  | appendWal token records =>
    simp only [frame] at hframe
    split_ifs at hframe with hempty hfence
    obtain ⟨rfl, rfl⟩ : T_WAL = tag ∧ walPayload records = payload := by simpa using hframe
    have hne : records ≠ [] := by simpa using hempty
    have hpos : 0 < records.length := List.length_pos_iff.2 hne
    rw [readPayload_wal hne hlen]
    simp only [parsed, applied, Prod.mk.injEq, true_and]
    omega
  | putPage token pageId image =>
    simp only [frame] at hframe
    split_ifs at hframe with hsize hfence
    obtain ⟨rfl, rfl⟩ : T_PAGE = tag ∧ toLE 8 pageId.toNat ++ image = payload := by simpa using hframe
    have h8 : ¬ (toLE 8 pageId.toNat ++ image).length < 8 := by simp
    simp only [readPayload, if_neg h8, ofLE_take_u64 pageId.toNat_lt, List.drop_left' (length_toLE 8 _), parsed,
      applied, Inner.pushPage]
    rfl
  | acquireFence owner =>
    obtain ⟨rfl, rfl⟩ : T_FENCE = tag ∧ toLE 8 (g.epoch + 1) = payload := by simpa [frame] using hframe
    have h8 : ¬ (toLE 8 (g.epoch + 1)).length < 8 := by simp
    have htake : (toLE 8 (g.epoch + 1)).take 8 = toLE 8 (g.epoch + 1) := List.take_of_length_le (by simp)
    simp only [readPayload, if_neg h8, htake, ofLE_u64 hepoch, parsed, applied]
    rfl
  | createBranch baseLsn =>
    simp only [frame] at hframe
    split_ifs at hframe with hfloor
    obtain ⟨rfl, rfl⟩ : T_BRANCH = tag ∧
        toLE 8 g.nextBranchId ++ toLE 8 baseLsn.toNat ++ toLE 8 ROOT = payload := by
      simpa using hframe
    have h24 : ¬ (toLE 8 g.nextBranchId ++ toLE 8 baseLsn.toNat ++ toLE 8 ROOT).length < 24 := by simp
    have hid : ofLE ((toLE 8 g.nextBranchId ++ toLE 8 baseLsn.toNat ++ toLE 8 ROOT).take 8) = g.nextBranchId := by
      rw [List.append_assoc]
      exact ofLE_take_u64 hbranch _
    have hbase : ofLE (((toLE 8 g.nextBranchId ++ toLE 8 baseLsn.toNat ++ toLE 8 ROOT).drop 8).take 8) =
        baseLsn.toNat := by
      rw [List.append_assoc, List.drop_left' (length_toLE 8 _)]
      exact ofLE_take_u64 baseLsn.toNat_lt _
    have hparent : ofLE (((toLE 8 g.nextBranchId ++ toLE 8 baseLsn.toNat ++ toLE 8 ROOT).drop 16).take 8) = ROOT := by
      rw [List.drop_left' (by simp), List.take_of_length_le (by simp)]
      rfl
    simp only [readPayload, if_neg h24, hid, hbase, hparent, parsed, applied]
    rfl
  | deleteBranch branch =>
    simp only [frame] at hframe
    split_ifs at hframe with hknown hchild
    obtain ⟨rfl, rfl⟩ : T_BRANCH_DEL = tag ∧ toLE 8 branch.toNat = payload := by simpa using hframe
    have h8 : ¬ (toLE 8 branch.toNat).length < 8 := by simp
    have htake : (toLE 8 branch.toNat).take 8 = toLE 8 branch.toNat := List.take_of_length_le (by simp)
    simp only [readPayload, if_neg h8, htake, ofLE_u64 branch.toNat_lt, parsed, applied]
    rfl
  | setRetentionFloor lsn =>
    simp only [frame] at hframe
    split_ifs at hframe with hfloor
    obtain ⟨rfl, rfl⟩ : T_RETENTION = tag ∧ toLE 8 lsn.toNat = payload := by simpa using hframe
    have h8 : ¬ (toLE 8 lsn.toNat).length < 8 := by simp
    have htake : (toLE 8 lsn.toNat).take 8 = toLE 8 lsn.toNat := List.take_of_length_le (by simp)
    simp only [readPayload, if_neg h8, htake, ofLE_u64 lsn.toNat_lt, parsed, applied]
    rfl

/-- Replaying the record changes the counters as the live operation did. -/
theorem recoverFrame_parsed (hframe : op.frame g = .ok (tag, payload)) (hdurable : g.durableLsn < g.nextLsn)
    (hcommit : g.commitLsn < g.nextLsn) (size : Nat) :
    recoverFrame g.replayed (op.parsed g) = (op.applied g size).replayed := by
  cases op with
  | appendWal token records =>
    simp only [frame] at hframe
    split_ifs at hframe with hempty hfence
    have hpos : 0 < records.length := List.length_pos_iff.2 (by simpa using hempty)
    simp only [parsed, recoverFrame, applied, Inner.replayed, Inner.mk.injEq, and_true, true_and]
    omega
  | putPage token pageId image =>
    simp only [parsed, recoverFrame, applied, Inner.replayed, Inner.pushPage, Inner.mk.injEq, and_true, true_and]
    omega
  | acquireFence owner =>
    simp only [parsed, recoverFrame, applied, Inner.replayed, Inner.mk.injEq, and_true, true_and]
    omega
  | createBranch baseLsn =>
    simp only [parsed, recoverFrame, applied, Inner.replayed, Inner.mk.injEq, true_and]
    omega
  | deleteBranch branch => rfl
  | setRetentionFloor lsn =>
    simp only [frame] at hframe
    split_ifs at hframe with hfloor
    simp only [parsed, recoverFrame, applied, Inner.replayed, Inner.mk.injEq, and_true, true_and]
    omega

theorem applied_fileEnd (size : Nat) : (op.applied g size).fileEnd = g.fileEnd + size := by
  cases op <;> rfl

theorem applied_epoch_le (size : Nat) : (op.applied g size).epoch ≤ g.epoch + 1 := by
  cases op <;> simp [applied, Inner.pushPage]

theorem applied_branch_le (size : Nat) : (op.applied g size).nextBranchId ≤ g.nextBranchId + 1 := by
  cases op <;> simp [applied, Inner.pushPage]

theorem applied_durable_lt (hframe : op.frame g = .ok (tag, payload)) (hdurable : g.durableLsn < g.nextLsn)
    (hcommit : g.commitLsn < g.nextLsn) (size : Nat) :
    (op.applied g size).durableLsn < (op.applied g size).nextLsn ∧
      (op.applied g size).commitLsn < (op.applied g size).nextLsn := by
  cases op <;> simp only [applied, Inner.pushPage] <;> omega

end Op

namespace Logged

variable {log : Bytes} {frames : List Frame} {g : Inner} {op : Op} {tag : UInt8} {payload : Bytes}

theorem create : Logged header [] Inner.new where
  chunks := ⟨[], by simp, by simp, .nil⟩
  recovered := rfl
  fileEnd := by rw [length_header]; rfl
  fits := by decide
  durable := by decide
  commit := by decide
  epoch := by decide
  branch := by decide

theorem readFrame_op (h : Logged log frames g) (hframe : op.frame g = .ok (tag, payload))
    (hlen : payload.length < 2 ^ 32 - 1) (rest : Bytes) (size : Nat) :
    readFrame g.nextLsn (frameBytes tag payload ++ rest) =
      .item (op.parsed g) (frameBytes tag payload).length (op.applied g size).nextLsn := by
  have hfits := h.fits
  have hepoch := h.epoch
  have hbranch := h.branch
  simp only [MAX_OFFSET] at hfits
  refine readFrame_frameBytes hlen (Op.readPayload_frame hframe hlen ?_ ?_ size) rest
  · simp only [U64]
    omega
  · simp only [U64]
    omega

/-- An appended frame extends the log by the record of its operation. -/
theorem append (h : Logged log frames g) (hframe : op.frame g = .ok (tag, payload))
    (hlen : payload.length < 2 ^ 32 - 1) (hfits : g.fileEnd + (frameBytes tag payload).length ≤ MAX_OFFSET) :
    Logged (log ++ frameBytes tag payload) (frames ++ [op.parsed g])
      (op.applied g (frameBytes tag payload).length) := by
  obtain ⟨chunks, hlog, hne, hreads⟩ := h.chunks
  obtain ⟨hdurable, hcommit⟩ :=
    Op.applied_durable_lt hframe h.durable h.commit (frameBytes tag payload).length
  have hepoch := @Op.applied_epoch_le g op (frameBytes tag payload).length
  have hbranch := @Op.applied_branch_le g op (frameBytes tag payload).length
  have hend := @Op.applied_fileEnd g op (frameBytes tag payload).length
  have hsize : 9 ≤ (frameBytes tag payload).length := by simp
  have hepoch' := h.epoch
  have hbranch' := h.branch
  refine ⟨⟨chunks ++ [frameBytes tag payload], ?_, ?_, ?_⟩, ?_, ?_, ?_, hdurable, hcommit, ?_, ?_⟩
  · rw [hlog]
    simp
  · intro c hc
    rcases List.mem_append.1 hc with hc | hc
    · exact hne c hc
    · rw [List.mem_singleton.1 hc, ← List.length_pos_iff]
      omega
  · exact hreads.snoc fun rest => h.readFrame_op hframe hlen rest _
  · rw [List.foldl_append, h.recovered]
    exact Op.recoverFrame_parsed hframe h.durable h.commit _
  · rw [hend, h.fileEnd, List.length_append]
  · rw [hend]
    exact hfits
  · omega
  · omega

/-- The reader on a log with a tail. -/
theorem readLog_tail (h : Logged log frames g) (tail : Bytes) : ∃ fuel,
    readLog (log ++ tail) = .ok (frames ++ (Framing.readAll readFrame (fuel + 1) g.nextLsn tail).1,
      g.fileEnd + (Framing.readAll readFrame (fuel + 1) g.nextLsn tail).2.1,
      (Framing.readAll readFrame (fuel + 1) g.nextLsn tail).2.2) := by
  obtain ⟨chunks, hlog, hne, hreads⟩ := h.chunks
  have hcount := Framing.length_le_length_flatten hne
  have hlength : (log ++ tail).length = HEADER_SIZE + chunks.flatten.length + tail.length := by
    rw [hlog]
    simp only [List.length_append, length_header]
  have hdrop : (log ++ tail).drop HEADER_SIZE = chunks.flatten ++ tail := by
    rw [hlog, List.append_assoc]
    exact List.drop_left' length_header
  obtain ⟨fuel, hfuel⟩ : ∃ fuel, (log ++ tail).length + 1 = chunks.length + (fuel + 1) :=
    ⟨(log ++ tail).length - chunks.length, by omega⟩
  have htake : ∀ i n, i + n ≤ HEADER_SIZE → ((log ++ tail).drop i).take n = (header.drop i).take n := by
    intro i n hi
    rw [hlog, List.append_assoc, List.drop_append_of_le_length (by rw [length_header]; omega),
      List.take_append_of_le_length (by rw [List.length_drop, length_header]; omega)]
  have hmagic : (log ++ tail).take 8 = MAGIC := htake 0 8 (by decide)
  have hformat : ofLE (((log ++ tail).drop 8).take 4) = FORMAT_VERSION := by
    rw [htake 8 4 (by decide)]
    decide
  have hpage : ofLE (((log ++ tail).drop 12).take 4) = PAGE_SIZE := by
    rw [htake 12 4 (by decide)]
    decide
  have hlong : ¬ (log ++ tail).length < HEADER_SIZE := by omega
  have hend : g.fileEnd = HEADER_SIZE + chunks.flatten.length := by
    rw [h.fileEnd, hlog, List.length_append, length_header]
  refine ⟨fuel, ?_⟩
  simp only [readLog, if_neg hlong, hmagic, hformat, hpage, ne_eq, not_true, if_false, hdrop, hfuel,
    Framing.readAll_append hreads, hend, Nat.add_assoc]

/-- The reader on a log with a tail it refuses. -/
theorem readLog_append (h : Logged log frames g) {tail : Bytes} {next : Nat}
    (hstop : readFrame g.nextLsn tail = .stop next) :
    readLog (log ++ tail) = .ok (frames, g.fileEnd, next) := by
  obtain ⟨fuel, hread⟩ := h.readLog_tail tail
  rw [hread]
  simp [Framing.readAll, hstop]

theorem recover_append (h : Logged log frames g) {tail : Bytes}
    (hstop : readFrame g.nextLsn tail = .stop g.nextLsn) : recover (log ++ tail) = .ok g := by
  rw [recover, h.readLog_append hstop]
  show Except.ok { frames.foldl recoverFrame Inner.blank with fileEnd := g.fileEnd, nextLsn := g.nextLsn } = _
  rw [h.recovered]
  rfl

end Logged

/-- The records a recovered frame gives `scan_wal`. -/
def Frame.entries : Frame → List LogEntry
  | .wal records _ => records
  | _ => []

theorem Logged.scanWal_append {log tail : Bytes} {frames : List Frame} {g : Inner} {next : Nat}
    (h : Logged log frames g) (hstop : readFrame g.nextLsn tail = .stop next) (after : Nat) :
    scanWal (log ++ tail) after = .ok ((frames.flatMap Frame.entries).filter (after < ·.lsn)) := by
  rw [scanWal, h.readLog_append hstop]
  show Except.ok (frames.flatMap fun
    | .wal records _ => records.filter (after < ·.lsn)
    | _ => []) = _
  rw [List.filter_flatMap]
  congr 1
  refine List.flatMap_congr fun f _ => ?_
  cases f <;> rfl

/-! ## Runs -/

namespace Handle

/-- The handle after some operations, each with the fate of its write. -/
def runAll (h : Handle) (steps : List (Op × Fate)) : Handle :=
  steps.foldl (fun h s => (h.exec s.2 s.1).2) h

/-- Each operation with its answer. -/
def answers : Handle → List (Op × Fate) → List (Op × Except StorageError Ack)
  | _, [] => []
  | h, s :: steps => (s.1, (h.exec s.2 s.1).1) :: answers (h.exec s.2 s.1).2 steps

/-- No frame's payload reaches the `u32` length word's limit. -/
def shortFrames : Handle → List (Op × Fate) → Bool
  | _, [] => true
  | h, s :: steps =>
    (match s.1.frame h.inner with
      | .ok (_, payload) => decide (payload.length < 2 ^ 32 - 1)
      | .error _ => true) && shortFrames (h.exec s.2 s.1).2 steps

end Handle

/-- The records of the acked batches, numbered up to the LSN each append answered. -/
def ackedRecords (answers : List (Op × Except StorageError Ack)) : List LogEntry :=
  answers.flatMap fun
    | (.appendWal _ records, .ok (.lsn last)) => numbered (last + 1 - records.length) records
    | _ => []

/-- Operations whose writes all succeed. -/
def allOk (ops : List Op) : List (Op × Fate) := ops.map (·, none)

/-- The handle on a new file after some operations. -/
def live (ops : List Op) : Handle := Handle.create.runAll (allOk ops)

/-- How many operations a file cut at `n` keeps: all up to the last whose frame
lies wholly before the cut. -/
def survivors (ops : List Op) (n : Nat) : Nat :=
  Nat.findGreatest (fun k => (live (ops.take k)).file.length ≤ n) ops.length

theorem shortFrames_cons {H : Handle} {op : Op} {fate : Fate} {steps : List (Op × Fate)}
    (h : H.shortFrames ((op, fate) :: steps) = true) :
    (∀ tag payload, op.frame H.inner = .ok (tag, payload) → payload.length < 2 ^ 32 - 1) ∧
      (H.exec fate op).2.shortFrames steps = true := by
  simp only [Handle.shortFrames, Bool.and_eq_true] at h
  refine ⟨fun tag payload hframe => ?_, h.2⟩
  simpa [hframe] using h.1

theorem Handle.runAll_append (h : Handle) (a b : List (Op × Fate)) :
    h.runAll (a ++ b) = (h.runAll a).runAll b := List.foldl_append ..

theorem shortFrames_append (h : Handle) (a b : List (Op × Fate)) :
    h.shortFrames (a ++ b) = (h.shortFrames a && (h.runAll a).shortFrames b) := by
  induction a generalizing h with
  | nil => rfl
  | cons s a ih =>
    simp only [List.cons_append, Handle.shortFrames, ih, Bool.and_assoc]
    rfl

theorem allOk_take_append_drop (ops : List Op) (k : Nat) :
    allOk ops = allOk (ops.take k) ++ allOk (ops.drop k) := by
  simp only [allOk]
  rw [← List.map_append, List.take_append_drop]

namespace Logged

variable {H : Handle} {frames : List Frame} {op : Op}

/-- An operation whose write succeeds: refused with nothing changed, or its
frame is appended. -/
theorem exec (h : Logged H.file frames H.inner)
    (hshort : ∀ tag payload, op.frame H.inner = .ok (tag, payload) → payload.length < 2 ^ 32 - 1) :
    (∃ e, H.exec none op = (.error e, H)) ∨
      ∃ tag payload H', H.exec none op = (.ok (op.ack H.inner), H') ∧ op.frame H.inner = .ok (tag, payload) ∧
        H'.file = H.file ++ frameBytes tag payload ∧
        Logged H'.file (frames ++ [op.parsed H.inner]) H'.inner := by
  rw [Handle.exec_eq, Handle.step]
  cases hframe : op.frame H.inner with
  | error e => exact .inl ⟨e, rfl⟩
  | ok frame =>
    obtain ⟨tag, payload⟩ := frame
    dsimp only
    split_ifs with hmax
    · exact .inl ⟨_, rfl⟩
    · have hfile : Framing.writeAt 0 H.file H.inner.fileEnd (frameBytes tag payload) =
          H.file ++ frameBytes tag payload := by
        rw [h.fileEnd, Framing.writeAt_end]
      refine .inr ⟨tag, payload, _, rfl, rfl, hfile, ?_⟩
      rw [hfile]
      exact h.append hframe (hshort tag payload hframe) (by omega)

/-- The record of an accepted operation holds the records its answer numbers. -/
theorem entries_parsed {tag : UInt8} {payload : Bytes} {g : Inner} (hframe : op.frame g = .ok (tag, payload)) :
    ackedRecords [(op, .ok (op.ack g))] = (op.parsed g).entries := by
  cases op with
  | appendWal token records =>
    simp only [Op.frame] at hframe
    split_ifs at hframe with hempty hfence
    have hpos : 0 < records.length := List.length_pos_iff.2 (by simpa using hempty)
    have hfirst : g.nextLsn + records.length - 1 + 1 - records.length = g.nextLsn := by omega
    simp only [ackedRecords, List.flatMap_cons, List.flatMap_nil, List.append_nil, Op.ack, Op.parsed, Frame.entries,
      hfirst]
  | putPage token pageId image => rfl
  | acquireFence owner => rfl
  | createBranch baseLsn => rfl
  | deleteBranch branch => rfl
  | setRetentionFloor lsn => rfl

/-- A whole run without faults keeps the log, extends the file, and logs what it acks. -/
theorem run : ∀ {ops : List Op} {H : Handle} {frames : List Frame}, Logged H.file frames H.inner →
    H.shortFrames (allOk ops) = true →
    ∃ more, Logged (H.runAll (allOk ops)).file (frames ++ more) (H.runAll (allOk ops)).inner ∧
      more.flatMap Frame.entries = ackedRecords (H.answers (allOk ops)) ∧
      H.file <+: (H.runAll (allOk ops)).file
  | [], H, frames, h, _ => by
    refine ⟨[], ?_, rfl, List.prefix_refl _⟩
    rw [List.append_nil]
    exact h
  | op :: ops, H, frames, h, hshort => by
    obtain ⟨hop, hrest⟩ := shortFrames_cons hshort
    have hcons : ∀ a, ackedRecords ((op, a) :: (H.exec none op).2.answers (allOk ops)) =
        ackedRecords [(op, a)] ++ ackedRecords ((H.exec none op).2.answers (allOk ops)) := by
      intro a
      rw [← List.singleton_append]
      exact List.flatMap_append
    show ∃ more, Logged ((H.exec none op).2.runAll (allOk ops)).file (frames ++ more)
        ((H.exec none op).2.runAll (allOk ops)).inner ∧
      more.flatMap Frame.entries = ackedRecords ((op, (H.exec none op).1) :: (H.exec none op).2.answers (allOk ops)) ∧
      H.file <+: ((H.exec none op).2.runAll (allOk ops)).file
    rcases h.exec hop with ⟨e, hexec⟩ | ⟨tag, payload, H', hexec, hframe, hfile, hlogged⟩
    · rw [hcons]
      simp only [hexec] at hrest ⊢
      obtain ⟨more, hlog, hacked, hbefore⟩ := run h hrest
      have hnone : ackedRecords [(op, .error e)] = [] := by
        cases op <;> rfl
      exact ⟨more, hlog, by rw [hacked, hnone, List.nil_append], hbefore⟩
    · rw [hcons]
      simp only [hexec] at hrest ⊢
      obtain ⟨more, hlog, hacked, hbefore⟩ := run hlogged hrest
      refine ⟨op.parsed H.inner :: more, by simpa using hlog, ?_, ?_⟩
      · rw [List.flatMap_cons, hacked, entries_parsed hframe]
      · exact (hfile ▸ List.prefix_append _ _ : H.file <+: H'.file).trans hbefore

end Logged

/-- A log followed by a run, cut before the end of the run's first operation's
frame: the log and a piece of that frame. -/
theorem Logged.take_run {H : Handle} {frames : List Frame} {op : Op} {rest : List Op} {n : Nat}
    (h : Logged H.file frames H.inner) (hshort : H.shortFrames (allOk (op :: rest)) = true)
    (hle : H.file.length ≤ n) (hcut : n < (H.exec none op).2.file.length) :
    ∃ tail, (H.runAll (allOk (op :: rest))).file.take n = H.file ++ tail ∧
      readFrame H.inner.nextLsn tail = .stop H.inner.nextLsn := by
  obtain ⟨hop, hrest⟩ := shortFrames_cons hshort
  have hrun : H.runAll (allOk (op :: rest)) = (H.exec none op).2.runAll (allOk rest) := rfl
  rcases h.exec hop with ⟨e, hexec⟩ | ⟨tag, payload, H', hexec, hframe, hfile, hlogged⟩
  · rw [hexec] at hcut
    exact absurd hcut (Nat.not_lt.2 hle)
  · rw [hexec] at hcut hrest hrun
    obtain ⟨more, -, -, tail, htail⟩ := hlogged.run hrest
    have hlength : H'.file.length = H.file.length + (payload.length + 9) := by
      rw [hfile, List.length_append, length_frameBytes]
    dsimp only at hcut
    refine ⟨(frameBytes tag payload).take (n - H.file.length), ?_, ?_⟩
    · rw [hrun, ← htail, hfile, List.append_assoc, List.take_append, List.take_of_length_le hle,
        List.take_append_of_le_length (by rw [length_frameBytes]; omega)]
    · exact readFrame_cut (hop tag payload hframe) (by omega)

/-- The cut lies at or past the end of the kept operations' frames, and before
the end of the next operation's. -/
theorem survivors_spec {ops : List Op} {n : Nat} (hn : HEADER_SIZE ≤ n) :
    (live (ops.take (survivors ops n))).file.length ≤ n ∧
      ∀ op rest, ops.drop (survivors ops n) = op :: rest →
        n < ((live (ops.take (survivors ops n))).exec none op).2.file.length := by
  refine ⟨?_, fun op rest hdrop => ?_⟩
  · have hzero : (live (ops.take 0)).file.length ≤ n := by
      show header.length ≤ n
      rwa [length_header]
    exact Nat.findGreatest_spec (P := fun k => (live (ops.take k)).file.length ≤ n) (Nat.zero_le _) hzero
  · set k := survivors ops n
    have hlt : k < ops.length := by
      by_contra hge
      rw [List.drop_of_length_le (by omega)] at hdrop
      cases hdrop
    have hget : ops[k]? = some op := by
      rw [← List.head?_drop, hdrop]
      rfl
    have hnot := Nat.findGreatest_is_greatest (P := fun k => (live (ops.take k)).file.length ≤ n)
      (show survivors ops n < k + 1 by omega) (by omega)
    have hlive : live (ops.take (k + 1)) = ((live (ops.take k)).exec none op).2 := by
      rw [List.take_add_one, hget, live, allOk, List.map_append, Handle.runAll_append]
      rfl
    rw [hlive] at hnot
    omega

/-- A run's file cut past its header is the log of the operations whose frames the cut keeps, and
a tail that the reader refuses. -/
theorem take_live {ops : List Op} (hshort : Handle.create.shortFrames (allOk ops) = true) {n : Nat} (hn : HEADER_SIZE ≤ n) :
    let kept := ops.take (survivors ops n)
    ∃ frames tail, Logged (live kept).file frames (live kept).inner ∧
      frames.flatMap Frame.entries = ackedRecords (Handle.create.answers (allOk kept)) ∧
      (live ops).file.take n = (live kept).file ++ tail ∧
      readFrame (live kept).inner.nextLsn tail = .stop (live kept).inner.nextLsn := by
  intro kept
  obtain ⟨hle, hnext⟩ := survivors_spec hn
  have hsplit := allOk_take_append_drop ops (survivors ops n)
  have hlive : live ops = (live kept).runAll (allOk (ops.drop (survivors ops n))) := by
    rw [live, hsplit, Handle.runAll_append]
    rfl
  rw [hsplit, shortFrames_append, Bool.and_eq_true] at hshort
  obtain ⟨frames, hlog, hacked, -⟩ := Logged.create.run hshort.1
  change Logged (live kept).file ([] ++ frames) (live kept).inner at hlog
  suffices htail : ∃ tail, (live ops).file.take n = (live kept).file ++ tail ∧
      readFrame (live kept).inner.nextLsn tail = .stop (live kept).inner.nextLsn by
    obtain ⟨tail, htake, hstop⟩ := htail
    exact ⟨frames, tail, hlog, hacked, htake, hstop⟩
  rw [hlive]
  cases hdrop : ops.drop (survivors ops n) with
  | nil =>
    refine ⟨[], ?_, rfl⟩
    rw [List.append_nil]
    exact List.take_of_length_le hle
  | cons op rest =>
    rw [hdrop] at hshort
    exact hlog.take_run hshort.2 hle (hnext op rest hdrop)

/-- **Crash recovery.** Whatever the operations, and wherever past its header the
file is cut, recovery rebuilds the counters the live handle had after the last
operation whose frame the cut keeps, and the scan returns the acked records up
to there with the LSNs their appends answered. -/
theorem recover_cut (ops : List Op) (hshort : Handle.create.shortFrames (allOk ops) = true) (n : Nat)
    (hn : HEADER_SIZE ≤ n) :
    let kept := ops.take (survivors ops n)
    recover ((live ops).file.take n) = .ok (live kept).inner ∧
      ∀ after, scanWal ((live ops).file.take n) after =
        .ok ((ackedRecords (Handle.create.answers (allOk kept))).filter (after < ·.lsn)) := by
  intro kept
  obtain ⟨frames, tail, hlog, hacked, htake, hstop⟩ := take_live hshort hn
  rw [htake]
  refine ⟨hlog.recover_append hstop, fun after => ?_⟩
  rw [hlog.scanWal_append hstop after, hacked]

/-- A fence, a batch and a page, cut two bytes into the page's frame: the fence
and the batch come back. -/
theorem recover_cut_inside_page :
    let ops : List Op := [.acquireFence 7, .appendWal ⟨1, 7⟩ [[1, 2], [3]], .putPage ⟨1, 7⟩ 5 [9]]
    survivors ops 107 = 2 ∧ (live ops).file.length = 123 ∧
      scanWal ((live ops).file.take 107) 1 = .ok [⟨2, [3]⟩] := by
  intro ops
  have hkept : survivors ops 107 = 2 := by decide +kernel
  refine ⟨hkept, by decide +kernel, ?_⟩
  have h := (recover_cut ops (by decide +kernel) 107 (by decide)).2 1
  rw [hkept] at h
  rw [h]
  decide +kernel

end Twill.Storage.LocalFile
