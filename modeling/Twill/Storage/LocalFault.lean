/-
Failed appends of the single-file backend.

A failed append leaves a prefix of its frame past `end` and the handle goes on
from there, so the next frame overwrites only part of it. What is left over sits
right where the reader looks for the next frame. Nothing is wrong as long as the
reader refuses it, and that is exactly as much as can be said: the leftover is
user data, and user data can spell a frame.
-/
import Twill.Storage.LocalRecovery

namespace Twill.Storage.LocalFile

/-- The operations that were answered `Ok`. -/
def ackedOps (answers : List (Op × Except StorageError Ack)) : List Op :=
  answers.filterMap fun
    | (op, .ok _) => some op
    | (_, .error _) => none

/-- Reopening the file gives what a fault-free run of `ops` gave: its counters
and its acked records. -/
def Recovers (file : Bytes) (ops : List Op) : Prop :=
  recover file = .ok (live ops).inner ∧
    ∀ after, scanWal file after =
      .ok ((ackedRecords (Handle.create.answers (allOk ops))).filter (after < ·.lsn))

/-- Reopening after the run recovers the operations that returned `Ok`, and at
most the failed one when it is the last. -/
def Traceless (steps : List (Op × Fate)) : Prop :=
  let answers := Handle.create.answers steps
  let file := (Handle.create.runAll steps).file
  Recovers file (ackedOps answers) ∨
    ∃ op e, answers.getLast? = some (op, .error e) ∧ Recovers file (ackedOps answers ++ [op])

namespace Handle

/-- The reader refuses these bytes at this LSN. -/
def Refused (next : Nat) (bytes : Bytes) : Prop := readFrame next bytes = .stop next

instance (next : Nat) (bytes : Bytes) : Decidable (Refused next bytes) :=
  inferInstanceAs (Decidable (readFrame next bytes = .stop next))

/-- What a step leaves in the file past the append offset is refused by the
reader; of a failed write it may also be that write's own frame, whole. -/
def CleanStep (h : Handle) (op : Op) (fate : Fate) : Prop :=
  let fileEnd := h.inner.fileEnd
  match op.frame h.inner with
  | .error _ => Refused h.inner.nextLsn (h.file.drop fileEnd)
  | .ok (tag, payload) =>
    let buf := frameBytes tag payload
    let next := (op.applied h.inner buf.length).nextLsn
    payload.length < 2 ^ 32 - 1 ∧
      if MAX_OFFSET < fileEnd + buf.length then Refused h.inner.nextLsn (h.file.drop fileEnd)
      else match fate with
        | none => Refused next (h.file.drop (fileEnd + buf.length))
        | some n =>
          let left := buf.take n ++ h.file.drop (fileEnd + (buf.take n).length)
          Refused h.inner.nextLsn left ∨ (buf <+: left ∧ Refused next (left.drop buf.length))

/-- Every step of the run is clean. -/
def CleanRun : Handle → List (Op × Fate) → Prop
  | _, [] => True
  | h, s :: steps => h.CleanStep s.1 s.2 ∧ CleanRun (h.exec s.2 s.1).2 steps

end Handle

/-! ## A handle beside its fault-free twin -/

/-- The handle's counters are those of a fault-free run of the acked operations,
whose file it holds with some leftover behind. -/
structure Twin (acked : List Op) (h : Handle) (tail : Bytes) : Prop where
  inner : h.inner = (live acked).inner
  file : h.file = (live acked).file ++ tail
  logged : ∃ frames, Logged (live acked).file frames (live acked).inner ∧
    frames.flatMap Frame.entries = ackedRecords (Handle.create.answers (allOk acked))

namespace Twin

variable {acked : List Op} {h : Handle} {tail : Bytes} {op : Op} {tag : UInt8} {payload : Bytes}

theorem create : Twin [] Handle.create [] :=
  ⟨rfl, (List.append_nil _).symm, [], Logged.create, rfl⟩

theorem fileEnd (t : Twin acked h tail) : h.inner.fileEnd = (live acked).file.length := by
  obtain ⟨frames, hlog, -⟩ := t.logged
  rw [t.inner, hlog.fileEnd]

theorem drop_fileEnd (t : Twin acked h tail) (n : Nat) : h.file.drop (h.inner.fileEnd + n) = tail.drop n := by
  rw [t.fileEnd, t.file, ← List.drop_drop, List.drop_left]

theorem writeAt (t : Twin acked h tail) (bytes : Bytes) :
    Framing.writeAt 0 h.file h.inner.fileEnd bytes = (live acked).file ++ (bytes ++ tail.drop bytes.length) := by
  rw [t.fileEnd, t.file, Framing.writeAt_append, List.append_assoc]

/-- A handle whose leftover is refused reopens as its twin. -/
theorem recovers (t : Twin acked h tail) (hstop : Handle.Refused h.inner.nextLsn tail) :
    Recovers h.file acked := by
  obtain ⟨frames, hlog, hentries⟩ := t.logged
  rw [t.inner] at hstop
  rw [t.file]
  refine ⟨hlog.recover_append hstop, fun after => ?_⟩
  rw [hlog.scanWal_append hstop after, hentries]

theorem live_snoc (acked : List Op) (op : Op) : live (acked ++ [op]) = ((live acked).exec none op).2 := by
  rw [live, allOk, List.map_append, Handle.runAll_append]
  rfl

theorem answers_append : ∀ (h : Handle) (a b : List (Op × Fate)),
    h.answers (a ++ b) = h.answers a ++ (h.runAll a).answers b
  | _, [], _ => rfl
  | h, s :: a, b => by
    simp only [List.cons_append, Handle.answers, answers_append (h.exec s.2 s.1).2 a b]
    rfl

/-- The twin's next operation: it logs the frame and nothing else. -/
theorem live_exec (t : Twin acked h tail) (hframe : op.frame h.inner = .ok (tag, payload))
    (hlen : payload.length < 2 ^ 32 - 1)
    (hfits : ¬ MAX_OFFSET < h.inner.fileEnd + (frameBytes tag payload).length) :
    live (acked ++ [op]) =
        ⟨(live acked).file ++ frameBytes tag payload, op.applied h.inner (frameBytes tag payload).length⟩ ∧
      ∃ frames, Logged (live (acked ++ [op])).file frames (live (acked ++ [op])).inner ∧
        frames.flatMap Frame.entries = ackedRecords (Handle.create.answers (allOk (acked ++ [op]))) := by
  obtain ⟨frames, hlog, hentries⟩ := t.logged
  rw [t.inner] at hframe hfits
  have hexec : (live acked).exec none op = (.ok (op.ack (live acked).inner),
      ⟨(live acked).file ++ frameBytes tag payload,
        op.applied (live acked).inner (frameBytes tag payload).length⟩) := by
    rw [Handle.exec_eq, Handle.step, hframe]
    dsimp only
    rw [if_neg hfits, hlog.fileEnd, Framing.writeAt_end]
  have hanswers : Handle.create.answers (allOk (acked ++ [op])) =
      Handle.create.answers (allOk acked) ++ [(op, .ok (op.ack (live acked).inner))] := by
    rw [allOk, List.map_append, answers_append]
    congr 1
    show [(op, ((live acked).exec none op).1)] = _
    rw [hexec]
  rw [live_snoc, hexec, t.inner]
  refine ⟨rfl, frames ++ [op.parsed (live acked).inner], ?_, ?_⟩
  · exact hlog.append hframe hlen (by omega)
  · have hacked : ∀ a b, ackedRecords (a ++ b) = ackedRecords a ++ ackedRecords b :=
      fun a b => List.flatMap_append
    rw [List.flatMap_append, hentries, hanswers, hacked, Logged.entries_parsed hframe]
    simp

/-- A clean step: an operation that fails leaves a file that reopens without it
or with it, one that succeeds leaves a file that reopens with it. -/
theorem exec {fate : Fate} (t : Twin acked h tail) (hclean : h.CleanStep op fate) :
    (∃ e h' tail', h.exec fate op = (.error e, h') ∧ Twin acked h' tail' ∧
        (Recovers h'.file acked ∨ Recovers h'.file (acked ++ [op]))) ∨
      ∃ a h' tail', h.exec fate op = (.ok a, h') ∧ Twin (acked ++ [op]) h' tail' ∧
        Recovers h'.file (acked ++ [op]) := by
  have hdrop : h.file.drop h.inner.fileEnd = tail := t.drop_fileEnd 0
  rw [Handle.exec_eq, Handle.step]
  cases hframe : op.frame h.inner with
  | error e =>
    simp only [Handle.CleanStep, hframe, hdrop] at hclean
    exact .inl ⟨e, h, tail, rfl, t, .inl (t.recovers hclean)⟩
  | ok frame =>
    obtain ⟨tag, payload⟩ := frame
    simp only [Handle.CleanStep, hframe] at hclean
    obtain ⟨hlen, hclean⟩ := hclean
    by_cases hmax : MAX_OFFSET < h.inner.fileEnd + (frameBytes tag payload).length
    · rw [if_pos hmax, hdrop] at hclean
      dsimp only
      rw [if_pos hmax]
      exact .inl ⟨_, h, tail, rfl, t, .inl (t.recovers hclean)⟩
    · rw [if_neg hmax] at hclean
      dsimp only
      rw [if_neg hmax]
      obtain ⟨hlive, hlogged⟩ := t.live_exec hframe hlen hmax
      cases fate with
      | none =>
        rw [t.drop_fileEnd] at hclean
        refine .inr ⟨_, _, tail.drop (frameBytes tag payload).length, rfl, ?_⟩
        have t' : Twin (acked ++ [op]) ⟨Framing.writeAt 0 h.file h.inner.fileEnd (frameBytes tag payload),
            op.applied h.inner (frameBytes tag payload).length⟩ (tail.drop (frameBytes tag payload).length) := by
          refine ⟨by rw [hlive], ?_, hlogged⟩
          rw [t.writeAt, hlive, List.append_assoc]
        exact ⟨t', t'.recovers hclean⟩
      | some n =>
        set left := (frameBytes tag payload).take n ++ tail.drop ((frameBytes tag payload).take n).length
          with hleft
        simp only [t.drop_fileEnd, ← hleft] at hclean
        have hfile : Framing.writeAt 0 h.file h.inner.fileEnd ((frameBytes tag payload).take n) =
            (live acked).file ++ left := t.writeAt _
        refine .inl ⟨_, _, left, rfl, ?_⟩
        have t' : Twin acked { h with
            file := Framing.writeAt 0 h.file h.inner.fileEnd ((frameBytes tag payload).take n) } left :=
          ⟨t.inner, hfile, t.logged⟩
        refine ⟨t', ?_⟩
        rcases hclean with hrefused | ⟨⟨rest, hrest⟩, hrefused⟩
        · exact .inl (t'.recovers hrefused)
        · -- The whole frame got there: the file is that of a twin that also ran the operation.
          right
          rw [← hrest, List.drop_left] at hrefused
          have twin : Twin (acked ++ [op]) ⟨(live acked).file ++ left,
              op.applied h.inner (frameBytes tag payload).length⟩ rest := by
            refine ⟨by rw [hlive], ?_, hlogged⟩
            rw [hlive, ← hrest, List.append_assoc]
          have hrecovers := twin.recovers hrefused
          rw [hfile]
          exact hrecovers

end Twin

/-! ## Runs -/

theorem cleanRun_append : ∀ {h : Handle} {a b : List (Op × Fate)},
    h.CleanRun (a ++ b) → h.CleanRun a ∧ (h.runAll a).CleanRun b
  | _, [], _, hclean => ⟨trivial, hclean⟩
  | h, s :: a, b, ⟨hs, hrest⟩ => by
    obtain ⟨ha, hb⟩ := cleanRun_append (h := (h.exec s.2 s.1).2) hrest
    exact ⟨⟨hs, ha⟩, hb⟩

theorem ackedOps_append (a b : List (Op × Except StorageError Ack)) :
    ackedOps (a ++ b) = ackedOps a ++ ackedOps b := List.filterMap_append ..

/-- A clean run stays beside its twin, and reopens without a trace. -/
theorem Twin.run {steps : List (Op × Fate)} (hclean : Handle.create.CleanRun steps) :
    (∃ tail, Twin (ackedOps (Handle.create.answers steps)) (Handle.create.runAll steps) tail) ∧
      Traceless steps := by
  induction steps using List.reverseRecOn with
  | nil => exact ⟨⟨[], Twin.create⟩, .inl (Twin.create.recovers rfl)⟩
  | append_singleton steps s ih =>
    obtain ⟨hsteps, hlast, -⟩ := cleanRun_append hclean
    obtain ⟨⟨tail, t⟩, -⟩ := ih hsteps
    have hrun : Handle.create.runAll (steps ++ [s]) = ((Handle.create.runAll steps).exec s.2 s.1).2 := by
      rw [Handle.runAll_append]
      rfl
    have hanswers : Handle.create.answers (steps ++ [s]) =
        Handle.create.answers steps ++ [(s.1, ((Handle.create.runAll steps).exec s.2 s.1).1)] := by
      rw [Twin.answers_append]
      rfl
    rw [Traceless, hrun, hanswers, ackedOps_append]
    rcases t.exec hlast with ⟨e, h', tail', hexec, t', hrecovers⟩ | ⟨a, h', tail', hexec, t', hrecovers⟩
    · rw [hexec]
      have hacked : ackedOps (Handle.create.answers steps) ++ ackedOps [(s.1, .error e)] =
          ackedOps (Handle.create.answers steps) := List.append_nil _
      dsimp only
      rw [hacked]
      refine ⟨⟨tail', t'⟩, hrecovers.imp id fun hr => ⟨s.1, e, ?_, hr⟩⟩
      exact List.getLast?_concat ..
    · rw [hexec]
      exact ⟨⟨tail', t'⟩, .inl hrecovers⟩

/-- **Failed appends.** A run of operations, some of whose writes fail with a
prefix of the frame in the file, reopens as the operations that returned `Ok`
(and at most the failed one when it is the last), as long as no step leaves
bytes past the append offset that the reader would take for a frame. -/
theorem traceless_of_clean (steps : List (Op × Fate)) (hclean : Handle.create.CleanRun steps) :
    Traceless steps := (Twin.run hclean).2

/-- A failed batch overwritten by a longer frame leaves nothing. -/
theorem traceless_overwritten :
    let steps : List (Op × Fate) :=
      [(.acquireFence 7, none), (.appendWal ⟨1, 7⟩ [[1]], some 3), (.appendWal ⟨1, 7⟩ [[2, 2]], none)]
    Handle.create.CleanRun steps ∧ Traceless steps := by
  intro steps
  have hclean : Handle.create.CleanRun steps := by
    refine ⟨⟨by decide +kernel, ?_⟩, ⟨by decide +kernel, ?_⟩, ⟨by decide +kernel, ?_⟩, trivial⟩
    · rw [if_neg (by decide +kernel)]
      show Handle.Refused _ _
      decide +kernel
    · rw [if_neg (by decide +kernel)]
      left
      show Handle.Refused _ _
      decide +kernel
    · rw [if_neg (by decide +kernel)]
      show Handle.Refused _ _
      decide +kernel
  exact ⟨hclean, traceless_of_clean steps hclean⟩

/-- A batch whose record holds, four bytes in, a whole WAL frame with the record
`[0xAA]`. -/
def smuggled : WalRecord := [0, 0, 0, 0] ++ frameBytes T_WAL (walPayload [[0xAA]])

/-- The batch fails with its frame in the file, and the 17-byte frame of an acked
floor then ends where the smuggled frame starts: reopening replays a record that
no append was ever asked for. -/
theorem smuggled_record_replayed :
    let steps : List (Op × Fate) :=
      [(.acquireFence 7, none), (.appendWal ⟨1, 7⟩ [smuggled], some 100), (.setRetentionFloor 0, none)]
    ackedOps (Handle.create.answers steps) = [.acquireFence 7, .setRetentionFloor 0] ∧
      scanWal (Handle.create.runAll steps).file 0 = .ok [⟨1, [0xAA]⟩] ∧ ¬ Traceless steps := by
  intro steps
  have hscan : scanWal (Handle.create.runAll steps).file 0 = .ok [⟨1, [0xAA]⟩] := by decide +kernel
  refine ⟨by decide +kernel, hscan, ?_⟩
  rintro (⟨-, h⟩ | ⟨op, e, hlast, -⟩)
  · have h0 := h 0
    rw [hscan] at h0
    revert h0
    decide +kernel
  · revert hlast
    have hok : (Handle.create.answers steps).getLast? = some (.setRetentionFloor 0, .ok .unit) := by
      decide +kernel
    rw [hok]
    intro hlast
    cases hlast

end Twill.Storage.LocalFile
