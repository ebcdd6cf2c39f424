/-
Opening a second handle on a file that a live handle is writing.

The two share the file's bytes and no lock. The writer puts a frame in place,
syncs, and acks; `open` reads the file, works out where the good frames end,
reads the length and cuts the file there. A frame written between the read and
the length check lies past the end that `open` worked out, so it is cut off
although its append was acked.
-/
import Twill.Storage.LocalFault
import Twill.Lib.Transition

namespace Twill.Storage.LocalFile

open Transition (RunWhere Plays)

/-- Where the writer stands with one operation's frame. -/
inductive Writing where
  | idle
  | wrote (op : Op) (size : Nat)
  | synced (op : Op) (size : Nat)

/-- Where a thread stands in `LocalFileStorage::open`. -/
inductive Opening where
  | idle
  /-- The whole file has been read and recovered. -/
  | recovered (g : Inner)
  /-- The length was found to exceed `end`. -/
  | healing (g : Inner)

structure Shared where
  file : Bytes
  writer : Inner
  writing : Writing
  openers : Nat → Opening
  /-- The operations acked so far, oldest first. -/
  acked : List Op

inductive FileAct where
  | write (op : Op)
  | sync
  | ack
  | read (i : Nat)
  | measure (i : Nat)
  | truncate (i : Nat)

namespace Shared

def setOpener (σ : Shared) (i : Nat) (o : Opening) : Shared :=
  { σ with openers := Function.update σ.openers i o }

/-- One file-level step of the writer, or of opener `i`. -/
def step (σ : Shared) : FileAct → Option Shared
  | .write op => match σ.writing, op.frame σ.writer with
    | .idle, .ok (tag, payload) =>
      let buf := frameBytes tag payload
      if MAX_OFFSET < σ.writer.fileEnd + buf.length then none
      else
        some { σ with
          file := Framing.writeAt 0 σ.file σ.writer.fileEnd buf
          writing := .wrote op buf.length }
    | _, _ => none
  | .sync => match σ.writing with
    | .wrote op size => some { σ with writing := .synced op size }
    | _ => none
  | .ack => match σ.writing with
    | .synced op size =>
      some { σ with writer := op.applied σ.writer size, writing := .idle, acked := σ.acked ++ [op] }
    | _ => none
  | .read i => match σ.openers i, recover σ.file with
    | .idle, .ok g => some (σ.setOpener i (.recovered g))
    | _, _ => none
  | .measure i => match σ.openers i with
    | .recovered g =>
      if g.fileEnd < σ.file.length then some (σ.setOpener i (.healing g)) else some (σ.setOpener i .idle)
    | _ => none
  | .truncate i => match σ.openers i with
    | .healing g => some ({ σ with file := Framing.setLen 0 σ.file g.fileEnd }.setOpener i .idle)
    | _ => none

/-- A live handle after some operations, and nobody opening. -/
def start (ops : List Op) : Shared :=
  ⟨(live ops).file, (live ops).inner, .idle, fun _ => .idle, ops⟩

/-- The frames of the acked operations are in the file, and the next open
recovers them, with at most the frame being written besides. -/
def Kept (σ : Shared) : Prop :=
  (live σ.acked).file <+: σ.file ∧
    (Recovers σ.file σ.acked ∨
      ∃ op size, (σ.writing = .wrote op size ∨ σ.writing = .synced op size) ∧ Recovers σ.file (σ.acked ++ [op]))

/-- No frame is written between an open's read of the file and its read of the
length, and no frame's payload reaches the length word's limit. -/
def Undisturbed (σ : Shared) : FileAct → Prop
  | .write op => (∀ i g, σ.openers i ≠ .recovered g) ∧
      ∀ tag payload, op.frame σ.writer = .ok (tag, payload) → payload.length < 2 ^ 32 - 1
  | _ => True

/-! ## What an undisturbed run keeps -/

/-- The frame of the operation being written, if any, is all that follows the
acked operations' frames. -/
def Behind (σ : Shared) (tail : Bytes) : Prop :=
  match σ.writing with
  | .idle => tail = []
  | .wrote op size | .synced op size => ∃ tag payload, op.frame σ.writer = .ok (tag, payload) ∧
      payload.length < 2 ^ 32 - 1 ∧ size = (frameBytes tag payload).length ∧
      ¬ MAX_OFFSET < σ.writer.fileEnd + size ∧ tail = frameBytes tag payload

/-- The file is the log of the acked operations and the frame being written, and
whoever is opening it has worked out its true end. -/
structure Steady (σ : Shared) : Prop where
  file : ∃ tail, Twin σ.acked ⟨σ.file, σ.writer⟩ tail ∧ σ.Behind tail
  openers : ∀ i, σ.openers i = .idle ∨ ∃ g, σ.openers i = .recovered g ∧ g.fileEnd = σ.file.length

variable {σ τ : Shared}

theorem twin_live {ops : List Op} (h : Handle.create.shortFrames (allOk ops) = true) :
    Twin ops (live ops) [] := by
  obtain ⟨frames, hlog, hentries, -⟩ := Logged.create.run h
  exact ⟨rfl, (List.append_nil _).symm, frames, hlog, hentries⟩

theorem Steady.start {ops : List Op} (h : Handle.create.shortFrames (allOk ops) = true) :
    Steady (start ops) :=
  ⟨⟨[], twin_live h, rfl⟩, fun _ => .inl rfl⟩

/-- The frame being written makes the file that of a twin that ran its operation. -/
theorem twin_written {acked : List Op} {h : Handle} {op : Op} {tag : UInt8} {payload : Bytes}
    (t : Twin acked h (frameBytes tag payload)) (hframe : op.frame h.inner = .ok (tag, payload))
    (hlen : payload.length < 2 ^ 32 - 1)
    (hfits : ¬ MAX_OFFSET < h.inner.fileEnd + (frameBytes tag payload).length) :
    Twin (acked ++ [op]) ⟨h.file, op.applied h.inner (frameBytes tag payload).length⟩ [] := by
  obtain ⟨hlive, hlogged⟩ := t.live_exec hframe hlen hfits
  refine ⟨by rw [hlive], ?_, hlogged⟩
  rw [hlive, t.file, List.append_nil]

/-- What the next open finds. -/
theorem Steady.recovers (h : Steady σ) :
    Recovers σ.file σ.acked ∨
      ∃ op size, (σ.writing = .wrote op size ∨ σ.writing = .synced op size) ∧ Recovers σ.file (σ.acked ++ [op]) := by
  obtain ⟨tail, t, hbehind⟩ := h.file
  have hwritten : ∀ op size, (σ.writing = .wrote op size ∨ σ.writing = .synced op size) →
      (∃ tag payload, op.frame σ.writer = .ok (tag, payload) ∧ payload.length < 2 ^ 32 - 1 ∧
        size = (frameBytes tag payload).length ∧ ¬ MAX_OFFSET < σ.writer.fileEnd + size ∧
        tail = frameBytes tag payload) → Recovers σ.file (σ.acked ++ [op]) := by
    rintro op size - ⟨tag, payload, hframe, hlen, rfl, hfits, rfl⟩
    exact (twin_written t hframe hlen hfits).recovers rfl
  unfold Behind at hbehind
  cases hw : σ.writing with
  | idle =>
    rw [hw] at hbehind
    subst hbehind
    exact .inl (t.recovers rfl)
  | wrote op size =>
    rw [hw] at hbehind
    exact .inr ⟨op, size, .inl rfl, hwritten op size (.inl hw) hbehind⟩
  | synced op size =>
    rw [hw] at hbehind
    exact .inr ⟨op, size, .inr rfl, hwritten op size (.inr hw) hbehind⟩

/-- A recovered twin works out the file's true end. -/
theorem fileEnd_recovered {file : Bytes} {writer g : Inner} {ops : List Op}
    (t : Twin ops ⟨file, writer⟩ []) (hrecover : recover file = .ok g) : g.fileEnd = file.length := by
  have hg := (t.recovers rfl).1
  rw [hrecover] at hg
  obtain rfl : g = (live ops).inner := by simpa using hg
  have hend := t.fileEnd
  have hfile : file = (live ops).file ++ [] := t.file
  rw [t.inner] at hend
  rw [hfile, List.append_nil]
  exact hend

theorem Steady.fileEnd (h : Steady σ) {g : Inner} (hrecover : recover σ.file = .ok g) :
    g.fileEnd = σ.file.length := by
  obtain ⟨tail, t, hbehind⟩ := h.file
  unfold Behind at hbehind
  cases hw : σ.writing with
  | idle =>
    rw [hw] at hbehind
    subst hbehind
    exact fileEnd_recovered t hrecover
  | wrote op size | synced op size =>
    rw [hw] at hbehind
    obtain ⟨tag, payload, hframe, hlen, rfl, hfits, rfl⟩ := hbehind
    exact fileEnd_recovered (twin_written t hframe hlen hfits) hrecover

theorem Steady.setOpener (h : Steady σ) (i : Nat) {o : Opening}
    (ho : o = .idle ∨ ∃ g, o = .recovered g ∧ g.fileEnd = σ.file.length) : Steady (σ.setOpener i o) := by
  refine ⟨h.file, fun j => ?_⟩
  by_cases hj : j = i
  · subst hj
    simpa [Shared.setOpener] using ho
  · simpa [Shared.setOpener, Function.update_of_ne hj] using h.openers j

theorem Steady.step {a : FileAct} (h : Steady σ) (hclean : σ.Undisturbed a) (hstep : σ.step a = some τ) :
    Steady τ := by
  obtain ⟨tail, t, hbehind⟩ := h.file
  cases a with
  | write op =>
    obtain ⟨hquiet, hshort⟩ := hclean
    simp only [Shared.step] at hstep
    split at hstep
    · next tag payload hidle hframe =>
      split_ifs at hstep with hmax
      obtain rfl := Option.some.inj hstep
      simp only [Behind, hidle] at hbehind
      subst hbehind
      refine ⟨⟨frameBytes tag payload, ⟨t.inner, ?_, t.logged⟩, ?_⟩, fun i => ?_⟩
      · simpa using t.writeAt (frameBytes tag payload)
      · exact ⟨tag, payload, hframe, hshort tag payload hframe, rfl, hmax, rfl⟩
      · rcases h.openers i with hi | ⟨g, hi, -⟩
        · exact .inl hi
        · exact absurd hi (hquiet i g)
    · cases hstep
  | sync =>
    simp only [Shared.step] at hstep
    split at hstep
    · next op size hw =>
      obtain rfl := Option.some.inj hstep
      simp only [Behind, hw] at hbehind
      exact ⟨⟨tail, t, hbehind⟩, h.openers⟩
    · cases hstep
  | ack =>
    simp only [Shared.step] at hstep
    split at hstep
    · next op size hw =>
      obtain rfl := Option.some.inj hstep
      simp only [Behind, hw] at hbehind
      obtain ⟨tag, payload, hframe, hlen, rfl, hfits, rfl⟩ := hbehind
      exact ⟨⟨[], twin_written t hframe hlen hfits, rfl⟩, h.openers⟩
    · cases hstep
  | read i =>
    simp only [Shared.step] at hstep
    split at hstep
    · next g _ hrecover =>
      obtain rfl := Option.some.inj hstep
      exact h.setOpener i (.inr ⟨g, rfl, h.fileEnd hrecover⟩)
    · cases hstep
  | measure i =>
    simp only [Shared.step] at hstep
    split at hstep
    · next g hi =>
      -- The end worked out is the file's length, so there is nothing to heal.
      have hend : g.fileEnd = σ.file.length := by
        rcases h.openers i with hidle | ⟨g', hg', hlength⟩
        · rw [hi] at hidle
          cases hidle
        · rw [hi] at hg'
          cases hg'
          exact hlength
      rw [if_neg (by omega)] at hstep
      obtain rfl := Option.some.inj hstep
      exact h.setOpener i (.inl rfl)
    · cases hstep
  | truncate i =>
    simp only [Shared.step] at hstep
    split at hstep
    · next g hi =>
      rcases h.openers i with hidle | ⟨g', hg', -⟩
      · rw [hi] at hidle
        cases hidle
      · rw [hi] at hg'
        cases hg'
    · cases hstep

end Shared

open Shared

/-- **Opening beside a writer.** As long as no frame is written between an open's
read of the file and its read of the length, every acked frame stays in the file
and the next open recovers it. -/
theorem kept_of_undisturbed (ops : List Op) (hshort : Handle.create.shortFrames (allOk ops) = true) (σ : Shared)
    (hrun : RunWhere Shared.step Undisturbed (start ops) σ) : σ.Kept := by
  have hsteady : Steady σ := hrun.invariant (.start hshort) fun _ _ _ h hclean hstep => h.step hclean hstep
  obtain ⟨tail, t, -⟩ := hsteady.file
  exact ⟨⟨tail, t.file.symm⟩, hsteady.recovers⟩

/-- A file holding one fence, and a batch appended to it. -/
def fenced : List Op := [.acquireFence 7]

def batch : Op := .appendWal ⟨1, 7⟩ [[1]]

theorem read_fenced : (start fenced).step (.read 0) =
    some ((start fenced).setOpener 0 (.recovered (live fenced).inner)) := by
  have hrecover : recover (start fenced).file = .ok (live fenced).inner :=
    ((twin_live (by decide +kernel)).recovers rfl).1
  simp only [Shared.step, hrecover]
  rfl

theorem step_measure_long {σ : Shared} {i : Nat} {g : Inner} (hi : σ.openers i = .recovered g)
    (hlong : g.fileEnd < σ.file.length) : σ.step (.measure i) = some (σ.setOpener i (.healing g)) := by
  simp only [Shared.step, hi, if_pos hlong]

theorem step_measure_even {σ : Shared} {i : Nat} {g : Inner} (hi : σ.openers i = .recovered g)
    (heven : ¬ g.fileEnd < σ.file.length) : σ.step (.measure i) = some (σ.setOpener i .idle) := by
  simp only [Shared.step, hi, if_neg heven]

/-- An open that has read the length before the batch is written leaves it alone. -/
theorem kept_after_open : ∃ σ, RunWhere Shared.step Undisturbed (start fenced) σ ∧
    σ.acked = fenced ++ [batch] ∧ σ.Kept := by
  have hshort : ∀ tag payload, batch.frame (live fenced).inner = .ok (tag, payload) →
      payload.length < 2 ^ 32 - 1 := by
    intro tag payload hframe
    obtain ⟨-, rfl⟩ : T_WAL = tag ∧ walPayload [[1]] = payload := Prod.mk.injEq .. ▸ Except.ok.inj hframe
    decide
  have hquiet : ∀ i g, (((start fenced).setOpener 0 (.recovered (live fenced).inner)).setOpener 0 .idle).openers i ≠
      .recovered g := by
    intro i g
    simp [Shared.setOpener, start]
  have hrun : RunWhere Shared.step Undisturbed (start fenced) _ :=
    RunWhere.nil.plays [.read 0, .measure 0, .write batch, .sync, .ack]
      ⟨trivial, _, read_fenced, trivial, _, step_measure_even rfl (by decide +kernel), ⟨hquiet, hshort⟩, _, rfl,
        trivial, _, rfl, trivial, _, rfl, rfl⟩
  exact ⟨_, hrun, rfl, kept_of_undisturbed fenced (by decide +kernel) _ hrun⟩

/-- An open that reads the file before the batch is written and its length after
the batch is acked cuts the batch off. -/
theorem acked_batch_cut_off : ∃ σ, Transition.Reach Shared.step (start fenced) σ ∧
    σ.acked = fenced ++ [batch] ∧ scanWal σ.file 0 = .ok [] ∧ ¬ σ.Kept := by
  refine ⟨_, RunWhere.nil.plays [.read 0, .write batch, .sync, .ack, .measure 0, .truncate 0]
      ⟨trivial, _, read_fenced, trivial, _, rfl, trivial, _, rfl, trivial, _, rfl,
        trivial, _, step_measure_long rfl (by decide +kernel), trivial, _, rfl, rfl⟩,
    rfl, ?_, ?_⟩
  · decide +kernel
  · rintro ⟨hbefore, -⟩
    have hlength := hbefore.length_le
    revert hlength
    decide +kernel

end Twill.Storage.LocalFile
