/-
`LocalFileStorage::open` on what a crash leaves of the file.

A crash leaves some prefix of the bytes that were written. An empty file is a new one, and one
with its header is recovered and cut behind its last whole frame; but a crash inside the header
leaves a file that is neither, and it is refused as corrupt.
-/
import Twill.Storage.BranchIds

namespace Twill.Storage.LocalFile

open LocalBranches (openFile)

/-- A prefix of a run's file opens as the handle after the operations whose frames are whole in
it, cut behind them, and what is then in the file opens as that again. -/
def Survives (ops : List Op) (n : Nat) : Prop :=
  ∃ h, openFile (some ((live ops).file.take n)) = .ok h ∧ h = live (ops.take (survivors ops n)) ∧
    openFile (some h.file) = .ok h

theorem openFile_of_recover {file : Bytes} {g : Inner} (hfile : file.length ≠ 0) (h : recover file = .ok g) :
    openFile (some file) = .ok ⟨file.take g.fileEnd, g⟩ := by
  rw [openFile, if_neg hfile, h]
  rfl

theorem recover_short {file : Bytes} (h : file.length < HEADER_SIZE) :
    recover file = .error (.corruption "file shorter than header") := by
  rw [recover, readLog, if_pos h]
  rfl

/-- A log opens with the handle that wrote it, whatever refused tail a crash has left behind it. -/
theorem Logged.openFile_append {H : Handle} {frames : List Frame} (hlog : Logged H.file frames H.inner) {tail : Bytes}
    (hstop : readFrame H.inner.nextLsn tail = .stop H.inner.nextLsn) : openFile (some (H.file ++ tail)) = .ok H := by
  have hheader : HEADER_SIZE ≤ H.file.length := by
    obtain ⟨chunks, hfile, -⟩ := hlog.chunks
    rw [hfile, List.length_append, length_header]
    omega
  have hpos : (H.file ++ tail).length ≠ 0 := by
    have hsize : 0 < HEADER_SIZE := by decide
    rw [List.length_append]
    omega
  rw [openFile_of_recover hpos (hlog.recover_append hstop), hlog.fileEnd, List.take_left]

theorem survivors_inside_header {ops : List Op} (hshort : Handle.create.shortFrames (allOk ops) = true) {n : Nat}
    (hn : n < HEADER_SIZE) : survivors ops n = 0 := by
  refine Nat.findGreatest_eq_zero_iff.mpr fun k _ _ hle => ?_
  have hpart := hshort
  rw [allOk_take_append_drop ops k, shortFrames_append, Bool.and_eq_true] at hpart
  obtain ⟨_, -, -, hheader⟩ := Logged.create.run hpart.1
  have hlength : header.length ≤ (live (ops.take k)).file.length := hheader.length_le
  rw [length_header] at hlength
  omega

theorem length_le_writeAt (file bytes : Bytes) (offset : ℕ) : file.length ≤ (Framing.writeAt 0 file offset bytes).length := by
  simp only [Framing.writeAt, List.length_append, List.length_take, List.length_replicate, List.length_drop]
  omega

/-- A file never loses bytes to an operation. -/
theorem Handle.length_le_exec (h : Handle) (fate : Fate) (op : Op) : h.file.length ≤ (h.exec fate op).2.file.length := by
  rw [Handle.exec_eq, Handle.step]
  split
  · exact le_refl _
  · dsimp only
    split_ifs
    · exact le_refl _
    · cases fate
      · exact length_le_writeAt ..
      · exact length_le_writeAt ..

theorem length_live (ops : List Op) : HEADER_SIZE ≤ (live ops).file.length := by
  have hrun : ∀ (ops : List Op) (h : Handle), h.file.length ≤ (h.runAll (allOk ops)).file.length := by
    intro ops
    induction ops with
    | nil => exact fun h => le_refl _
    | cons op ops ih => exact fun h => (h.length_le_exec none op).trans (ih _)
  have hheader : Handle.create.file.length = HEADER_SIZE := length_header
  exact hheader ▸ hrun ops Handle.create

/-- **Crashes at any byte.** No run survives a crash inside the header of its file. At every other
byte a run survives whose frames do not outgrow their length words. -/
theorem survives_iff (ops : List Op) (n : Nat) :
    (Survives ops n → n = 0 ∨ HEADER_SIZE ≤ n) ∧
    (Handle.create.shortFrames (allOk ops) = true → (Survives ops n ↔ n = 0 ∨ HEADER_SIZE ≤ n)) := by
  have houtside : Survives ops n → n = 0 ∨ HEADER_SIZE ≤ n := by
    rintro ⟨h, hopen, -⟩
    by_contra hinside
    obtain ⟨hpos, hshort⟩ := not_or.mp hinside
    have hlength : ((live ops).file.take n).length = n := by
      rw [List.length_take]
      have := length_live ops
      omega
    rw [openFile, if_neg (by omega), recover_short (by omega)] at hopen
    exact absurd hopen (by simp [bind, Except.bind])
  refine ⟨houtside, fun hshort => ⟨houtside, ?_⟩⟩
  rintro (rfl | hn)
  · have hkept : survivors ops 0 = 0 := survivors_inside_header hshort (by decide)
    refine ⟨live [], rfl, by rw [hkept]; rfl, ?_⟩
    have hopen : openFile (some ((live []).file ++ [])) = .ok (live []) := Logged.create.openFile_append rfl
    rwa [List.append_nil] at hopen
  · obtain ⟨frames, tail, hlog, -, htake, hstop⟩ := take_live hshort hn
    have hopen : openFile (some (_ ++ [])) = .ok _ := hlog.openFile_append rfl
    rw [List.append_nil] at hopen
    exact ⟨_, by rw [htake, hlog.openFile_append hstop], rfl, hopen⟩

/-- A new file cut inside its header, and one cut inside its first frame. -/
theorem survives_iff_fence : ¬ Survives [.acquireFence 7] 10 ∧ Survives [.acquireFence 7] 70 := by
  have h := fun n => (survives_iff [.acquireFence 7] n).2 (by decide +kernel)
  refine ⟨fun h10 => ?_, (h 70).mpr (.inr (by decide))⟩
  exact absurd ((h 10).mp h10) (by decide)

/-- The first ten bytes of a new file's header are refused. -/
theorem header_cut_refused :
    openFile (some ((live []).file.take 10)) = .error (.corruption "file shorter than header") ∧ ¬ Survives [] 10 := by
  have hopen : openFile (some ((live []).file.take 10)) = .error (.corruption "file shorter than header") := rfl
  refine ⟨hopen, ?_⟩
  rintro ⟨h, hok, -⟩
  rw [hopen] at hok
  exact absurd hok (by simp)

end Twill.Storage.LocalFile
