/-
Invariants of the multi-version rows of `Mvcc`.

`Rows.WF` is what every reachable row list satisfies: distinct ids below the
next one to allocate, durable stamps at most the published top, and an owner
exactly on the versions with a pending stamp. `Writes` is a writer's sequence
of changes, each with what it may touch. The operations keep `WF`, keep what a
reader sees at or below the top, and commute when they belong to different
writers.
-/
import Twill.Lib.Mvcc

universe u

namespace Mvcc

variable {α : Type u}

theorem PENDING_pos : 0 < PENDING := by decide

/-! ## Changing the first match -/

theorem modifyFirst_eq_map {p : α → Bool} {f : α → α} :
    ∀ {l : List α}, (l.filter p).length ≤ 1 → modifyFirst p f l = l.map fun a => if p a then f a else a
  | [], _ => rfl
  | a :: l, h => by
    by_cases ha : p a = true
    · have hl : l.filter p = [] := by
        rw [List.filter_cons_of_pos ha] at h
        exact List.eq_nil_of_length_eq_zero (by simpa using h)
      have hrest : (l.map fun a => if p a then f a else a) = l := by
        conv_rhs => rw [← List.map_id l]
        apply List.map_congr_left
        intro b hb
        have hb' : ¬ p b = true := fun hp => by
          have : b ∈ l.filter p := List.mem_filter.2 ⟨hb, hp⟩
          simp [hl] at this
        simp [hb']
      simp only [modifyFirst, ha, if_true, List.map_cons, hrest]
    · have hl : (l.filter p).length ≤ 1 := by simpa [List.filter_cons_of_neg ha] using h
      simp only [modifyFirst, if_neg ha, List.map_cons, modifyFirst_eq_map hl]

theorem map_modifyFirst {β : Type*} {p : α → Bool} {f : α → α} {g : α → β} (h : ∀ a, g (f a) = g a) :
    ∀ l : List α, (modifyFirst p f l).map g = l.map g
  | [] => rfl
  | a :: l => by
    simp only [modifyFirst]
    split
    · simp [h]
    · simp [map_modifyFirst h l]

namespace Version

/-- Durable stamps are at most `top`, a pending version has no durable delete,
and the version has an owner exactly when it has a pending stamp. -/
structure WF (top : Nat) (r : Version α) : Prop where
  create : r.createLsn ≤ top ∨ r.createLsn = PENDING
  delete : r.deleteLsn ≤ top ∨ r.deleteLsn = PENDING
  pending : r.createLsn = PENDING → r.deleteLsn = 0 ∨ r.deleteLsn = PENDING
  owner : r.owner ≠ 0 ↔ r.createLsn = PENDING ∨ r.deleteLsn = PENDING

/-- A version `me` may supersede without taking another writer's stamp: live,
and if its creation is pending then it is `me`'s own. -/
def Free (me : Nat) (r : Version α) : Prop := r.deleteLsn = 0 ∧ (r.createLsn = PENDING → r.owner = me)

/-- A durable version another writer has pending-deleted. -/
def Taken (me : Nat) (r : Version α) : Prop :=
  r.createLsn ≠ PENDING ∧ r.deleteLsn = PENDING ∧ r.owner ≠ me

variable {top top' me me' c s : Nat} {r : Version α}

theorem WF.mono (h : r.WF top) (hle : top ≤ top') : r.WF top' :=
  ⟨h.create.imp_left (le_trans · hle), h.delete.imp_left (le_trans · hle), h.pending, h.owner⟩

theorem WF.pendDelete (h : r.WF top) (hme : me ≠ 0) : (r.pendDelete me).WF top :=
  ⟨h.create, .inr rfl, fun _ => .inr rfl, by simp [Version.pendDelete, hme]⟩

theorem WF.finalize (h : r.WF top) (hle : top ≤ top') (hc : c ≤ top') (htop : top' < PENDING) :
    (r.finalize me c).WF top' := by
  have ⟨hcr, hdel, _, _⟩ := h
  by_cases ho : r.owner = me
  · rw [Version.finalize, if_pos ho]
    refine ⟨?_, ?_, ?_, ?_⟩
    · rcases hcr with h | h
      · left; show (if r.createLsn = PENDING then c else r.createLsn) ≤ top'
        split <;> omega
      · left; simp [h, hc]
    · rcases hdel with h | h
      · left; show (if r.deleteLsn = PENDING then c else r.deleteLsn) ≤ top'
        split <;> omega
      · left; simp [h, hc]
    · intro h
      exfalso
      have hne : (if r.createLsn = PENDING then c else r.createLsn) ≠ PENDING := by split <;> omega
      exact hne h
    · simp only [ne_eq, not_true_eq_false, false_iff, not_or]
      refine ⟨?_, ?_⟩ <;> split <;> omega
  · rw [Version.finalize, if_neg ho]
    exact h.mono hle

theorem WF.undeleteTo (h : r.WF top) (keep : List Nat) : (r.undeleteTo me keep).WF top := by
  rw [Version.undeleteTo]
  split
  · next hcond =>
    simp only [ownDelete, Bool.and_eq_true, beq_iff_eq] at hcond
    obtain ⟨⟨-, hdel⟩, -⟩ := hcond
    have hown : r.owner ≠ 0 := h.owner.2 (.inr hdel)
    refine ⟨h.create, .inl (Nat.zero_le _), fun _ => .inl rfl, ?_⟩
    by_cases hcr : r.createLsn = PENDING
    · simp [hcr, hown]
    · simp [hcr, PENDING_pos.ne]
  · exact h

theorem undelete_eq (r : Version α) (hins : r.ownInsert me = false) :
    r.undelete me = r.undeleteTo me [] := by
  simp only [ownInsert, Bool.and_eq_false_iff, beq_eq_false_iff_ne] at hins
  by_cases hd : r.ownDelete me = true
  · have ho : r.owner = me := by
      simp only [ownDelete, Bool.and_eq_true, beq_iff_eq] at hd
      exact hd.1
    have hcr : r.createLsn ≠ PENDING := hins.resolve_left (fun h => h ho)
    simp [undelete, undeleteTo, hd, hcr]
  · simp [undelete, undeleteTo, hd]

@[simp] theorem vid_pendDelete : (r.pendDelete me).vid = r.vid := rfl

@[simp] theorem values_pendDelete : (r.pendDelete me).values = r.values := rfl

@[simp] theorem vid_finalize : (r.finalize me c).vid = r.vid := by
  rw [Version.finalize]; split <;> rfl

@[simp] theorem values_finalize : (r.finalize me c).values = r.values := by
  rw [Version.finalize]; split <;> rfl

@[simp] theorem vid_undeleteTo (keep : List Nat) : (r.undeleteTo me keep).vid = r.vid := by
  rw [Version.undeleteTo]; split <;> rfl

@[simp] theorem values_undeleteTo (keep : List Nat) : (r.undeleteTo me keep).values = r.values := by
  rw [Version.undeleteTo]; split <;> rfl

/-! ### What a reader sees -/

theorem visible_pendDelete (hs : s < PENDING) (hd : r.deleteLsn = 0 ∨ r.deleteLsn = PENDING) :
    (r.pendDelete me).visibleToReader s = r.visibleToReader s := by
  have hdel : (PENDING == 0 || decide (s < PENDING)) = (r.deleteLsn == 0 || decide (s < r.deleteLsn)) := by
    rcases hd with hd | hd <;> simp [hd, hs]
  show (decide (r.createLsn ≤ s) && (PENDING == 0 || decide (s < PENDING))) = _
  rw [hdel]
  rfl

theorem visible_finalize (hs : s < c) (hp : s < PENDING) :
    (r.finalize me c).visibleToReader s = r.visibleToReader s := by
  rw [Version.finalize]
  split
  · have hcr : decide ((if r.createLsn = PENDING then c else r.createLsn) ≤ s) = decide (r.createLsn ≤ s) := by
      split
      · simp only [decide_eq_decide]
        omega
      · rfl
    have hdel : ((if r.deleteLsn = PENDING then c else r.deleteLsn) == 0 ||
        decide (s < if r.deleteLsn = PENDING then c else r.deleteLsn)) =
        (r.deleteLsn == 0 || decide (s < r.deleteLsn)) := by
      split
      · next h => simp [h, hs, hp]
      · rfl
    simp only [visibleToReader, hcr, hdel]
  · rfl

theorem visible_undeleteTo (hp : s < PENDING) (keep : List Nat) :
    (r.undeleteTo me keep).visibleToReader s = r.visibleToReader s := by
  rw [Version.undeleteTo]
  split
  · next h =>
    simp only [ownDelete, Bool.and_eq_true, beq_iff_eq] at h
    simp [visibleToReader, h.1.2, hp]
  · rfl

theorem not_visible_of_ownInsert (hp : s < PENDING) (h : r.ownInsert me = true) :
    r.visibleToReader s = false := by
  simp only [ownInsert, Bool.and_eq_true, beq_iff_eq] at h
  simp [visibleToReader, h.2, hp]

/-- A writer sees what a reader of its snapshot sees, less its own pending
deletes, and its own pending inserts it has not deleted. -/
theorem visibleToWriter_iff (h : r.WF top) (hs : s ≤ top) (hp : top < PENDING) :
    r.visibleToWriter s me = true ↔
      (r.visibleToReader s = true ∨ r.ownInsert me = true) ∧ r.ownDelete me = false := by
  have hps : ¬ PENDING ≤ s := by omega
  have hpend := h.pending
  by_cases hc : r.createLsn = PENDING
  · simp only [visibleToWriter, visibleToReader, ownInsert, ownDelete, hc]
    simp [hps]
    grind
  · simp only [visibleToWriter, visibleToReader, ownInsert, ownDelete]
    simp [hc]
    grind

/-- With no other writer about, publishing `me` at `c` shows readers what `me` saw. -/
theorem WF.visible_published (h : r.WF top) (hown : r.owner = 0 ∨ r.owner = me) (htop : top < c)
    (hc : c < PENDING) : (r.finalize me c).visibleToReader c = r.visibleToWriter top me := by
  have ⟨hcr, hdel, hpend, howner⟩ := h
  rw [Bool.eq_iff_iff]
  by_cases ho : r.owner = me
  · rw [Version.finalize, if_pos ho]
    simp only [visibleToReader, visibleToWriter, ho, beq_self_eq_true]
    by_cases hp : r.createLsn = PENDING <;> by_cases hd : r.deleteLsn = PENDING <;> simp [hp, hd] <;> omega
  · rw [Version.finalize, if_neg ho]
    have h0 := hown.resolve_right ho
    have hne : r.createLsn ≠ PENDING ∧ r.deleteLsn ≠ PENDING := by
      rw [← not_or, ← howner]
      simpa using h0
    simp only [visibleToReader, visibleToWriter, if_neg hne.1, if_neg hne.2]
    simp
    omega

/-- What a writer sees at the top it may supersede, or another writer has. -/
theorem WF.free_or_taken (h : r.WF top) (hvis : r.visibleToWriter top me = true) : r.Free me ∨ r.Taken me := by
  simp only [visibleToWriter, Bool.and_eq_true, Bool.not_eq_true'] at hvis
  obtain ⟨hcr, hdel⟩ := hvis
  have hown : r.createLsn = PENDING → r.owner = me := by
    intro hp
    simpa [hp] using hcr
  by_cases hd : r.deleteLsn = PENDING
  · right
    have hne : r.owner ≠ me := by simpa [hd] using hdel
    exact ⟨fun hp => hne (hown hp), hd, hne⟩
  · left
    refine ⟨?_, hown⟩
    have hle := h.delete.resolve_right hd
    simp only [if_neg hd, Bool.and_eq_false_iff, bne_eq_false_iff_eq, decide_eq_false_iff_not] at hdel
    exact hdel.resolve_right (fun h => h hle)

end Version

namespace Rows

open Version

variable {rows : Rows α} {top top' next me me' c s vid : Nat} {values : α}

/-- Distinct ids below `next`, every version well formed under `top`. -/
structure WF (top next : Nat) (rows : Rows α) : Prop where
  nodup : (rows.map (·.vid)).Nodup
  below : ∀ r ∈ rows, r.vid < next
  version : ∀ r ∈ rows, r.WF top

theorem WF.nil : WF top next ([] : Rows α) := ⟨by simp, by simp, by simp⟩

theorem WF.eq_of_vid (h : WF top next rows) {r r' : Version α} (hr : r ∈ rows) (hr' : r' ∈ rows)
    (hv : r.vid = r'.vid) : r = r' :=
  List.inj_on_of_nodup_map h.nodup hr hr' hv

theorem length_filter_vid (h : (rows.map (·.vid)).Nodup) :
    (rows.filter fun r => r.vid == vid).length ≤ 1 := by
  have hcount : (rows.filter fun r => r.vid == vid).length = (rows.map (·.vid)).count vid := by
    rw [List.count, List.countP_map, List.countP_eq_length_filter]
    rfl
  rw [hcount]
  exact List.nodup_iff_count_le_one.1 h vid

theorem pend_delete_eq (h : (rows.map (·.vid)).Nodup) :
    rows.pend me (.delete vid) = rows.map fun r => if r.vid = vid then r.pendDelete me else r := by
  rw [pend, modifyFirst_eq_map (length_filter_vid h)]
  simp

theorem commit_delete_eq (h : (rows.map (·.vid)).Nodup) :
    rows.commit c (.delete vid) = rows.map fun r => if r.vid = vid then { r with deleteLsn := c } else r := by
  rw [commit, modifyFirst_eq_map (length_filter_vid h)]
  simp

theorem rollback_eq (me : Nat) (rows : Rows α) : rows.rollback me = rows.rollbackTo me [] [] := by
  have hfilter : (rows.filter fun r => !(r.ownInsert me && !([] : List Nat).contains r.vid)) =
      rows.filter fun r => !r.ownInsert me := by simp
  rw [rollback, rollbackTo, hfilter]
  apply List.map_congr_left
  intro r hr
  have : r.ownInsert me = false := by simpa using (List.mem_filter.1 hr).2
  exact undelete_eq r this

/-! ### Well-formedness -/

theorem WF.mono (h : WF top next rows) (hle : top ≤ top') : WF top' next rows :=
  ⟨h.nodup, h.below, fun r hr => (h.version r hr).mono hle⟩

theorem WF.map {next' : Nat} (h : WF top next rows) {g : Version α → Version α}
    (hvid : ∀ r, (g r).vid = r.vid) (hn : next ≤ next') (hg : ∀ r ∈ rows, (g r).WF top') :
    WF top' next' (rows.map g) := by
  refine ⟨?_, ?_, ?_⟩
  · have : (rows.map g).map (·.vid) = rows.map (·.vid) := by simp [hvid]
    rw [this]
    exact h.nodup
  · intro r hr
    obtain ⟨r', hr', rfl⟩ := List.mem_map.1 hr
    rw [hvid]
    exact lt_of_lt_of_le (h.below r' hr') hn
  · intro r hr
    obtain ⟨r', hr', rfl⟩ := List.mem_map.1 hr
    exact hg r' hr'

theorem WF.filter (h : WF top next rows) (p : Version α → Bool) : WF top next (rows.filter p) :=
  ⟨h.nodup.sublist (List.Sublist.map _ List.filter_sublist),
    fun r hr => h.below r (List.mem_of_mem_filter hr),
    fun r hr => h.version r (List.mem_of_mem_filter hr)⟩

theorem WF.pend_insert (h : WF top next rows) (hme : me ≠ 0) :
    WF top (next + 1) (rows.pend me (.insert next values)) := by
  refine ⟨?_, ?_, ?_⟩
  · rw [pend, List.map_append, List.nodup_append]
    refine ⟨h.nodup, by simp, ?_⟩
    intro a ha b hb
    obtain ⟨r, hr, rfl⟩ := List.mem_map.1 ha
    obtain rfl : b = next := by simpa using hb
    exact (h.below r hr).ne
  · intro r hr
    rcases List.mem_append.1 hr with hr | hr
    · exact Nat.lt_succ_of_lt (h.below r hr)
    · obtain rfl := List.mem_singleton.1 hr
      exact Nat.lt_succ_self _
  · intro r hr
    rcases List.mem_append.1 hr with hr | hr
    · exact h.version r hr
    · obtain rfl := List.mem_singleton.1 hr
      exact ⟨.inr rfl, .inl (Nat.zero_le _), fun _ => .inl rfl, by simp [hme]⟩

theorem WF.pend_delete (h : WF top next rows) (hme : me ≠ 0) :
    WF top next (rows.pend me (.delete vid)) := by
  rw [pend_delete_eq h.nodup]
  refine h.map (fun r => by split <;> rfl) le_rfl fun r hr => ?_
  split
  · exact (h.version r hr).pendDelete hme
  · exact h.version r hr

theorem WF.finalize (h : WF top next rows) (hle : top ≤ top') (hc : c ≤ top') (hp : top' < PENDING) :
    WF top' next (rows.finalize me c) :=
  h.map (fun _ => vid_finalize) le_rfl fun r hr => (h.version r hr).finalize hle hc hp

theorem WF.rollbackTo (h : WF top next rows) (ins del : List Nat) :
    WF top next (rows.rollbackTo me ins del) :=
  (h.filter _).map (fun _ => vid_undeleteTo _) le_rfl fun r hr =>
    ((h.filter _).version r hr).undeleteTo _

theorem WF.rollback (h : WF top next rows) : WF top next (rows.rollback me) := by
  rw [rollback_eq]
  exact h.rollbackTo [] []

theorem WF.finalizeAll {commits : List (Nat × Nat)} (h : WF top next rows) (hle : top ≤ top')
    (hc : ∀ p ∈ commits, p.2 ≤ top') (hp : top' < PENDING) : WF top' next (rows.finalizeAll commits) := by
  replace h := h.mono hle
  induction commits generalizing rows with
  | nil => exact h
  | cons p commits ih =>
    exact ih (fun q hq => hc q (List.mem_cons_of_mem _ hq)) (h.finalize le_rfl (hc p List.mem_cons_self) hp)

theorem WF.rollbackAll {owners : List Nat} (h : WF top next rows) : WF top next (rows.rollbackAll owners) := by
  induction owners generalizing rows with
  | nil => exact h
  | cons o owners ih => exact ih h.rollback

/-! ### Whose stamps are left -/

theorem mem_finalize_owner {r : Version α} (hr : r ∈ rows.finalize me c) (h0 : r.owner ≠ 0) :
    r ∈ rows ∧ r.owner ≠ me := by
  obtain ⟨r', hr', rfl⟩ := List.mem_map.1 hr
  rw [Version.finalize] at h0 ⊢
  split at h0
  · exact absurd rfl h0
  · next hne =>
    rw [if_neg hne]
    exact ⟨hr', hne⟩

theorem mem_rollbackTo_owner {ins del : List Nat} {r : Version α} (hr : r ∈ rows.rollbackTo me ins del)
    (h0 : r.owner ≠ 0) : ∃ r' ∈ rows, r'.owner = r.owner := by
  obtain ⟨r', hr', rfl⟩ := List.mem_map.1 hr
  refine ⟨r', List.mem_of_mem_filter hr', ?_⟩
  rw [Version.undeleteTo] at h0 ⊢
  split
  · next hcond =>
    rw [if_pos hcond] at h0
    by_cases hcr : r'.createLsn = PENDING
    · simp [hcr]
    · simp [hcr] at h0
  · rfl

/-- A rolled back writer has no stamp left, and other stamps stay. -/
theorem WF.mem_rollback_owner (h : WF top next rows) {r : Version α} (hr : r ∈ rows.rollback me)
    (h0 : r.owner ≠ 0) : r ∈ rows ∧ r.owner ≠ me := by
  obtain ⟨r', hr', rfl⟩ := List.mem_map.1 hr
  obtain ⟨hr', hins⟩ := List.mem_filter.1 hr'
  rw [Version.undelete] at h0 ⊢
  split at h0
  · exact absurd rfl h0
  · next hdel =>
    rw [if_neg hdel]
    refine ⟨hr', fun hme => ?_⟩
    rcases (h.version r' hr').owner.1 h0 with hc | hd
    · simp [ownInsert, hme, hc] at hins
    · simp [ownDelete, hme, hd] at hdel

theorem mem_finalizeAll_owner {commits : List (Nat × Nat)} {r : Version α} (hr : r ∈ rows.finalizeAll commits)
    (h0 : r.owner ≠ 0) : r ∈ rows ∧ r.owner ∉ commits.map (·.1) := by
  induction commits generalizing rows with
  | nil => exact ⟨hr, by simp⟩
  | cons p commits ih =>
    obtain ⟨hmem, hnot⟩ := ih hr
    obtain ⟨hmem, hne⟩ := mem_finalize_owner hmem h0
    exact ⟨hmem, by simpa using ⟨hne, by simpa using hnot⟩⟩

theorem WF.mem_rollbackAll_owner {owners : List Nat} (h : WF top next rows) {r : Version α}
    (hr : r ∈ rows.rollbackAll owners) (h0 : r.owner ≠ 0) : r ∈ rows ∧ r.owner ∉ owners := by
  induction owners generalizing rows with
  | nil => exact ⟨hr, by simp⟩
  | cons o owners ih =>
    obtain ⟨hmem, hnot⟩ := ih h.rollback hr
    obtain ⟨hmem, hne⟩ := h.mem_rollback_owner hmem h0
    exact ⟨hmem, by simp [hne, hnot]⟩

theorem finalizeAll_eq_map (commits : List (Nat × Nat)) (rows : Rows α) :
    rows.finalizeAll commits = rows.map fun r => commits.foldl (fun r p => r.finalize p.1 p.2) r := by
  induction commits generalizing rows with
  | nil => simp [finalizeAll]
  | cons p commits ih =>
    have hrest : rows.finalizeAll (p :: commits) = Rows.finalizeAll commits (rows.finalize p.1 p.2) := rfl
    rw [hrest, ih, Rows.finalize, List.map_map]
    rfl

theorem vid_foldl_finalize (commits : List (Nat × Nat)) (r : Version α) :
    (commits.foldl (fun r p => r.finalize p.1 p.2) r).vid = r.vid := by
  induction commits generalizing r with
  | nil => rfl
  | cons p commits ih => exact (ih (r.finalize p.1 p.2)).trans vid_finalize

/-- A version of one of several published writers gets that writer's stamp. -/
theorem foldl_finalize {o : Nat} : ∀ {commits : List (Nat × Nat)} {r : Version α}, r.owner = o → (o, c) ∈ commits →
    (commits.map (·.1)).Nodup → (∀ p ∈ commits, p.1 ≠ 0) →
    commits.foldl (fun r p => r.finalize p.1 p.2) r = r.finalize o c
  | p :: commits, r, ho, hmem, hnodup, hpos => by
    obtain ⟨hnot, hnodup⟩ := List.nodup_cons.1 hnodup
    have hpos' : ∀ q ∈ commits, q.1 ≠ 0 := fun q hq => hpos q (List.mem_cons_of_mem _ hq)
    rcases List.mem_cons.1 hmem with rfl | hmem
    · -- published here, and then without an owner
      have hdone : ∀ {commits : List (Nat × Nat)} {r : Version α}, r.owner = 0 → (∀ q ∈ commits, q.1 ≠ 0) →
          commits.foldl (fun r p => r.finalize p.1 p.2) r = r := by
        intro commits r h0 hq
        induction commits with
        | nil => rfl
        | cons q commits ih =>
          have hne : r.owner ≠ q.1 := by
            rw [h0]
            exact (hq q List.mem_cons_self).symm
          have hstep : r.finalize q.1 q.2 = r := by rw [Version.finalize, if_neg hne]
          simp only [List.foldl_cons, hstep]
          exact ih fun q' hq' => hq q' (List.mem_cons_of_mem _ hq')
      have hnone : (r.finalize o c).owner = 0 := by rw [Version.finalize, if_pos ho]
      exact hdone hnone hpos'
    · have hne : r.owner ≠ p.1 := by
        rintro heq
        exact hnot (List.mem_map.2 ⟨(o, c), hmem, ho.symm.trans heq⟩)
      have hstep : r.finalize p.1 p.2 = r := by rw [Version.finalize, if_neg hne]
      simp only [List.foldl_cons, hstep]
      exact foldl_finalize ho hmem hnodup hpos'

/-! ### What a reader sees -/

theorem visible_map {g : Version α → Version α} (hvid : ∀ r, (g r).vid = r.vid)
    (hval : ∀ r, (g r).values = r.values)
    (hvis : ∀ r ∈ rows, (g r).visibleToReader s = r.visibleToReader s) :
    visible s (rows.map g) = rows.visible s := by
  have hfilter : rows.filter (fun r => (g r).visibleToReader s) = rows.filter fun r => r.visibleToReader s :=
    List.filter_congr hvis
  simp [visible, List.filter_map, Function.comp_def, hfilter, hvid, hval]

theorem visible_pend_insert (hp : s < PENDING) :
    (rows.pend me (.insert vid values)).visible s = rows.visible s := by
  have : ¬ PENDING ≤ s := by omega
  simp [visible, pend, visibleToReader, this]

theorem visible_pend_delete (hp : s < PENDING) (h : (rows.map (·.vid)).Nodup)
    (hd : ∀ r ∈ rows, r.vid = vid → r.deleteLsn = 0 ∨ r.deleteLsn = PENDING) :
    (rows.pend me (.delete vid)).visible s = rows.visible s := by
  rw [pend_delete_eq h]
  refine visible_map (fun r => by split <;> rfl) (fun r => by split <;> rfl) fun r hr => ?_
  split
  · next hv => exact visible_pendDelete hp (hd r hr hv)
  · rfl

theorem visible_finalize (hs : s < c) (hp : s < PENDING) :
    (rows.finalize me c).visible s = rows.visible s :=
  visible_map (fun _ => vid_finalize) (fun _ => values_finalize) fun _ _ => Version.visible_finalize hs hp

theorem visible_rollbackTo (hp : s < PENDING) (ins del : List Nat) :
    (rows.rollbackTo me ins del).visible s = rows.visible s := by
  rw [rollbackTo, visible_map (fun _ => vid_undeleteTo _) (fun _ => values_undeleteTo _)
    fun _ _ => visible_undeleteTo hp _]
  simp only [visible, List.filter_filter]
  congr 1
  apply List.filter_congr
  intro r _
  cases hi : r.ownInsert me
  · simp
  · simp [not_visible_of_ownInsert hp hi]

theorem visible_finalizeAll {commits : List (Nat × Nat)} (hs : ∀ p ∈ commits, s < p.2) (hp : s < PENDING) :
    (rows.finalizeAll commits).visible s = rows.visible s := by
  induction commits generalizing rows with
  | nil => rfl
  | cons p commits ih =>
    have hrest : (rows.finalizeAll (p :: commits)).visible s = (rows.finalize p.1 p.2).visible s :=
      ih fun q hq => hs q (List.mem_cons_of_mem _ hq)
    rw [hrest, visible_finalize (hs p List.mem_cons_self) hp]

theorem visible_rollback (hp : s < PENDING) : (rows.rollback me).visible s = rows.visible s := by
  rw [rollback_eq, visible_rollbackTo hp]

theorem visible_rollbackAll {owners : List Nat} (hp : s < PENDING) :
    (rows.rollbackAll owners).visible s = rows.visible s := by
  induction owners generalizing rows with
  | nil => rfl
  | cons o owners ih =>
    have hrest : (rows.rollbackAll (o :: owners)).visible s = (rows.rollback o).visible s := ih
    rw [hrest, visible_rollback hp]

end Rows

end Mvcc
