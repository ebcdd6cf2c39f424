/-
The stamps of one writer, as sets.

`inserted o rows` and `deleted o rows` are what `o` has pending in a table, and
`insertsOf ops`, `deletesOf ops` what a list of changes asks for. A writer's own
changes add to its sets, the operations of other writers leave them (a writer
that takes another's pending delete takes it out), and rolling back to a saved
set cuts them down to it.
-/
import Twill.Lib.MvccOverlay

universe u

namespace Mvcc

variable {α : Type u}

namespace Rows

open Version

variable {rows : Rows α} {me o c vid : Nat} {op : Op α} {ops : List (Op α)} {ins del : List Nat}

/-- The pending inserts of `o`, with their images. -/
def inserted (o : Nat) (rows : Rows α) : Set (Nat × α) :=
  {p | ∃ r ∈ rows, r.ownInsert o = true ∧ (r.vid, r.values) = p}

/-- The versions `o` has pending-deleted. -/
def deleted (o : Nat) (rows : Rows α) : Set Nat := {v | ∃ r ∈ rows, r.ownDelete o = true ∧ r.vid = v}

def insertsOf (ops : List (Op α)) : Set (Nat × α) := {p | Op.insert p.1 p.2 ∈ ops}

def deletesOf (ops : List (Op α)) : Set Nat := {v | Op.delete v ∈ ops}

theorem mem_insertedVids : vid ∈ rows.insertedVids o ↔ ∃ values, (vid, values) ∈ inserted o rows := by
  constructor
  · intro h
    obtain ⟨r, hr, rfl⟩ := List.mem_map.1 h
    obtain ⟨hr, hown⟩ := List.mem_filter.1 hr
    exact ⟨r.values, r, hr, hown, rfl⟩
  · rintro ⟨values, r, hr, hown, heq⟩
    exact List.mem_map.2 ⟨r, List.mem_filter.2 ⟨hr, hown⟩, congrArg Prod.fst heq⟩

theorem mem_deletedVids : vid ∈ rows.deletedVids o ↔ vid ∈ deleted o rows := by
  constructor
  · intro h
    obtain ⟨r, hr, rfl⟩ := List.mem_map.1 h
    obtain ⟨hr, hown⟩ := List.mem_filter.1 hr
    exact ⟨r, hr, hown, rfl⟩
  · rintro ⟨r, hr, hown, heq⟩
    exact List.mem_map.2 ⟨r, List.mem_filter.2 ⟨hr, hown⟩, heq⟩

theorem inserted_untouched (h : Untouched o rows) : inserted o rows = ∅ := by
  ext p
  simp only [inserted, Set.mem_ofPred_eq, Set.mem_empty_iff_false, iff_false]
  rintro ⟨r, hr, hown, -⟩
  simp [ownInsert, h r hr] at hown

theorem deleted_untouched (h : Untouched o rows) : deleted o rows = ∅ := by
  ext v
  simp only [deleted, Set.mem_ofPred_eq, Set.mem_empty_iff_false, iff_false]
  rintro ⟨r, hr, hown, -⟩
  simp [ownDelete, h r hr] at hown

@[simp] theorem insertsOf_nil : insertsOf ([] : List (Op α)) = ∅ := by simp [insertsOf]

@[simp] theorem deletesOf_nil : deletesOf ([] : List (Op α)) = ∅ := by simp [deletesOf]

theorem insertsOf_append (ops' : List (Op α)) : insertsOf (ops ++ ops') = insertsOf ops ∪ insertsOf ops' := by
  ext p
  simp [insertsOf]

theorem deletesOf_append (ops' : List (Op α)) : deletesOf (ops ++ ops') = deletesOf ops ∪ deletesOf ops' := by
  ext v
  simp [deletesOf]

/-! ## Operations that map every version -/

theorem inserted_map {g : Version α → Version α} (hvid : ∀ r, (g r).vid = r.vid)
    (hval : ∀ r, (g r).values = r.values)
    (hown : ∀ r ∈ rows, (g r).ownInsert o = r.ownInsert o) : inserted o (rows.map g) = inserted o rows := by
  ext p
  simp only [inserted, Set.mem_ofPred_eq]
  constructor
  · rintro ⟨_, hmem, hins, heq⟩
    obtain ⟨r, hr, rfl⟩ := List.mem_map.1 hmem
    exact ⟨r, hr, (hown r hr).symm.trans hins, by rw [← heq, hvid, hval]⟩
  · rintro ⟨r, hr, hins, heq⟩
    exact ⟨g r, List.mem_map_of_mem hr, (hown r hr).trans hins, by rw [← heq, hvid, hval]⟩

theorem deleted_map {g : Version α → Version α} (hvid : ∀ r, (g r).vid = r.vid)
    (hown : ∀ r ∈ rows, (g r).ownDelete o = r.ownDelete o) : deleted o (rows.map g) = deleted o rows := by
  ext v
  simp only [deleted, Set.mem_ofPred_eq]
  constructor
  · rintro ⟨_, hmem, hdel, heq⟩
    obtain ⟨r, hr, rfl⟩ := List.mem_map.1 hmem
    exact ⟨r, hr, (hown r hr).symm.trans hdel, by rw [← heq, hvid]⟩
  · rintro ⟨r, hr, hdel, heq⟩
    exact ⟨g r, List.mem_map_of_mem hr, (hown r hr).trans hdel, by rw [← heq, hvid]⟩

theorem own_finalize_other {r : Version α} (ho : o ≠ 0) (hne : o ≠ me) :
    (r.finalize me c).ownInsert o = r.ownInsert o ∧ (r.finalize me c).ownDelete o = r.ownDelete o := by
  rw [Version.finalize]
  split
  · next heq =>
    have h0 : (0 == o) = false := by simpa using ho.symm
    have hme : (r.owner == o) = false := by simpa [heq] using hne.symm
    simp [ownInsert, ownDelete, h0, hme]
  · exact ⟨rfl, rfl⟩

theorem own_undeleteTo_other {r : Version α} (ho : o ≠ 0) (hne : o ≠ me) :
    (r.undeleteTo me del).ownInsert o = r.ownInsert o ∧ (r.undeleteTo me del).ownDelete o = r.ownDelete o := by
  rw [Version.undeleteTo]
  split
  · next hcond =>
    have hme : r.owner = me := by
      simp only [ownDelete, Bool.and_eq_true, beq_iff_eq] at hcond
      exact hcond.1.1
    have h0 : (0 == o) = false := by simpa using ho.symm
    have hne' : (r.owner == o) = false := by simpa [hme] using hne.symm
    constructor
    · by_cases hcr : r.createLsn = PENDING <;> simp [ownInsert, hcr, h0, hne']
    · by_cases hcr : r.createLsn = PENDING <;> simp [ownDelete, hcr, h0, hne']
  · exact ⟨rfl, rfl⟩

theorem inserted_finalize_other (ho : o ≠ 0) (hne : o ≠ me) : inserted o (rows.finalize me c) = inserted o rows :=
  inserted_map (fun _ => vid_finalize) (fun _ => values_finalize) fun _ _ => (own_finalize_other ho hne).1

theorem deleted_finalize_other (ho : o ≠ 0) (hne : o ≠ me) : deleted o (rows.finalize me c) = deleted o rows :=
  deleted_map (fun _ => vid_finalize) fun _ _ => (own_finalize_other ho hne).2

theorem own_of_filter_other {r : Version α} (hne : o ≠ me) (h : r.owner = o) :
    (!(r.ownInsert me && !ins.contains r.vid)) = true := by
  have : (r.owner == me) = false := by simpa [h] using hne
  simp [ownInsert, this]

theorem owner_of_ownInsert {r : Version α} (h : r.ownInsert o = true) : r.owner = o := by
  simp only [ownInsert, Bool.and_eq_true, beq_iff_eq] at h
  exact h.1

theorem owner_of_ownDelete {r : Version α} (h : r.ownDelete o = true) : r.owner = o := by
  simp only [ownDelete, Bool.and_eq_true, beq_iff_eq] at h
  exact h.1

theorem inserted_rollbackTo_other (ho : o ≠ 0) (hne : o ≠ me) :
    inserted o (rows.rollbackTo me ins del) = inserted o rows := by
  rw [rollbackTo, inserted_map (fun _ => vid_undeleteTo _) (fun _ => values_undeleteTo _)
    fun _ _ => (own_undeleteTo_other ho hne).1]
  ext p
  constructor
  · rintro ⟨r, hr, hown, heq⟩
    exact ⟨r, List.mem_of_mem_filter hr, hown, heq⟩
  · rintro ⟨r, hr, hown, heq⟩
    exact ⟨r, List.mem_filter.2 ⟨hr, own_of_filter_other hne (owner_of_ownInsert hown)⟩, hown, heq⟩

theorem deleted_rollbackTo_other (ho : o ≠ 0) (hne : o ≠ me) :
    deleted o (rows.rollbackTo me ins del) = deleted o rows := by
  rw [rollbackTo, deleted_map (fun _ => vid_undeleteTo _) fun _ _ => (own_undeleteTo_other ho hne).2]
  ext v
  constructor
  · rintro ⟨r, hr, hown, heq⟩
    exact ⟨r, List.mem_of_mem_filter hr, hown, heq⟩
  · rintro ⟨r, hr, hown, heq⟩
    exact ⟨r, List.mem_filter.2 ⟨hr, own_of_filter_other hne (owner_of_ownDelete hown)⟩, hown, heq⟩

theorem inserted_rollback_other (ho : o ≠ 0) (hne : o ≠ me) : inserted o (rows.rollback me) = inserted o rows := by
  rw [rollback_eq, inserted_rollbackTo_other ho hne]

theorem deleted_rollback_other (ho : o ≠ 0) (hne : o ≠ me) : deleted o (rows.rollback me) = deleted o rows := by
  rw [rollback_eq, deleted_rollbackTo_other ho hne]

theorem stamps_finalizeAll_other {commits : List (Nat × Nat)} (ho : o ≠ 0) (hnot : o ∉ commits.map (·.1)) :
    inserted o (rows.finalizeAll commits) = inserted o rows ∧
      deleted o (rows.finalizeAll commits) = deleted o rows := by
  induction commits generalizing rows with
  | nil => exact ⟨rfl, rfl⟩
  | cons p commits ih =>
    obtain ⟨hne, hnot⟩ : o ≠ p.1 ∧ o ∉ commits.map (·.1) := by simpa using hnot
    obtain ⟨hi, hd⟩ := ih hnot
    rw [inserted_finalize_other ho hne] at hi
    rw [deleted_finalize_other ho hne] at hd
    exact ⟨hi, hd⟩

theorem stamps_rollbackAll_other {owners : List Nat} (ho : o ≠ 0) (hnot : o ∉ owners) :
    inserted o (rows.rollbackAll owners) = inserted o rows ∧
      deleted o (rows.rollbackAll owners) = deleted o rows := by
  induction owners generalizing rows with
  | nil => exact ⟨rfl, rfl⟩
  | cons o' owners ih =>
    obtain ⟨hne, hnot⟩ : o ≠ o' ∧ o ∉ owners := by simpa using hnot
    obtain ⟨hi, hd⟩ := ih hnot
    rw [inserted_rollback_other ho hne] at hi
    rw [deleted_rollback_other ho hne] at hd
    exact ⟨hi, hd⟩

/-! ## Changes -/

/-- What the changes of a writer may reach. -/
def Touchable (me : Nat) (r : Version α) : Prop := r.Free me ∨ r.Taken me

theorem inserted_pend_insert (values : α) :
    inserted o (rows.pend me (.insert vid values)) =
      inserted o rows ∪ if me = o then {(vid, values)} else ∅ := by
  ext p
  simp only [inserted, Rows.pend, List.mem_append, List.mem_singleton, Set.mem_union, Set.mem_ofPred_eq]
  constructor
  · rintro ⟨r, hr | rfl, hown, heq⟩
    · exact .inl ⟨r, hr, hown, heq⟩
    · have hme : me = o := owner_of_ownInsert hown
      right
      rw [if_pos hme]
      exact heq.symm
  · rintro (⟨r, hr, hown, heq⟩ | h)
    · exact ⟨r, .inl hr, hown, heq⟩
    · split at h
      · next hme => exact ⟨_, .inr rfl, by simp [ownInsert, hme], Eq.symm h⟩
      · exact absurd h (Set.notMem_empty _)

theorem deleted_pend_insert (values : α) :
    deleted o (rows.pend me (.insert vid values)) = deleted o rows := by
  ext v
  simp only [deleted, Rows.pend, List.mem_append, List.mem_singleton, Set.mem_ofPred_eq]
  constructor
  · rintro ⟨r, hr | rfl, hown, heq⟩
    · exact ⟨r, hr, hown, heq⟩
    · simp [ownDelete, PENDING_pos.ne] at hown
  · rintro ⟨r, hr, hown, heq⟩
    exact ⟨r, .inl hr, hown, heq⟩

/-- A delete changes no pending insert. -/
theorem inserted_pend_delete (h : (rows.map (·.vid)).Nodup) (ha : Allows (Touchable me) rows (.delete vid)) :
    inserted o (rows.pend me (.delete vid)) = inserted o rows := by
  rw [pend_delete_eq h]
  refine inserted_map (fun r => by split <;> rfl) (fun r => by split <;> rfl) fun r hr => ?_
  split
  · next hv =>
    obtain ⟨r', hr', hv', hok⟩ := ha
    obtain rfl := List.inj_on_of_nodup_map h hr hr' (hv.trans hv'.symm)
    by_cases hcr : r.createLsn = PENDING
    · -- a pending create it may supersede is its own
      have hown : r.owner = me := by
        rcases hok with hfree | htaken
        · exact hfree.2 hcr
        · exact absurd hcr htaken.1
      simp [ownInsert, Version.pendDelete, hown]
    · have hcr' : (r.createLsn == PENDING) = false := by simpa using hcr
      simp [ownInsert, Version.pendDelete, hcr']
  · rfl

theorem deleted_pend_delete_self (ha : Allows (Touchable me) rows (.delete vid))
    (h : (rows.map (·.vid)).Nodup) :
    deleted me (rows.pend me (.delete vid)) = deleted me rows ∪ {vid} := by
  rw [pend_delete_eq h]
  ext v
  simp only [deleted, Set.mem_union, Set.mem_ofPred_eq, Set.mem_singleton_iff]
  constructor
  · rintro ⟨_, hmem, hown, heq⟩
    obtain ⟨r, hr, rfl⟩ := List.mem_map.1 hmem
    by_cases hv : r.vid = vid
    · rw [if_pos hv] at heq
      exact .inr (heq.symm.trans hv)
    · rw [if_neg hv] at heq hown
      exact .inl ⟨r, hr, hown, heq⟩
  · rintro (⟨r, hr, hown, rfl⟩ | rfl)
    · refine ⟨_, List.mem_map_of_mem hr, ?_, ?_⟩
      · split
        · simp [ownDelete, Version.pendDelete]
        · exact hown
      · split <;> rfl
    · obtain ⟨r, hr, hv, -⟩ := ha
      refine ⟨_, List.mem_map_of_mem hr, ?_, ?_⟩
      · simp [hv, ownDelete, Version.pendDelete]
      · simp [hv]

theorem deleted_pend_delete_subset (hne : o ≠ me) :
    deleted o (rows.pend me (.delete vid)) ⊆ deleted o rows := by
  rintro v ⟨r, hr, hown, heq⟩
  obtain ⟨r', hr', rfl | ⟨-, rfl⟩⟩ := mem_pend_delete hr
  · exact ⟨r, hr', hown, heq⟩
  · exact absurd (owner_of_ownDelete hown) hne.symm

theorem deleted_pend_delete_other (h : Sound rows) (ha : Admits me rows (.delete vid)) (ho : o ≠ 0)
    (hne : o ≠ me) : deleted o (rows.pend me (.delete vid)) = deleted o rows := by
  refine Set.Subset.antisymm (deleted_pend_delete_subset hne) ?_
  rintro v ⟨r, hr, hown, heq⟩
  obtain ⟨r', hr', hv, hfree⟩ := ha
  refine ⟨r, mem_pend_delete_of_ne ?_ hr, hown, heq⟩
  intro hvid
  obtain rfl := h.eq_of_vid hr hr' (hvid.trans hv.symm)
  exact Free.owner_ne h hr hfree ho hne (owner_of_ownDelete hown)

/-- A writer's changes add to what it has pending. -/
theorem stamps_pendAll_self (h : (rows.map (·.vid)).Nodup) (ha : AllowsAll (Touchable me) me rows ops) :
    inserted me (rows.pendAll me ops) = inserted me rows ∪ insertsOf ops ∧
      deleted me (rows.pendAll me ops) = deleted me rows ∪ deletesOf ops := by
  induction ops generalizing rows with
  | nil => simp [pendAll]
  | cons op ops ih =>
    obtain ⟨hi, hd⟩ := ih (nodup_pend h ha.1) ha.2
    cases op with
    | insert vid values =>
      rw [inserted_pend_insert, if_pos rfl] at hi
      rw [deleted_pend_insert] at hd
      refine ⟨hi.trans ?_, hd.trans ?_⟩
      · ext p
        simp only [insertsOf, Set.mem_union, Set.mem_singleton_iff, Set.mem_ofPred_eq, List.mem_cons,
          Op.insert.injEq, or_assoc, Prod.ext_iff]
      · ext v
        simp [deletesOf]
    | delete vid =>
      rw [inserted_pend_delete h ha.1] at hi
      rw [deleted_pend_delete_self ha.1 h] at hd
      refine ⟨hi.trans ?_, hd.trans ?_⟩
      · ext p
        simp [insertsOf]
      · ext v
        simp only [deletesOf, Set.mem_union, Set.mem_singleton_iff, Set.mem_ofPred_eq, List.mem_cons,
          Op.delete.injEq, or_assoc]

/-- A writer's first change shows. -/
theorem pendAll_ne (h : (rows.map (·.vid)).Nodup) {op : Op α} (ha : AllowsAll (Touchable me) me rows (op :: ops)) :
    rows.pendAll me (op :: ops) ≠ rows := by
  intro heq
  obtain ⟨hi, hd⟩ := stamps_pendAll_self h ha
  rw [heq] at hi hd
  cases op with
  | insert vid values =>
    have hmem : (vid, values) ∈ inserted me rows := by
      rw [hi]
      exact .inr List.mem_cons_self
    obtain ⟨r, hr, -, hv⟩ := hmem
    exact ha.1 r hr (congrArg Prod.fst hv)
  | delete vid =>
    have hmem : vid ∈ deleted me rows := by
      rw [hd]
      exact .inr List.mem_cons_self
    obtain ⟨r, hr, hown, hv⟩ := hmem
    obtain ⟨r', hr', hv', hok⟩ := ha.1
    obtain rfl := List.inj_on_of_nodup_map h hr hr' (hv.trans hv'.symm)
    simp only [ownDelete, Bool.and_eq_true, beq_iff_eq] at hown
    rcases hok with hfree | htaken
    · exact PENDING_pos.ne (hfree.1.symm.trans hown.2)
    · exact htaken.2.2 hown.1

theorem inserted_pendAll_other (h : (rows.map (·.vid)).Nodup) (ha : AllowsAll (Touchable me) me rows ops)
    (hne : o ≠ me) : inserted o (rows.pendAll me ops) = inserted o rows := by
  induction ops generalizing rows with
  | nil => rfl
  | cons op ops ih =>
    refine (ih (nodup_pend h ha.1) ha.2).trans ?_
    cases op with
    | insert vid values => simp [inserted_pend_insert, hne.symm]
    | delete vid => exact inserted_pend_delete h ha.1

theorem deleted_pendAll_subset (hne : o ≠ me) : deleted o (rows.pendAll me ops) ⊆ deleted o rows := by
  induction ops generalizing rows with
  | nil => exact subset_rfl
  | cons op ops ih =>
    refine ih.trans ?_
    cases op with
    | insert vid values => rw [deleted_pend_insert]
    | delete vid => exact deleted_pend_delete_subset hne

theorem deleted_pendAll_other (h : Sound rows) (hme : me ≠ 0) (ha : AdmitsAll me rows ops) (ho : o ≠ 0)
    (hne : o ≠ me) : deleted o (rows.pendAll me ops) = deleted o rows := by
  induction ops generalizing rows with
  | nil => rfl
  | cons op ops ih =>
    refine (ih (h.pend hme ha.1) ha.2).trans ?_
    cases op with
    | insert vid values => rw [deleted_pend_insert]
    | delete vid => exact deleted_pend_delete_other h ha.1 ho hne

/-! ## Back to a saved set -/

theorem own_undeleteTo_self {r : Version α} : (r.undeleteTo me del).ownInsert me = r.ownInsert me ∧
    ((r.undeleteTo me del).ownDelete me = true ↔ r.ownDelete me = true ∧ r.vid ∈ del) := by
  rw [Version.undeleteTo]
  split
  · next hcond =>
    obtain ⟨hown, hnot⟩ : r.ownDelete me = true ∧ r.vid ∉ del := by simpa using hcond
    have ho := owner_of_ownDelete hown
    constructor
    · by_cases hcr : r.createLsn = PENDING
      · simp [ownInsert, hcr]
      · have hcr' : (r.createLsn == PENDING) = false := by simpa using hcr
        simp [ownInsert, hcr']
    · simp [ownDelete, hnot, PENDING_pos.ne]
  · next hcond =>
    refine ⟨rfl, ?_⟩
    constructor
    · intro hown
      refine ⟨hown, ?_⟩
      simpa [hown] using hcond
    · exact fun h => h.1

/-- The saved set cuts a writer's inserts down to those it lists. -/
theorem inserted_rollbackTo_self :
    inserted me (rows.rollbackTo me ins del) = {p ∈ inserted me rows | p.1 ∈ ins} := by
  rw [rollbackTo, inserted_map (fun _ => vid_undeleteTo _) (fun _ => values_undeleteTo _)
    fun _ _ => own_undeleteTo_self.1]
  ext p
  simp only [inserted, Set.mem_ofPred_eq]
  constructor
  · rintro ⟨r, hr, hown, rfl⟩
    obtain ⟨hr, hkeep⟩ := List.mem_filter.1 hr
    refine ⟨⟨r, hr, hown, rfl⟩, ?_⟩
    simpa [hown] using hkeep
  · rintro ⟨⟨r, hr, hown, rfl⟩, hmem⟩
    refine ⟨r, List.mem_filter.2 ⟨hr, ?_⟩, hown, rfl⟩
    simpa [hown] using hmem

/-- Of a writer's deletes the listed ones stay, on versions that stay. -/
theorem deleted_rollbackTo_self (h : (rows.map (·.vid)).Nodup) :
    deleted me (rows.rollbackTo me ins del) =
      {v ∈ deleted me rows | v ∈ del ∧ ∀ values, (v, values) ∈ inserted me rows → v ∈ ins} := by
  ext v
  simp only [deleted, inserted, rollbackTo, Set.mem_ofPred_eq]
  constructor
  · rintro ⟨_, hmem, hown, rfl⟩
    obtain ⟨r, hfilter, rfl⟩ := List.mem_map.1 hmem
    obtain ⟨hr, hkeep⟩ := List.mem_filter.1 hfilter
    obtain ⟨hdel, hlisted⟩ := own_undeleteTo_self.2.1 hown
    rw [vid_undeleteTo]
    refine ⟨⟨r, hr, hdel, rfl⟩, hlisted, ?_⟩
    rintro values ⟨r', hr', hins, heq⟩
    obtain rfl := List.inj_on_of_nodup_map h hr' hr (congrArg Prod.fst heq)
    simpa [hins] using hkeep
  · rintro ⟨⟨r, hr, hdel, rfl⟩, hmem, hins⟩
    refine ⟨_, List.mem_map_of_mem (List.mem_filter.2 ⟨hr, ?_⟩), own_undeleteTo_self.2.2 ⟨hdel, hmem⟩,
      vid_undeleteTo _⟩
    cases hown : r.ownInsert me
    · rfl
    · simp [hins r.values ⟨r, hr, hown, rfl⟩]

end Rows

end Mvcc
