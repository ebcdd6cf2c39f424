/-
In-flight writers as layers over the durable rows.

Each writer's pending changes are a layer (`pendAll`) over what was there
before it took the write lane. Publishing or discarding one writer passes
through the layers of the others (`finalize_pend_other`,
`rollbackTo_pend_other`), publishing a writer's own layer is committing its
changes (`finalize_pend_self`), and discarding it removes the layer
(`rollbackTo_pend_self`). `overlay` stacks the layers in lane order.
-/
import Twill.Lib.MvccFacts

universe u

namespace Mvcc

variable {α : Type u}

namespace Rows

open Version

variable {rows : Rows α} {top next me o c vid : Nat} {values : α} {op : Op α} {ops : List (Op α)}
  {ins del : List Nat}

/-- Distinct ids, and an owner exactly on the versions with a pending stamp. -/
structure Sound (rows : Rows α) : Prop where
  nodup : (rows.map (·.vid)).Nodup
  owner : ∀ r ∈ rows, r.owner ≠ 0 ↔ r.createLsn = PENDING ∨ r.deleteLsn = PENDING

theorem WF.sound (h : WF top next rows) : Sound rows := ⟨h.nodup, fun r hr => (h.version r hr).owner⟩

theorem mem_pend_delete {r : Version α} :
    ∀ {rows : Rows α}, r ∈ rows.pend me (.delete vid) →
      ∃ r' ∈ rows, r = r' ∨ (r'.vid = vid ∧ r = r'.pendDelete me)
  | [], h => by simp [pend, modifyFirst] at h
  | r' :: rows, h => by
    simp only [pend, modifyFirst] at h
    split at h
    · next hv =>
      rcases List.mem_cons.1 h with rfl | h
      · exact ⟨r', List.mem_cons_self, .inr ⟨by simpa using hv, rfl⟩⟩
      · exact ⟨r, List.mem_cons_of_mem _ h, .inl rfl⟩
    · rcases List.mem_cons.1 h with rfl | h
      · exact ⟨r, List.mem_cons_self, .inl rfl⟩
      · obtain ⟨r'', hr'', heq⟩ := mem_pend_delete h
        exact ⟨r'', List.mem_cons_of_mem _ hr'', heq⟩

/-- A change the rows allow: a new id, or a version that is `ok` to supersede. -/
def Allows (ok : Version α → Prop) (rows : Rows α) : Op α → Prop
  | .insert vid _ => ∀ r ∈ rows, r.vid ≠ vid
  | .delete vid => ∃ r ∈ rows, r.vid = vid ∧ ok r

def AllowsAll (ok : Version α → Prop) (me : Nat) : Rows α → List (Op α) → Prop
  | _, [] => True
  | rows, op :: ops => Allows ok rows op ∧ AllowsAll ok me (rows.pend me op) ops

/-- The change is `me`'s to make: it takes no other writer's stamp. -/
abbrev Admits (me : Nat) (rows : Rows α) (op : Op α) : Prop := Allows (Free me) rows op

abbrev AdmitsAll (me : Nat) (rows : Rows α) (ops : List (Op α)) : Prop := AllowsAll (Free me) me rows ops

theorem AllowsAll.imp {ok ok' : Version α → Prop} (himp : ∀ r, ok r → ok' r) :
    ∀ {ops : List (Op α)} {rows : Rows α}, AllowsAll ok me rows ops → AllowsAll ok' me rows ops
  | [], _, _ => trivial
  | .insert _ _ :: _, _, h => ⟨h.1, AllowsAll.imp himp h.2⟩
  | .delete _ :: _, _, h =>
    ⟨h.1.imp fun r ⟨hr, hv, hok⟩ => ⟨hr, hv, himp r hok⟩, AllowsAll.imp himp h.2⟩

theorem vids_subset_pend {r : Version α} (hr : r ∈ rows) : ∃ r' ∈ rows.pend me op, r'.vid = r.vid := by
  cases op with
  | insert vid values => exact ⟨r, List.mem_append_left _ hr, rfl⟩
  | delete vid =>
    have hmem : r.vid ∈ (rows.pend me (.delete vid)).map (·.vid) := by
      rw [pend, map_modifyFirst fun _ => vid_pendDelete]
      exact List.mem_map_of_mem hr
    obtain ⟨r', hr', heq⟩ := List.mem_map.1 hmem
    exact ⟨r', hr', heq⟩

/-- An insert among the changes uses an id no version has. -/
theorem AllowsAll.fresh {ok : Version α → Prop} :
    ∀ {ops : List (Op α)} {rows : Rows α}, AllowsAll ok me rows ops → Op.insert vid values ∈ ops →
      ∀ r ∈ rows, r.vid ≠ vid
  | op :: ops, rows, h, hmem, r, hr => by
    rcases List.mem_cons.1 hmem with rfl | hmem
    · exact h.1 r hr
    · obtain ⟨r', hr', heq⟩ := vids_subset_pend hr
      rw [← heq]
      exact AllowsAll.fresh h.2 hmem r' hr'

/-- Changes that reach only free versions and versions taken by others take no
other writer's stamp when none of the versions they supersede is taken. -/
theorem admitsAll_of_not_taken (h : AllowsAll (fun r => r.Free me ∨ r.Taken me) me rows ops)
    (hnot : ∀ vid, Op.delete vid ∈ ops → ∀ r ∈ rows, r.vid = vid → ¬ r.Taken me) :
    AdmitsAll me rows ops := by
  induction ops generalizing rows with
  | nil => trivial
  | cons op ops ih =>
    refine ⟨?_, ih h.2 ?_⟩
    · cases op with
      | insert vid values => exact h.1
      | delete vid =>
        obtain ⟨r, hr, hv, hok⟩ := h.1
        exact ⟨r, hr, hv, hok.resolve_right (hnot vid List.mem_cons_self r hr hv)⟩
    · intro vid hmem r hr hv
      have hnot' := hnot vid (List.mem_cons_of_mem _ hmem)
      cases op with
      | insert vid' values =>
        rcases List.mem_append.1 hr with hr | hr
        · exact hnot' r hr hv
        · obtain rfl := List.mem_singleton.1 hr
          simp [Taken]
      | delete vid' =>
        obtain ⟨r', hr', rfl | ⟨-, rfl⟩⟩ := mem_pend_delete hr
        · exact hnot' r hr' hv
        · simp [Taken, Version.pendDelete]

/-- A version after a writer's changes: as before, deleted by it, or new. -/
theorem mem_pendAll {r : Version α} (hr : r ∈ rows.pendAll me ops) :
    r ∈ rows ∨ (r.deleteLsn = PENDING ∧ r.owner = me) ∨
      ∃ vid values, Op.insert vid values ∈ ops ∧ r = ⟨vid, values, PENDING, 0, me⟩ := by
  induction ops generalizing rows with
  | nil => exact .inl hr
  | cons op ops ih =>
    rcases ih hr with hmem | hdel | ⟨vid, values, hmem, heq⟩
    · cases op with
      | insert vid values =>
        rcases List.mem_append.1 hmem with hmem | hmem
        · exact .inl hmem
        · exact .inr (.inr ⟨vid, values, List.mem_cons_self, List.mem_singleton.1 hmem⟩)
      | delete vid =>
        obtain ⟨r', hr', rfl | ⟨-, rfl⟩⟩ := mem_pend_delete hmem
        · exact .inl hr'
        · exact .inr (.inl ⟨rfl, rfl⟩)
    · exact .inr (.inl hdel)
    · exact .inr (.inr ⟨vid, values, List.mem_cons_of_mem _ hmem, heq⟩)

theorem nodup_pend (h : (rows.map (·.vid)).Nodup) {ok : Version α → Prop} (ha : Allows ok rows op) :
    ((rows.pend me op).map (·.vid)).Nodup := by
  cases op with
  | insert vid values =>
    rw [Rows.pend, List.map_append, List.nodup_append]
    refine ⟨h, by simp, ?_⟩
    intro a hmem b hb
    obtain ⟨r, hr, rfl⟩ := List.mem_map.1 hmem
    obtain rfl : b = vid := by simpa using hb
    exact ha r hr
  | delete vid =>
    rw [Rows.pend, map_modifyFirst fun _ => vid_pendDelete]
    exact h

/-- A writer's changes are invisible to readers. -/
theorem visible_pendAll {s : Nat} (hp : s < PENDING) (h : (rows.map (·.vid)).Nodup)
    (ha : AllowsAll (fun r => r.Free me ∨ r.Taken me) me rows ops) :
    (rows.pendAll me ops).visible s = rows.visible s := by
  induction ops generalizing rows with
  | nil => rfl
  | cons op ops ih =>
    have hrest : (rows.pendAll me (op :: ops)).visible s = (rows.pend me op).visible s :=
      ih (nodup_pend h ha.1) ha.2
    rw [hrest]
    cases op with
    | insert vid values => exact visible_pend_insert hp
    | delete vid =>
      refine visible_pend_delete hp h fun r hr hv => ?_
      obtain ⟨r', hr', hv', hok⟩ := ha.1
      obtain rfl := List.inj_on_of_nodup_map h hr hr' (hv.trans hv'.symm)
      exact hok.imp (fun hfree => hfree.1) fun htaken => htaken.2.1

theorem mem_pend_delete_of_ne {r : Version α} (hne : r.vid ≠ vid) :
    ∀ {rows : Rows α}, r ∈ rows → r ∈ rows.pend me (.delete vid)
  | r' :: rows, h => by
    simp only [pend, modifyFirst]
    rcases List.mem_cons.1 h with rfl | h
    · simp [hne]
    · split
      · exact List.mem_cons_of_mem _ h
      · exact List.mem_cons_of_mem _ (mem_pend_delete_of_ne hne h)

/-- A version stays as it is, unless it was free for the writer. -/
theorem AllowsAll.kept {ok : Version α → Prop} {r : Version α} (h : (rows.map (·.vid)).Nodup) (hr : r ∈ rows)
    (ha : AllowsAll ok me rows ops) : r ∈ rows.pendAll me ops ∨ ok r := by
  induction ops generalizing rows with
  | nil => exact .inl hr
  | cons op ops ih =>
    have hrest : r ∈ rows.pend me op → r ∈ rows.pendAll me (op :: ops) ∨ ok r := fun hr' =>
      ih (nodup_pend h ha.1) hr' ha.2
    cases op with
    | insert vid values => exact hrest (List.mem_append_left _ hr)
    | delete vid =>
      by_cases hv : r.vid = vid
      · obtain ⟨r', hr', hv', hok⟩ := ha.1
        obtain rfl := List.inj_on_of_nodup_map h hr hr' (hv.trans hv'.symm)
        exact .inr hok
      · exact hrest (mem_pend_delete_of_ne hv hr)

/-- No version carries a stamp of `o`. -/
def Untouched (o : Nat) (rows : Rows α) : Prop := ∀ r ∈ rows, r.owner ≠ o

theorem Sound.eq_of_vid (h : Sound rows) {r r' : Version α} (hr : r ∈ rows) (hr' : r' ∈ rows)
    (hv : r.vid = r'.vid) : r = r' :=
  List.inj_on_of_nodup_map h.nodup hr hr' hv

theorem Sound.map (h : Sound rows) {g : Version α → Version α} (hvid : ∀ r, (g r).vid = r.vid)
    (hg : ∀ r ∈ rows, (g r).owner ≠ 0 ↔ (g r).createLsn = PENDING ∨ (g r).deleteLsn = PENDING) :
    Sound (rows.map g) := by
  refine ⟨?_, ?_⟩
  · have : (rows.map g).map (·.vid) = rows.map (·.vid) := by simp [hvid]
    rw [this]
    exact h.nodup
  · intro r hr
    obtain ⟨r', hr', rfl⟩ := List.mem_map.1 hr
    exact hg r' hr'

theorem Sound.pend (h : Sound rows) (hme : me ≠ 0) (ha : Admits me rows op) : Sound (rows.pend me op) := by
  cases op with
  | insert vid values =>
    refine ⟨nodup_pend h.nodup ha, ?_⟩
    · intro r hr
      rcases List.mem_append.1 hr with hr | hr
      · exact h.owner r hr
      · obtain rfl := List.mem_singleton.1 hr
        simp [hme]
  | delete vid =>
    rw [pend_delete_eq h.nodup]
    refine h.map (fun r => by split <;> rfl) fun r hr => ?_
    split
    · simp [Version.pendDelete, hme]
    · exact h.owner r hr

theorem Sound.pendAll (h : Sound rows) (hme : me ≠ 0) (ha : AdmitsAll me rows ops) :
    Sound (rows.pendAll me ops) := by
  induction ops generalizing rows with
  | nil => exact h
  | cons op ops ih => exact ih (h.pend hme ha.1) ha.2

theorem Sound.finalize (h : Sound rows) (hc : c ≠ PENDING) : Sound (rows.finalize me c) := by
  refine h.map (fun _ => vid_finalize) fun r hr => ?_
  rw [Version.finalize]
  split
  · simp only [ne_eq, not_true_eq_false, false_iff, not_or]
    refine ⟨?_, ?_⟩ <;> split <;> assumption
  · exact h.owner r hr

theorem Sound.rollbackTo (h : Sound rows) : Sound (rows.rollbackTo me ins del) := by
  have hf : Sound (rows.filter fun r => !(r.ownInsert me && !ins.contains r.vid)) :=
    ⟨h.nodup.sublist (List.Sublist.map _ List.filter_sublist),
      fun r hr => h.owner r (List.mem_of_mem_filter hr)⟩
  refine hf.map (fun _ => vid_undeleteTo _) fun r hr => ?_
  have hown := hf.owner r hr
  rw [Version.undeleteTo]
  split
  · next hcond =>
    simp only [ownDelete, Bool.and_eq_true, beq_iff_eq] at hcond
    have hne : r.owner ≠ 0 := hown.2 (.inr hcond.1.2)
    by_cases hcr : r.createLsn = PENDING
    · simp [hcr, hne]
    · simp [hcr, PENDING_pos.ne]
  · exact hown

/-- A version `me` may supersede is not another writer's. -/
theorem Free.owner_ne (h : Sound rows) {r : Version α} (hr : r ∈ rows) (hf : r.Free me) (ho : o ≠ 0)
    (hne : o ≠ me) : r.owner ≠ o := by
  intro heq
  have hown := (h.owner r hr).1 (by omega)
  rcases hown with hcr | hdel
  · exact hne (heq.symm.trans (hf.2 hcr))
  · rw [hf.1] at hdel
    exact PENDING_pos.ne hdel

/-! ## Passing through another writer's layer -/

theorem pend_map_comm {g : Version α → Version α} (h : Sound rows) (hvid : ∀ r, (g r).vid = r.vid)
    (hne : ∀ r ∈ rows, r.vid = vid → g (r.pendDelete me) = (g r).pendDelete me) :
    (rows.pend me (.delete vid)).map g = Rows.pend me (rows.map g) (.delete vid) := by
  have hnodup : ((rows.map g).map (·.vid)).Nodup := by
    have : (rows.map g).map (·.vid) = rows.map (·.vid) := by simp [hvid]
    rw [this]
    exact h.nodup
  rw [pend_delete_eq h.nodup, pend_delete_eq hnodup, List.map_map, List.map_map]
  apply List.map_congr_left
  intro r hr
  simp only [Function.comp_apply, hvid]
  split
  · next hv => exact hne r hr hv
  · rfl

theorem finalize_pend_other (h : Sound rows) (ho : o ≠ 0) (hne : o ≠ me) (ha : Admits me rows op) :
    (rows.pend me op).finalize o c = (rows.finalize o c).pend me op := by
  cases op with
  | insert vid values => simp [Rows.pend, Rows.finalize, Version.finalize, hne.symm]
  | delete vid =>
    obtain ⟨r, hr, hv, hfree⟩ := ha
    refine pend_map_comm h (fun _ => vid_finalize) fun r' hr' hv' => ?_
    obtain rfl := h.eq_of_vid hr hr' (hv.trans hv'.symm)
    have hown : r.owner ≠ o := Free.owner_ne h hr hfree ho hne
    have hpend : (r.pendDelete me).owner ≠ o := hne.symm
    rw [Version.finalize, if_neg hpend, Version.finalize, if_neg hown]

theorem Admits.finalize (h : Sound rows) (ho : o ≠ 0) (hne : o ≠ me) (ha : Admits me rows op) :
    Admits me (rows.finalize o c) op := by
  cases op with
  | insert vid values =>
    intro r hr
    obtain ⟨r', hr', rfl⟩ := List.mem_map.1 hr
    rw [vid_finalize]
    exact ha r' hr'
  | delete vid =>
    obtain ⟨r, hr, hv, hfree⟩ := ha
    have hown : r.owner ≠ o := Free.owner_ne h hr hfree ho hne
    refine ⟨r, List.mem_map.2 ⟨r, hr, ?_⟩, hv, hfree⟩
    rw [Version.finalize, if_neg hown]

theorem rollbackTo_pend_other (h : Sound rows) (ho : o ≠ 0) (hne : o ≠ me) (ha : Admits me rows op) :
    (rows.pend me op).rollbackTo o ins del = (rows.rollbackTo o ins del).pend me op := by
  cases op with
  | insert vid values =>
    simp [Rows.pend, Rows.rollbackTo, Version.undeleteTo, ownInsert, ownDelete, hne.symm]
  | delete vid =>
    obtain ⟨r, hr, hv, hfree⟩ := ha
    have hown : r.owner ≠ o := Free.owner_ne h hr hfree ho hne
    have hpend : (r.pendDelete me).owner ≠ o := hne.symm
    have hsub : Sound (rows.filter fun r => !(r.ownInsert o && !ins.contains r.vid)) :=
      ⟨h.nodup.sublist (List.Sublist.map _ List.filter_sublist),
        fun r hr => h.owner r (List.mem_of_mem_filter hr)⟩
    have hmapfilter : (rows.pend me (.delete vid)).filter (fun r => !(r.ownInsert o && !ins.contains r.vid)) =
        Rows.pend me (rows.filter fun r => !(r.ownInsert o && !ins.contains r.vid)) (.delete vid) := by
      rw [pend_delete_eq h.nodup, pend_delete_eq hsub.nodup, List.filter_map]
      congr 1
      apply List.filter_congr
      intro r' hr'
      simp only [Function.comp_apply]
      split
      · next hv' =>
        obtain rfl := h.eq_of_vid hr hr' (hv.trans hv'.symm)
        have h1 : (r.pendDelete me).ownInsert o = false := by simp [ownInsert, hpend]
        have h2 : r.ownInsert o = false := by simp [ownInsert, hown]
        rw [h1, h2]
        rfl
      · rfl
    rw [Rows.rollbackTo, hmapfilter, pend_map_comm hsub (fun _ => vid_undeleteTo _) fun r' hr' hv' => ?_]
    · rfl
    · obtain rfl := h.eq_of_vid hr (List.mem_of_mem_filter hr') (hv.trans hv'.symm)
      have h1 : (r.pendDelete me).ownDelete o = false := by simp [ownDelete, hpend]
      have h2 : r.ownDelete o = false := by simp [ownDelete, hown]
      simp [Version.undeleteTo, h1, h2]

theorem Admits.rollbackTo (h : Sound rows) (ho : o ≠ 0) (hne : o ≠ me) (ha : Admits me rows op) :
    Admits me (rows.rollbackTo o ins del) op := by
  cases op with
  | insert vid values =>
    intro r hr
    obtain ⟨r', hr', rfl⟩ := List.mem_map.1 hr
    rw [vid_undeleteTo]
    exact ha r' (List.mem_of_mem_filter hr')
  | delete vid =>
    obtain ⟨r, hr, hv, hfree⟩ := ha
    have hown : r.owner ≠ o := Free.owner_ne h hr hfree ho hne
    refine ⟨r, List.mem_map.2 ⟨r, List.mem_filter.2 ⟨hr, ?_⟩, ?_⟩, hv, hfree⟩
    · simp [ownInsert, hown]
    · simp [Version.undeleteTo, ownDelete, hown]

/-! ## A writer's own layer -/

/-- Publishing a change at `c` is committing it at `c`. -/
theorem finalize_pend_self (h : Sound rows) (ha : Admits me rows op) :
    (rows.pend me op).finalize me c = (rows.finalize me c).commit c op := by
  cases op with
  | insert vid values => simp [Rows.pend, Rows.finalize, Version.finalize, commit, PENDING_pos.ne]
  | delete vid =>
    obtain ⟨r, hr, hv, hfree⟩ := ha
    have hnodup : ((rows.finalize me c).map (·.vid)).Nodup := by
      have : (rows.finalize me c).map (·.vid) = rows.map (·.vid) := by simp [Rows.finalize]
      rw [this]
      exact h.nodup
    rw [commit_delete_eq hnodup, pend_delete_eq h.nodup, Rows.finalize, Rows.finalize, List.map_map,
      List.map_map]
    apply List.map_congr_left
    intro r' hr'
    simp only [Function.comp_apply, vid_finalize]
    split
    · next hv' =>
      obtain rfl := h.eq_of_vid hr hr' (hv.trans hv'.symm)
      by_cases hown : r.owner = me
      · simp only [Version.finalize, Version.pendDelete, hown, if_true]
        rfl
      · -- not `me`'s, so it has no pending stamp and no owner
        have hcr : r.createLsn ≠ PENDING := fun hcr => hown (hfree.2 hcr)
        have h0 : r.owner = 0 := by
          by_contra hne
          rcases (h.owner r hr).1 hne with hc | hd
          · exact hcr hc
          · rw [hfree.1] at hd
            exact PENDING_pos.ne hd
        have hpend : (r.pendDelete me).owner = me := rfl
        rw [Version.finalize, if_pos hpend, Version.finalize, if_neg hown]
        simp [Version.pendDelete, hcr, h0]
    · rfl

theorem finalize_untouched (h : Untouched o rows) : rows.finalize o c = rows := by
  conv_rhs => rw [← List.map_id rows]
  apply List.map_congr_left
  intro r hr
  rw [Version.finalize, if_neg (h r hr)]
  rfl

theorem rollbackTo_untouched (h : Untouched o rows) : rows.rollbackTo o ins del = rows := by
  have hfilter : (rows.filter fun r => !(r.ownInsert o && !ins.contains r.vid)) = rows := by
    rw [List.filter_eq_self]
    intro r hr
    simp [ownInsert, h r hr]
  rw [rollbackTo, hfilter]
  conv_rhs => rw [← List.map_id rows]
  apply List.map_congr_left
  intro r hr
  simp [Version.undeleteTo, ownDelete, h r hr]

/-- The change was made after the saved pending set. -/
def Since (ins del : List Nat) : Op α → Prop
  | .insert vid _ => vid ∉ ins
  | .delete vid => vid ∉ del

/-- Rolling back to a saved set drops a change made since. -/
theorem rollbackTo_pend_self (h : Sound rows) (ha : Admits me rows op) (hs : Since ins del op) :
    (rows.pend me op).rollbackTo me ins del = rows.rollbackTo me ins del := by
  cases op with
  | insert vid values =>
    have hs : vid ∉ ins := hs
    simp [Rows.pend, Rows.rollbackTo, ownInsert, hs]
  | delete vid =>
    have hs : vid ∉ del := hs
    obtain ⟨r, hr, hv, hfree⟩ := ha
    rw [pend_delete_eq h.nodup, Rows.rollbackTo, Rows.rollbackTo, List.filter_map, List.map_map]
    have hins : ∀ r' ∈ rows, (r'.vid = vid → r' = r) := fun r' hr' hv' =>
      (h.eq_of_vid hr hr' (hv.trans hv'.symm)).symm
    by_cases hcr : r.createLsn = PENDING
    · -- `me`'s own insert: the filter decides as before, the delete is cleared
      have hown := hfree.2 hcr
      have hfilter : (rows.filter ((fun r => !(r.ownInsert me && !ins.contains r.vid)) ∘ fun r =>
          if r.vid = vid then r.pendDelete me else r)) =
          rows.filter fun r => !(r.ownInsert me && !ins.contains r.vid) := by
        apply List.filter_congr
        intro r' hr'
        simp only [Function.comp_apply]
        split
        · next hv' =>
          obtain rfl := hins r' hr' hv'
          simp [ownInsert, Version.pendDelete, hown]
        · rfl
      rw [hfilter]
      apply List.map_congr_left
      intro r' hr'
      simp only [Function.comp_apply]
      split
      · next hv' =>
        obtain rfl := hins r' (List.mem_of_mem_filter hr') hv'
        cases r'
        simp_all [Version.undeleteTo, Version.pendDelete, ownDelete, Free, PENDING_pos.ne]
      · rfl
    · have hown : r.owner = 0 := by
        by_contra hne
        rcases (h.owner r hr).1 hne with hc | hd
        · exact hcr hc
        · rw [hfree.1] at hd
          exact PENDING_pos.ne hd
      have hfilter : (rows.filter ((fun r => !(r.ownInsert me && !ins.contains r.vid)) ∘ fun r =>
          if r.vid = vid then r.pendDelete me else r)) =
          rows.filter fun r => !(r.ownInsert me && !ins.contains r.vid) := by
        apply List.filter_congr
        intro r' hr'
        simp only [Function.comp_apply]
        split
        · next hv' =>
          obtain rfl := hins r' hr' hv'
          have h1 : (r'.pendDelete me).ownInsert me = false := by simp [ownInsert, Version.pendDelete, hcr]
          have h2 : r'.ownInsert me = false := by simp [ownInsert, hcr]
          rw [h1, h2]
          rfl
        · rfl
      rw [hfilter]
      apply List.map_congr_left
      intro r' hr'
      simp only [Function.comp_apply]
      split
      · next hv' =>
        obtain rfl := hins r' (List.mem_of_mem_filter hr') hv'
        cases r'
        simp_all [Version.undeleteTo, Version.pendDelete, ownDelete, Free, PENDING_pos.ne]
      · rfl

/-! ## Layers of several changes -/

theorem pendAll_append (ops' : List (Op α)) :
    rows.pendAll me (ops ++ ops') = (rows.pendAll me ops).pendAll me ops' := List.foldl_append

theorem allowsAll_append {ok : Version α → Prop} {ops' : List (Op α)} :
    AllowsAll ok me rows (ops ++ ops') ↔
      AllowsAll ok me rows ops ∧ AllowsAll ok me (rows.pendAll me ops) ops' := by
  induction ops generalizing rows with
  | nil => simp [AllowsAll, pendAll]
  | cons op ops ih =>
    simp only [List.cons_append, AllowsAll, ih, and_assoc]
    rfl

theorem finalize_pendAll_other (h : Sound rows) (hme : me ≠ 0) (ho : o ≠ 0) (hne : o ≠ me)
    (ha : AdmitsAll me rows ops) :
    (rows.pendAll me ops).finalize o c = (rows.finalize o c).pendAll me ops ∧
      AdmitsAll me (rows.finalize o c) ops := by
  induction ops generalizing rows with
  | nil => exact ⟨rfl, trivial⟩
  | cons op ops ih =>
    obtain ⟨hrows, hadm⟩ := ih (h.pend hme ha.1) ha.2
    rw [finalize_pend_other h ho hne ha.1] at hrows hadm
    exact ⟨hrows, Admits.finalize h ho hne ha.1, hadm⟩

theorem rollbackTo_pendAll_other (h : Sound rows) (hme : me ≠ 0) (ho : o ≠ 0) (hne : o ≠ me)
    (ha : AdmitsAll me rows ops) :
    (rows.pendAll me ops).rollbackTo o ins del = (rows.rollbackTo o ins del).pendAll me ops ∧
      AdmitsAll me (rows.rollbackTo o ins del) ops := by
  induction ops generalizing rows with
  | nil => exact ⟨rfl, trivial⟩
  | cons op ops ih =>
    obtain ⟨hrows, hadm⟩ := ih (h.pend hme ha.1) ha.2
    rw [rollbackTo_pend_other h ho hne ha.1] at hrows hadm
    exact ⟨hrows, Admits.rollbackTo h ho hne ha.1, hadm⟩

theorem finalize_pendAll_self (h : Sound rows) (hme : me ≠ 0) (ha : AdmitsAll me rows ops) :
    (rows.pendAll me ops).finalize me c = (rows.finalize me c).commitAll c ops := by
  induction ops generalizing rows with
  | nil => rfl
  | cons op ops ih =>
    have hrest := ih (h.pend hme ha.1) ha.2
    rw [finalize_pend_self h ha.1] at hrest
    exact hrest

theorem rollbackTo_pendAll_self (h : Sound rows) (hme : me ≠ 0) (ha : AdmitsAll me rows ops)
    (hs : ∀ op ∈ ops, Since ins del op) :
    (rows.pendAll me ops).rollbackTo me ins del = rows.rollbackTo me ins del := by
  induction ops generalizing rows with
  | nil => rfl
  | cons op ops ih =>
    have hrest := ih (h.pend hme ha.1) ha.2 fun op' hop' => hs op' (List.mem_cons_of_mem _ hop')
    rw [rollbackTo_pend_self h ha.1 (hs op List.mem_cons_self)] at hrest
    exact hrest

/-- The saved set lists the change. -/
def Kept (ins del : List Nat) : Op α → Prop
  | .insert vid _ => vid ∈ ins
  | .delete vid => vid ∈ del

/-- Rolling back to a set that lists every stamp of the writer changes nothing. -/
theorem rollbackTo_kept (hi : ∀ r ∈ rows, r.ownInsert me = true → r.vid ∈ ins)
    (hd : ∀ r ∈ rows, r.ownDelete me = true → r.vid ∈ del) : rows.rollbackTo me ins del = rows := by
  have hfilter : (rows.filter fun r => !(r.ownInsert me && !ins.contains r.vid)) = rows := by
    rw [List.filter_eq_self]
    intro r hr
    cases hown : r.ownInsert me
    · rfl
    · simp [hi r hr hown]
  rw [rollbackTo, hfilter]
  conv_rhs => rw [← List.map_id rows]
  apply List.map_congr_left
  intro r hr
  cases hown : r.ownDelete me
  · simp [Version.undeleteTo, hown]
  · simp [Version.undeleteTo, hd r hr hown]

/-- A writer's stamps come from its changes. -/
theorem own_of_pendAll (h : Sound rows) (hme : me ≠ 0) (hu : Untouched me rows)
    (ha : AdmitsAll me rows ops) {r : Version α} (hr : r ∈ rows.pendAll me ops) :
    (r.ownInsert me = true → ∃ values, Op.insert r.vid values ∈ ops) ∧
      (r.ownDelete me = true → Op.delete r.vid ∈ ops) := by
  induction ops using List.reverseRecOn generalizing r with
  | nil =>
    have hne := hu r hr
    simp [ownInsert, ownDelete, hne]
  | append_singleton ops op ih =>
    rw [pendAll_append] at hr
    obtain ⟨hops, hop, -⟩ := allowsAll_append.1 ha
    have hkeep : ∀ {r'}, r' ∈ rows.pendAll me ops →
        (r'.ownInsert me = true → ∃ values, Op.insert r'.vid values ∈ ops ++ [op]) ∧
          (r'.ownDelete me = true → Op.delete r'.vid ∈ ops ++ [op]) := fun hr' =>
      ⟨fun hown => ((ih hops hr').1 hown).imp fun _ hmem => List.mem_append_left _ hmem,
        fun hown => List.mem_append_left _ ((ih hops hr').2 hown)⟩
    cases op with
    | insert vid values =>
      rcases List.mem_append.1 hr with hr | hr
      · exact hkeep hr
      · obtain rfl := List.mem_singleton.1 hr
        simp [ownDelete, PENDING_pos.ne]
    | delete vid =>
      obtain ⟨r', hr', heq⟩ := mem_pend_delete hr
      rcases heq with rfl | ⟨hv, rfl⟩
      · exact hkeep hr'
      · -- a version with a pending create is `me`'s own already
        obtain ⟨r₀, hr₀, hv₀, hfree⟩ := hop
        obtain rfl := (h.pendAll hme hops).eq_of_vid hr' hr₀ (hv.trans hv₀.symm)
        refine ⟨fun hown => (hkeep hr').1 ?_, fun _ => by simp [hv]⟩
        simp only [ownInsert, Version.pendDelete, Bool.and_eq_true, beq_iff_eq] at hown ⊢
        exact ⟨hfree.2 hown.2, hown.2⟩

theorem untouched_pend (h : Untouched o rows) (hne : o ≠ me) : Untouched o (rows.pend me op) := by
  intro r hr
  cases op with
  | insert vid values =>
    rcases List.mem_append.1 hr with hr | hr
    · exact h r hr
    · obtain rfl := List.mem_singleton.1 hr
      exact hne.symm
  | delete vid =>
    obtain ⟨r', hr', heq⟩ := mem_pend_delete hr
    rcases heq with rfl | ⟨-, rfl⟩
    · exact h r hr'
    · exact hne.symm

theorem untouched_pendAll (h : Untouched o rows) (hne : o ≠ me) : Untouched o (rows.pendAll me ops) := by
  induction ops generalizing rows with
  | nil => exact h
  | cons op ops ih => exact ih (untouched_pend h hne)

theorem untouched_finalize (h : Untouched o rows) (ho : o ≠ 0) : Untouched o (rows.finalize me c) := by
  intro r hr heq
  exact h r (mem_finalize_owner hr (heq ▸ ho)).1 heq

theorem untouched_finalizeAll {commits : List (Nat × Nat)} (h : Untouched o rows) (ho : o ≠ 0) :
    Untouched o (rows.finalizeAll commits) := by
  intro r hr heq
  exact h r (mem_finalizeAll_owner hr (heq ▸ ho)).1 heq

theorem untouched_rollbackTo (h : Untouched o rows) (ho : o ≠ 0) : Untouched o (rows.rollbackTo me ins del) := by
  intro r hr heq
  obtain ⟨r', hr', heq'⟩ := mem_rollbackTo_owner hr (heq ▸ ho)
  exact h r' hr' (heq'.trans heq)

theorem untouched_rollback (h : Untouched o rows) (ho : o ≠ 0) : Untouched o (rows.rollback me) := by
  rw [rollback_eq]
  exact untouched_rollbackTo h ho

theorem untouched_rollbackAll {owners : List Nat} (h : Untouched o rows) (ho : o ≠ 0) :
    Untouched o (rows.rollbackAll owners) := by
  induction owners generalizing rows with
  | nil => exact h
  | cons o' owners ih => exact ih (untouched_rollback h ho)

/-! ## The stack of layers -/

/-- A writer with its changes. -/
abbrev Layer (α : Type u) := Nat × List (Op α)

def overlay (base : Rows α) (layers : List (Layer α)) : Rows α :=
  layers.foldl (fun rows l => rows.pendAll l.1 l.2) base

/-- Each layer changes only what was free for its writer when it was laid. -/
def Stacks : Rows α → List (Layer α) → Prop
  | _, [] => True
  | rows, l :: ls => l.1 ≠ 0 ∧ AdmitsAll l.1 rows l.2 ∧ Stacks (rows.pendAll l.1 l.2) ls

variable {base : Rows α} {ls ls' : List (Layer α)}

theorem overlay_append : overlay base (ls ++ ls') = overlay (overlay base ls) ls' := List.foldl_append

theorem stacks_append : Stacks base (ls ++ ls') ↔ Stacks base ls ∧ Stacks (overlay base ls) ls' := by
  induction ls generalizing base with
  | nil => simp [Stacks, overlay]
  | cons l ls ih =>
    simp only [List.cons_append, Stacks, ih, and_assoc]
    rfl

theorem Sound.overlay (h : Sound base) (hs : Stacks base ls) : Sound (overlay base ls) := by
  induction ls generalizing base with
  | nil => exact h
  | cons l ls ih => exact ih (h.pendAll hs.1 hs.2.1) hs.2.2

theorem untouched_overlay (h : Untouched o base) (hne : ∀ l ∈ ls, o ≠ l.1) :
    Untouched o (overlay base ls) := by
  induction ls generalizing base with
  | nil => exact h
  | cons l ls ih =>
    exact ih (untouched_pendAll h (hne l List.mem_cons_self)) fun l' hl' => hne l' (List.mem_cons_of_mem _ hl')

theorem finalize_overlay_other (h : Sound base) (ho : o ≠ 0) (hne : ∀ l ∈ ls, o ≠ l.1)
    (hs : Stacks base ls) :
    (overlay base ls).finalize o c = overlay (base.finalize o c) ls ∧ Stacks (base.finalize o c) ls := by
  induction ls generalizing base with
  | nil => exact ⟨rfl, trivial⟩
  | cons l ls ih =>
    obtain ⟨hl, hadm, hrest⟩ := hs
    obtain ⟨hrows, hadm'⟩ := finalize_pendAll_other (c := c) h hl ho (hne l List.mem_cons_self) hadm
    obtain ⟨heq, hst⟩ := ih (h.pendAll hl hadm) (fun l' hl' => hne l' (List.mem_cons_of_mem _ hl')) hrest
    rw [hrows] at heq hst
    exact ⟨heq, hl, hadm', hst⟩

theorem rollbackTo_overlay_other (h : Sound base) (ho : o ≠ 0) (hne : ∀ l ∈ ls, o ≠ l.1)
    (hs : Stacks base ls) :
    (overlay base ls).rollbackTo o ins del = overlay (base.rollbackTo o ins del) ls ∧
      Stacks (base.rollbackTo o ins del) ls := by
  induction ls generalizing base with
  | nil => exact ⟨rfl, trivial⟩
  | cons l ls ih =>
    obtain ⟨hl, hadm, hrest⟩ := hs
    obtain ⟨hrows, hadm'⟩ := rollbackTo_pendAll_other h hl ho
      (hne l List.mem_cons_self) hadm
    obtain ⟨heq, hst⟩ := ih (h.pendAll hl hadm) (fun l' hl' => hne l' (List.mem_cons_of_mem _ hl')) hrest
    rw [hrows] at heq hst
    exact ⟨heq, hl, hadm', hst⟩

/-- Publishing the writer of the lowest layer commits its changes to the base. -/
theorem finalize_overlay_head (h : Sound base) (hu : Untouched o base) (hne : ∀ l ∈ ls, o ≠ l.1)
    (hs : Stacks base ((o, ops) :: ls)) :
    (overlay base ((o, ops) :: ls)).finalize o c = overlay (base.commitAll c ops) ls ∧
      Stacks (base.commitAll c ops) ls := by
  obtain ⟨ho, hadm, hrest⟩ := hs
  have hself := finalize_pendAll_self (c := c) h ho hadm
  rw [finalize_untouched hu] at hself
  obtain ⟨hrows, hst⟩ := finalize_overlay_other (c := c) (h.pendAll ho hadm) ho hne hrest
  rw [hself] at hrows hst
  exact ⟨hrows, hst⟩

/-- Discarding the writer of the lowest layer removes the layer. -/
theorem rollback_overlay_head (h : Sound base) (hu : Untouched o base) (hne : ∀ l ∈ ls, o ≠ l.1)
    (hs : Stacks base ((o, ops) :: ls)) :
    (overlay base ((o, ops) :: ls)).rollback o = overlay base ls ∧ Stacks base ls := by
  obtain ⟨ho, hadm, hrest⟩ := hs
  have hsince : ∀ op ∈ ops, Since [] [] op := fun op _ => by cases op <;> simp [Since]
  have hself := rollbackTo_pendAll_self h ho hadm hsince
  rw [rollbackTo_untouched hu] at hself
  obtain ⟨hrows, hst⟩ := rollbackTo_overlay_other (h.pendAll ho hadm) ho hne hrest
  rw [hself] at hrows hst
  rw [rollback_eq]
  exact ⟨hrows, hst⟩

/-- Taking the topmost writer back to a saved set drops its changes since. -/
theorem rollbackTo_overlay_last {ops' : List (Op α)} (h : Sound base) (hu : Untouched o (overlay base ls))
    (hs : Stacks base (ls ++ [(o, ops ++ ops')])) (hkeep : ∀ op ∈ ops, Kept ins del op)
    (hdrop : ∀ op ∈ ops', Since ins del op) :
    (overlay base (ls ++ [(o, ops ++ ops')])).rollbackTo o ins del = overlay base (ls ++ [(o, ops)]) ∧
      Stacks base (ls ++ [(o, ops)]) := by
  obtain ⟨hls, ho, hadm, -⟩ := stacks_append.1 hs
  obtain ⟨hops, hops'⟩ := allowsAll_append.1 hadm
  have hbase : Sound (overlay base ls) := h.overlay hls
  have hself := rollbackTo_pendAll_self (hbase.pendAll ho hops) ho hops' hdrop
  have hsaved : ((overlay base ls).pendAll o ops).rollbackTo o ins del = (overlay base ls).pendAll o ops := by
    refine rollbackTo_kept (fun r hr hown => ?_) fun r hr hown => ?_
    · obtain ⟨values, hmem⟩ := (own_of_pendAll hbase ho hu hops hr).1 hown
      exact hkeep _ hmem
    · exact hkeep _ ((own_of_pendAll hbase ho hu hops hr).2 hown)
  refine ⟨?_, stacks_append.2 ⟨hls, ho, hops, trivial⟩⟩
  rw [overlay_append, overlay_append]
  show ((overlay base ls).pendAll o (ops ++ ops')).rollbackTo o ins del = (overlay base ls).pendAll o ops
  rw [pendAll_append, hself, hsaved]

end Rows

end Mvcc
