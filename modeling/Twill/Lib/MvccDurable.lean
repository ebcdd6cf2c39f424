/-
Durable rows under the layers of in-flight writers.

With nothing pending in the rows below (`Durable`), publishing the writer of the
lowest layer commits its changes to them (`publish_overlay`), discarding it
drops the layer, and so does rolling back the topmost one. Going back to a
saved set drops the topmost writer's changes since, also when a saved id happens
to be that of a version both inserted and deleted since.
-/
import Twill.Lib.MvccStamps

universe u

namespace Mvcc

variable {α : Type u}

namespace Rows

open Version

variable {rows base : Rows α} {o c vid : Nat} {values : α} {ops ops' : List (Op α)} {ls : List (Layer α)}
  {ins del : List Nat}

/-- Rows with no pending stamp and no owner. -/
structure Durable (rows : Rows α) : Prop where
  sound : Sound rows
  unowned : ∀ r ∈ rows, r.owner = 0

theorem Durable.nil : Durable ([] : Rows α) := ⟨⟨by simp, by simp⟩, by simp⟩

theorem Durable.untouched (h : Durable rows) (ho : o ≠ 0) : Untouched o rows := fun r hr heq =>
  ho (heq.symm.trans (h.unowned r hr))

/-- Images may change. -/
theorem Durable.map (h : Durable rows) (f : Version α → α) :
    Durable (rows.map fun r => { r with values := f r }) := by
  refine ⟨h.sound.map (fun _ => rfl) fun r hr => h.sound.owner r hr, fun r hr => ?_⟩
  obtain ⟨r', hr', rfl⟩ := List.mem_map.1 hr
  exact h.unowned r' hr'

/-- Committing a writer's changes on durable rows leaves durable rows. -/
theorem Durable.commitAll (h : Durable rows) (ho : o ≠ 0) (ha : AdmitsAll o rows ops) (hc : c ≠ PENDING) :
    Durable (rows.commitAll c ops) := by
  have hself := finalize_pendAll_self (c := c) h.sound ho ha
  rw [finalize_untouched (h.untouched ho)] at hself
  rw [← hself]
  refine ⟨(h.sound.pendAll ho ha).finalize hc, fun r hr => ?_⟩
  by_contra hne
  obtain ⟨hr, hown⟩ := mem_finalize_owner hr hne
  rcases mem_pendAll hr with hmem | ⟨-, hme⟩ | ⟨vid, values, -, rfl⟩
  · exact hne (h.unowned r hmem)
  · exact hown hme
  · exact hown rfl

/-- **Publishing the lowest layer** commits its changes to the rows below. -/
theorem publish_overlay (h : Durable base) (hne : ∀ l ∈ ls, o ≠ l.1) (hs : Stacks base ((o, ops) :: ls))
    (hc : c ≠ PENDING) :
    (overlay base ((o, ops) :: ls)).finalize o c = overlay (base.commitAll c ops) ls ∧
      Stacks (base.commitAll c ops) ls ∧ Durable (base.commitAll c ops) := by
  obtain ⟨heq, hst⟩ := finalize_overlay_head (c := c) h.sound (h.untouched hs.1) hne hs
  exact ⟨heq, hst, h.commitAll hs.1 hs.2.1 hc⟩

/-- **Discarding the lowest layer** removes it. -/
theorem discard_overlay (h : Durable base) (hne : ∀ l ∈ ls, o ≠ l.1) (hs : Stacks base ((o, ops) :: ls)) :
    (overlay base ((o, ops) :: ls)).rollback o = overlay base ls ∧ Stacks base ls :=
  rollback_overlay_head h.sound (h.untouched hs.1) hne hs

theorem Durable.untouched_below (h : Durable base) (ho : o ≠ 0) (hne : ∀ l ∈ ls, o ≠ l.1) :
    Untouched o (overlay base ls) := untouched_overlay (h.untouched ho) hne

/-- **Discarding the topmost layer** removes it. -/
theorem rollback_overlay_last (h : Durable base) (hne : ∀ l ∈ ls, o ≠ l.1)
    (hs : Stacks base (ls ++ [(o, ops)])) :
    (overlay base (ls ++ [(o, ops)])).rollback o = overlay base ls ∧ Stacks base ls := by
  obtain ⟨hls, ho, hadm, -⟩ := stacks_append.1 hs
  have hsince : ∀ op ∈ ops, Since [] [] op := fun op _ => by cases op <;> simp [Since]
  have hs' : Stacks base (ls ++ [(o, [] ++ ops)]) := hs
  obtain ⟨heq, -⟩ := rollbackTo_overlay_last h.sound (h.untouched_below ho hne) hs' (by simp) hsince
  rw [rollback_eq, overlay_append]
  rw [overlay_append, overlay_append] at heq
  exact ⟨heq, hls⟩

/-! ## Back to a saved set -/

/-- Saved ids of deletes matter only for versions that stay. -/
theorem rollbackTo_congr {del' : List Nat}
    (h : ∀ r ∈ rows, (r.ownInsert o = true → r.vid ∈ ins) → r.ownDelete o = true → (r.vid ∈ del ↔ r.vid ∈ del')) :
    rows.rollbackTo o ins del = rows.rollbackTo o ins del' := by
  apply List.map_congr_left
  intro r hr
  obtain ⟨hr, hkeep⟩ := List.mem_filter.1 hr
  have hkeep : r.ownInsert o = true → r.vid ∈ ins := by simpa [imp_iff_not_or, or_comm] using hkeep
  rw [Version.undeleteTo, Version.undeleteTo]
  cases hown : r.ownDelete o with
  | false => rfl
  | true =>
    have hiff := h r hr hkeep hown
    by_cases hv : r.vid ∈ del
    · simp [hv, hiff.1 hv]
    · have hv' : r.vid ∉ del' := fun hv' => hv (hiff.2 hv')
      simp [hv, hv']

/-- **Back to a saved set.** The topmost writer's changes since are gone, if no
saved id is that of a version inserted since, and a saved id of a version
deleted since only of one inserted since too. -/
theorem rollbackTo_overlay_saved (h : Durable base) (hne : ∀ l ∈ ls, o ≠ l.1)
    (hs : Stacks base (ls ++ [(o, ops ++ ops')])) (hkeep : ∀ op ∈ ops, Kept ins del op)
    (hins : ∀ v, (∃ values, Op.insert v values ∈ ops') → v ∉ ins)
    (hdel : ∀ v, Op.delete v ∈ ops' → v ∈ del → ∃ values, Op.insert v values ∈ ops') :
    (overlay base (ls ++ [(o, ops ++ ops')])).rollbackTo o ins del = overlay base (ls ++ [(o, ops)]) ∧
      Stacks base (ls ++ [(o, ops)]) := by
  classical
  obtain ⟨hls, ho, hadm, -⟩ := stacks_append.1 hs
  obtain ⟨hops, hops'⟩ := allowsAll_append.1 hadm
  have hsound := (h.sound.overlay hls).pendAll ho hops
  -- the saved deletes that are not of versions inserted since
  let del' := del.filter fun v => ¬ ∃ values, Op.insert v values ∈ ops'
  have hmem : ∀ v, v ∈ del' ↔ v ∈ del ∧ ¬ ∃ values, Op.insert v values ∈ ops' := fun v => by simp [del']
  have hcongr : (overlay base (ls ++ [(o, ops ++ ops')])).rollbackTo o ins del =
      (overlay base (ls ++ [(o, ops ++ ops')])).rollbackTo o ins del' := by
    refine rollbackTo_congr fun r hr hstays hown => ?_
    rw [hmem]
    refine ⟨fun hv => ⟨hv, ?_⟩, fun hv => hv.1⟩
    -- a version inserted since is the writer's own, and is gone
    rintro ⟨values, hnew⟩
    refine hins r.vid ⟨values, hnew⟩ (hstays ?_)
    have hr' : r ∈ ((overlay base ls).pendAll o ops).pendAll o ops' := by
      rw [← pendAll_append]
      rwa [overlay_append] at hr
    have hpend := (stamps_pendAll_self hsound.nodup (hops'.imp fun _ => .inl)).1
    have hin : (r.vid, values) ∈ inserted o (((overlay base ls).pendAll o ops).pendAll o ops') := by
      rw [hpend]
      exact .inr hnew
    obtain ⟨r', hr'', hown', heq⟩ := hin
    obtain rfl := (hsound.pendAll ho hops').eq_of_vid hr'' hr' (congrArg Prod.fst heq)
    exact hown'
  have hfresh : ∀ v values, Op.insert v values ∈ ops' → Op.delete v ∉ ops := by
    intro v values hnew hold
    obtain ⟨r, hr, -, hv⟩ : v ∈ deleted o ((overlay base ls).pendAll o ops) := by
      rw [(stamps_pendAll_self (h.sound.overlay hls).nodup (hops.imp fun _ => .inl)).2]
      exact .inr hold
    exact hops'.fresh hnew r hr hv
  rw [hcongr]
  refine rollbackTo_overlay_last h.sound (h.untouched_below ho hne) hs (fun op hop => ?_) fun op hop => ?_
  · have hkept := hkeep op hop
    cases op with
    | insert v values => exact hkept
    | delete v => exact (hmem v).2 ⟨hkept, fun ⟨values, hnew⟩ => hfresh v values hnew hop⟩
  · cases op with
    | insert v values => exact hins v ⟨values, hop⟩
    | delete v => exact fun hv => ((hmem v).1 hv).2 (hdel v hop ((hmem v).1 hv).1)

end Rows

end Mvcc
