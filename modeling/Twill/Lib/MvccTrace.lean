/-
The history of one table's rows as a list of writers' effects.

Playing a history applies its effects in order. When each change was the
writer's own to make (`Fits`), rolling writers back at the end gives the rows of
the history without them (`rollbackAll_play`): it is as if they had never run.
-/
import Twill.Lib.MvccOverlay

universe u

namespace Mvcc

variable {α : Type u}

/-- What one writer does to the rows of a table. -/
inductive Effect (α : Type u) where
  | wrote (owner : Nat) (ops : List (Op α))
  | published (owner commitLsn : Nat)
  | rolledTo (owner : Nat) (inserted deleted : List Nat)

namespace Effect

def owner : Effect α → Nat
  | .wrote o _ => o
  | .published o _ => o
  | .rolledTo o _ _ => o

def on (rows : Rows α) : Effect α → Rows α
  | .wrote o ops => rows.pendAll o ops
  | .published o c => rows.finalize o c
  | .rolledTo o ins del => rows.rollbackTo o ins del

/-- Discarding a writer altogether. -/
def rolledBack (o : Nat) : Effect α := .rolledTo o [] []

@[simp] theorem on_rolledBack (rows : Rows α) (o : Nat) : (rolledBack o).on rows = rows.rollback o :=
  (Rows.rollback_eq o rows).symm

/-- The effect is its writer's own to have. -/
def Fits (rows : Rows α) : Effect α → Prop
  | .wrote o ops => o ≠ 0 ∧ Rows.AdmitsAll o rows ops
  | .published o c => o ≠ 0 ∧ c ≠ PENDING
  | .rolledTo o _ _ => o ≠ 0

end Effect

namespace Rows

open Version

variable {rows : Rows α} {o o' c : Nat} {ins del ins' del' : List Nat} {es : List (Effect α)}

def play (rows : Rows α) (es : List (Effect α)) : Rows α := es.foldl Effect.on rows

def FitsAll : Rows α → List (Effect α) → Prop
  | _, [] => True
  | rows, e :: es => e.Fits rows ∧ FitsAll (e.on rows) es

theorem play_append (es' : List (Effect α)) : play rows (es ++ es') = play (play rows es) es' := List.foldl_append

theorem fitsAll_append {es' : List (Effect α)} :
    FitsAll rows (es ++ es') ↔ FitsAll rows es ∧ FitsAll (play rows es) es' := by
  induction es generalizing rows with
  | nil => simp [FitsAll, play]
  | cons e es ih =>
    simp only [List.cons_append, FitsAll, ih, and_assoc]
    rfl

/-! ## Rolling back two writers -/

/-- One version under a rollback: dropped, or with a pending delete cleared. -/
def back (o : Nat) (ins del : List Nat) (r : Version α) : Option (Version α) :=
  if r.ownInsert o && !ins.contains r.vid then none else some (r.undeleteTo o del)

theorem rollbackTo_eq_filterMap (rows : Rows α) : rows.rollbackTo o ins del = rows.filterMap (back o ins del) := by
  induction rows with
  | nil => rfl
  | cons r rows ih =>
    have hcons : rollbackTo o ins del (r :: rows) =
        (if r.ownInsert o && !ins.contains r.vid then [] else [r.undeleteTo o del]) ++
          rollbackTo o ins del rows := by
      simp only [rollbackTo, List.filter_cons]
      cases r.ownInsert o && !ins.contains r.vid <;> simp
    rw [hcons, ih, List.filterMap_cons, back]
    split
    · simp
    · simp

theorem back_of_ne {r : Version α} (hne : r.owner ≠ o) : back o ins del r = some r := by
  have hb : (r.owner == o) = false := by simpa using hne
  simp [back, ownInsert, ownDelete, undeleteTo, hb]

/-- A rollback leaves a version its owner or none. -/
theorem back_owner {r r' : Version α} (h : back o ins del r = some r') : r'.owner = r.owner ∨ r'.owner = 0 := by
  rw [back] at h
  split at h
  · simp at h
  · obtain rfl := Option.some.inj h
    rw [undeleteTo]
    split
    · by_cases hcr : r.createLsn = PENDING <;> simp [hcr]
    · exact .inl rfl

theorem back_comm (r : Version α) (ho : o ≠ 0) (ho' : o' ≠ 0) (hne : o ≠ o') :
    (back o ins del r).bind (back o' ins' del') = (back o' ins' del' r).bind (back o ins del) := by
  -- at most one of the two has a stamp on the version
  have hside : ∀ {o o' : Nat} {ins del ins' del'}, o' ≠ 0 → o ≠ o' → r.owner ≠ o' →
      (back o ins del r).bind (back o' ins' del') = (back o' ins' del' r).bind (back o ins del) := by
    intro o o' ins del ins' del' ho' hne hr
    rw [back_of_ne hr, Option.bind_some]
    cases hb : back o ins del r with
    | none => rfl
    | some r' =>
      refine back_of_ne ?_
      rcases back_owner hb with heq | heq
      · rwa [heq]
      · rw [heq]
        exact ho'.symm
  by_cases hr : r.owner = o'
  · exact (hside ho hne.symm (by rw [hr]; exact hne.symm)).symm
  · exact hside ho' hne hr

theorem rollbackTo_comm (ho : o ≠ 0) (ho' : o' ≠ 0) (hne : o ≠ o') :
    (rows.rollbackTo o ins del).rollbackTo o' ins' del' = (rows.rollbackTo o' ins' del').rollbackTo o ins del := by
  simp only [rollbackTo_eq_filterMap, List.filterMap_filterMap]
  exact List.filterMap_congr fun r _ => back_comm r ho ho' hne

theorem back_back (r : Version α) : (back o ins del r).bind (back o [] []) = back o [] [] r := by
  cases hi : r.ownInsert o with
  | true =>
    have hnone : back o [] [] r = none := by simp [back, hi]
    rw [hnone, back]
    split
    · rfl
    · have hi' : (r.undeleteTo o del).ownInsert o = true := by
        rw [undeleteTo]
        split
        · have hcr : r.createLsn = PENDING := by
            simp only [ownInsert, Bool.and_eq_true, beq_iff_eq] at hi
            exact hi.2
          simpa [ownInsert, hcr] using hi
        · exact hi
      simp [back, hi']
  | false =>
    have hcr : r.ownDelete o = true → r.createLsn ≠ PENDING := by
      intro hd hcr
      simp only [ownDelete, Bool.and_eq_true, beq_iff_eq] at hd
      simp [ownInsert, hd.1, hcr] at hi
    cases hd : r.ownDelete o with
    | false => simp [back, hi, undeleteTo, hd]
    | true =>
      have hcr := hcr hd
      by_cases hv : r.vid ∈ del
      · simp [back, hi, undeleteTo, hd, hv]
      · -- the version goes back to having no stamp of `o`
        have hstamp : (r.createLsn == PENDING) = false := by simpa using hcr
        have hclear : ∀ keep : List Nat, r.vid ∉ keep →
            r.undeleteTo o keep = ⟨r.vid, r.values, r.createLsn, 0, 0⟩ := by
          intro keep hk
          simp [undeleteTo, hd, hk, hcr]
        have hdone : back o [] [] (⟨r.vid, r.values, r.createLsn, 0, 0⟩ : Version α) =
            some ⟨r.vid, r.values, r.createLsn, 0, 0⟩ := by
          simp [back, ownInsert, ownDelete, undeleteTo, hstamp, PENDING_pos.ne]
        have hfirst : back o ins del r = some ⟨r.vid, r.values, r.createLsn, 0, 0⟩ := by
          simp [back, hi, hclear del hv]
        have hlast : back o [] [] r = some ⟨r.vid, r.values, r.createLsn, 0, 0⟩ := by
          simp [back, hi, hclear [] (by simp)]
        rw [hfirst, hlast, Option.bind_some, hdone]

theorem rollbackTo_rollback (rows : Rows α) : (rows.rollbackTo o ins del).rollback o = rows.rollback o := by
  simp only [rollback_eq, rollbackTo_eq_filterMap, List.filterMap_filterMap]
  exact List.filterMap_congr fun r _ => back_back r

theorem finalize_rollback (ho : o ≠ 0) (ho' : o' ≠ 0) (hne : o ≠ o') :
    (rows.finalize o' c).rollback o = (rows.rollback o).finalize o' c := by
  simp only [rollback_eq, rollbackTo_eq_filterMap, Rows.finalize, List.filterMap_map, List.map_filterMap]
  refine List.filterMap_congr fun r _ => ?_
  simp only [Function.comp_apply]
  by_cases hr : r.owner = o'
  · have h1 : (r.finalize o' c).owner ≠ o := by simpa [Version.finalize, hr] using ho.symm
    have h2 : r.owner ≠ o := by
      rw [hr]
      exact hne.symm
    rw [back_of_ne h1, back_of_ne h2, Option.map_some]
  · have h1 : r.finalize o' c = r := by rw [Version.finalize, if_neg hr]
    rw [h1]
    cases hb : back o [] [] r with
    | none => rfl
    | some r' =>
      rw [Option.map_some, Version.finalize, if_neg]
      rcases back_owner hb with heq | heq
      · rwa [heq]
      · rw [heq]
        exact ho'.symm

/-! ## Writers that never ran -/

/-- One effect and the rollback of a writer: its own effect is gone, another's stays. -/
theorem rollback_on {e : Effect α} (h : Sound rows) (ho : o ≠ 0) (hfits : e.Fits rows)
    (hpub : ∀ c, e ≠ .published o c) :
    if e.owner = o then (e.on rows).rollback o = rows.rollback o
    else (e.on rows).rollback o = e.on (rows.rollback o) ∧ e.Fits (rows.rollback o) := by
  split
  · next hown =>
    cases e with
    | wrote o' ops =>
      obtain rfl : o' = o := hown
      show (rows.pendAll o' ops).rollback o' = _
      rw [rollback_eq, rollback_eq, rollbackTo_pendAll_self h ho hfits.2 fun op _ => by cases op <;> simp [Since]]
    | published o' c =>
      obtain rfl : o' = o := hown
      exact absurd rfl (hpub c)
    | rolledTo o' ins del =>
      obtain rfl : o' = o := hown
      exact rollbackTo_rollback rows
  · next hown =>
    cases e with
    | wrote o' ops =>
      have hne : o ≠ o' := fun heq => hown heq.symm
      obtain ⟨hrows, hadm⟩ := rollbackTo_pendAll_other h hfits.1 ho hne hfits.2
      rw [← rollback_eq, ← rollback_eq] at hrows
      rw [← rollback_eq] at hadm
      exact ⟨hrows, hfits.1, hadm⟩
    | published o' c =>
      have hne : o ≠ o' := fun heq => hown heq.symm
      exact ⟨finalize_rollback ho hfits.1 hne, hfits⟩
    | rolledTo o' ins del =>
      have hne : o ≠ o' := fun heq => hown heq.symm
      refine ⟨?_, hfits⟩
      rw [rollback_eq, rollback_eq]
      exact rollbackTo_comm hfits ho hne.symm

theorem Sound.on {e : Effect α} (h : Sound rows) (hfits : e.Fits rows) : Sound (e.on rows) := by
  cases e with
  | wrote o ops => exact h.pendAll hfits.1 hfits.2
  | published o c => exact h.finalize hfits.2
  | rolledTo o ins del => exact h.rollbackTo

/-- Rolling one writer back leaves the history without it. -/
theorem rollback_play (h : Sound rows) (ho : o ≠ 0) (hfits : FitsAll rows es)
    (hpub : ∀ c, Effect.published o c ∉ es) :
    (play rows es).rollback o = play (rows.rollback o) (es.filter fun e => e.owner ≠ o) ∧
      FitsAll (rows.rollback o) (es.filter fun e => e.owner ≠ o) := by
  induction es generalizing rows with
  | nil => exact ⟨rfl, trivial⟩
  | cons e es ih =>
    obtain ⟨hrest, hfit⟩ := ih (h.on hfits.1) hfits.2 fun c hc => hpub c (List.mem_cons_of_mem _ hc)
    have hhead := rollback_on h ho hfits.1 fun c heq => hpub c (heq ▸ List.mem_cons_self)
    by_cases hown : e.owner = o
    · rw [if_pos hown] at hhead
      rw [hhead] at hrest hfit
      rw [List.filter_cons_of_neg (by simpa using hown)]
      exact ⟨hrest, hfit⟩
    · rw [if_neg hown] at hhead
      rw [hhead.1] at hrest hfit
      rw [List.filter_cons_of_pos (by simpa using hown)]
      exact ⟨hrest, hhead.2, hfit⟩

/-- **Rolled back writers never ran.** Rolling back writers that published
nothing leaves the rows of the history without their effects. -/
theorem rollbackAll_play {owners : List Nat} (h : Sound rows) (hpos : ∀ o ∈ owners, o ≠ 0)
    (hfits : FitsAll rows es) (hpub : ∀ o ∈ owners, ∀ c, Effect.published o c ∉ es) :
    (play rows es).rollbackAll owners =
      play (rows.rollbackAll owners) (es.filter fun e => e.owner ∉ owners) := by
  induction owners generalizing rows es with
  | nil => simp [rollbackAll]
  | cons o owners ih =>
    obtain ⟨hplay, hfit⟩ := rollback_play h (hpos o List.mem_cons_self) hfits (hpub o List.mem_cons_self)
    have hrest := ih
      (rollback_eq o rows ▸ h.rollbackTo) (fun o' ho' => hpos o' (List.mem_cons_of_mem _ ho')) hfit
      fun o' ho' c hc => hpub o' (List.mem_cons_of_mem _ ho') c (List.mem_of_mem_filter hc)
    rw [← hplay] at hrest
    have hfilter : (es.filter fun e => e.owner ≠ o).filter (fun e => e.owner ∉ owners) =
        es.filter fun e => e.owner ∉ o :: owners := by
      rw [List.filter_filter]
      apply List.filter_congr
      intro e _
      simp [Bool.and_comm]
    rw [hfilter] at hrest
    exact hrest

end Rows

end Mvcc
