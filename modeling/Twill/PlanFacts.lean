/-
What the plan of a write statement may touch.

UPDATE and DELETE supersede versions that are free for the writer. The upsert
path goes through the live-key map, which also leads to versions another writer
has pending-deleted (`dmlPlan_allows`); only when it reaches none of those
(`StealFree`) are all the changes the writer's own to make (`dmlPlan_admits`).
-/
import Twill.Plan
import Twill.Lib.MvccOverlay

namespace Twill

open Mvcc (PENDING Op)
open Mvcc.Rows

variable {rows : Mvcc.Rows Row} {top next me vid : Nat} {ws : List RowWrite}

/-! ## Numbered changes -/

theorem wf_pendAll_opsFrom (h : Mvcc.Rows.WF top next rows) (hme : me ≠ 0) :
    Mvcc.Rows.WF top (next + createdCount ws) (rows.pendAll me (opsFrom next ws)) := by
  induction ws generalizing rows next with
  | nil => exact h
  | cons rw ws ih =>
    cases rw with
    | added vals =>
      have := ih (h.pend_insert hme : Mvcc.Rows.WF top _ (rows.pend me (.insert _ vals)))
      rwa [Nat.add_right_comm] at this
    | rewrote old vals =>
      have := ih ((h.pend_delete hme).pend_insert hme :
        Mvcc.Rows.WF top _ ((rows.pend me (.delete old)).pend me (.insert _ vals)))
      rwa [Nat.add_right_comm] at this
    | removed old vals => exact ih (h.pend_delete hme)

theorem delete_mem_opsFrom : Op.delete vid ∈ opsFrom next ws ↔ ∃ rw ∈ ws, rw.superseded = some vid := by
  induction ws generalizing next with
  | nil => simp [opsFrom]
  | cons rw ws ih => cases rw <;> simp [opsFrom, ih, RowWrite.superseded, eq_comm]

/-- Writes that supersede distinct versions of the table. -/
theorem allowsAll_of_distinct {ok : RowVersion → Prop} (h : Mvcc.Rows.WF top next rows) (hme : me ≠ 0)
    (hok : ∀ rw ∈ ws, ∀ old, rw.superseded = some old → ∃ r ∈ rows, r.vid = old ∧ ok r)
    (hnodup : (ws.filterMap RowWrite.superseded).Nodup) : AllowsAll ok me rows (opsFrom next ws) := by
  induction ws generalizing rows next with
  | nil => trivial
  | cons rw ws ih =>
    have hrest : ∀ rw ∈ ws, ∀ old, rw.superseded = some old → ∃ r ∈ rows, r.vid = old ∧ ok r :=
      fun rw' hrw' => hok rw' (List.mem_cons_of_mem _ hrw')
    cases rw with
    | added vals =>
      refine ⟨fun r hr => (h.below r hr).ne, ih (h.pend_insert hme) ?_ hnodup⟩
      intro rw' hrw' old hold
      obtain ⟨r, hr, hr'⟩ := hrest rw' hrw' old hold
      exact ⟨r, List.mem_append_left _ hr, hr'⟩
    | rewrote old vals =>
      obtain ⟨hnot, hnodup⟩ := List.nodup_cons.1 hnodup
      have hdel : Mvcc.Rows.WF top next (rows.pend me (.delete old)) := h.pend_delete hme
      refine ⟨hok _ List.mem_cons_self old rfl, fun r hr => (hdel.below r hr).ne,
        ih (hdel.pend_insert hme) ?_ hnodup⟩
      intro rw' hrw' old' hold'
      obtain ⟨r, hr, hv, hr'⟩ := hrest rw' hrw' old' hold'
      have hne : r.vid ≠ old := by
        rintro rfl
        exact hnot (List.mem_filterMap.2 ⟨rw', hrw', hv ▸ hold'⟩)
      exact ⟨r, List.mem_append_left _ (mem_pend_delete_of_ne hne hr), hv, hr'⟩
    | removed old vals =>
      obtain ⟨hnot, hnodup⟩ := List.nodup_cons.1 hnodup
      refine ⟨hok _ List.mem_cons_self old rfl, ih (h.pend_delete hme) ?_ hnodup⟩
      intro rw' hrw' old' hold'
      obtain ⟨r, hr, hv, hr'⟩ := hrest rw' hrw' old' hold'
      have hne : r.vid ≠ old := by
        rintro rfl
        exact hnot (List.mem_filterMap.2 ⟨rw', hrw', hv ▸ hold'⟩)
      exact ⟨r, mem_pend_delete_of_ne hne hr, hv, hr'⟩

/-! ## The targets of UPDATE and DELETE -/

section Targets

variable {E : Env} {schema : TableSchema} {table : String} {using_ : RlsDecision} {filter : Option Expr}
  {joined : Option Relation} {wc : WriteCtx} {α : Type} {act : RowVersion → EvalCtx → Res α}

/-- A row a statement acted on, with what the action answered. -/
structure Target (E : Env) (schema : TableSchema) (using_ : RlsDecision) (wc : WriteCtx)
    (act : RowVersion → EvalCtx → Res α) (v : RowVersion) (a : α) : Prop where
  visible : v.visibleToWriter wc.snapshot wc.owner = true
  passes : using_.passes E (EvalCtx.ofRow v.values schema wc.params) = .ok true
  noConflict : checkNoConflict v wc.snapshot wc.owner = .ok ()
  acted : ∃ ctx, act v ctx = .ok a

/-- The targets are a selection of the rows, in storage order. -/
theorem collectTargets_eq_ok :
    ∀ {rows : List RowVersion} {l : List α},
      collectTargets E schema table using_ filter joined wc act rows = .ok l →
      ∃ vs, vs.Sublist rows ∧ List.Forall₂ (Target E schema using_ wc act) vs l
  | [], l, h => by
    simp only [collectTargets, Except.ok.injEq] at h
    subst h
    exact ⟨[], List.Sublist.refl _, .nil⟩
  | v :: rows, l, h => by
    have hskip : collectTargets E schema table using_ filter joined wc act rows = .ok l →
        ∃ vs, vs.Sublist (v :: rows) ∧ List.Forall₂ (Target E schema using_ wc act) vs l := fun h =>
      (collectTargets_eq_ok h).imp fun _ ⟨hsub, hall⟩ => ⟨hsub.cons _, hall⟩
    rw [collectTargets] at h
    split at h
    · exact hskip h
    · next hvis =>
      obtain ⟨pass, hpass, h⟩ := Except.bind_eq_ok.1 h
      split at h
      · exact hskip h
      · next hp =>
        obtain ⟨m, -, h⟩ := Except.bind_eq_ok.1 h
        split at h
        · exact hskip h
        · obtain ⟨_, hconf, h⟩ := Except.bind_eq_ok.1 h
          obtain ⟨a, hact, h⟩ := Except.bind_eq_ok.1 h
          obtain ⟨rest, hrest, h⟩ := Except.bind_eq_ok.1 h
          simp only [Except.pure_eq, Except.ok.injEq] at h
          subst h
          obtain ⟨vs, hsub, hall⟩ := collectTargets_eq_ok hrest
          refine ⟨v :: vs, hsub.cons_cons _, .cons ⟨?_, ?_, hconf, _, hact⟩ hall⟩
          · simpa using hvis
          · have : pass = true := by simpa using hp
            rw [hpass, this]

theorem Target.free {v : RowVersion} {a : α} (h : Target E schema using_ wc act v a) : v.Free wc.owner := by
  have hvis := h.visible
  have hconf := h.noConflict
  simp only [Mvcc.Version.visibleToWriter, Bool.and_eq_true, Bool.not_eq_true'] at hvis
  obtain ⟨hcr, hdel⟩ := hvis
  simp only [checkNoConflict] at hconf
  split at hconf
  · simp at hconf
  · next hno =>
    rw [not_or] at hno
    refine ⟨?_, fun hp => by simpa [hp] using hcr⟩
    by_cases hd : v.deleteLsn = PENDING
    · have hne : v.owner ≠ wc.owner := by simpa [hd] using hdel
      exact absurd ⟨hd, hne⟩ hno.2
    · by_contra h0
      have hlt : ¬ wc.snapshot < v.deleteLsn := fun hlt => hno.1 ⟨h0, hd, hlt⟩
      simp [if_neg hd, h0] at hdel
      omega

/-- The ids a statement acts on: distinct, each of a version free for the writer. -/
theorem targets_ids {vs : List RowVersion} {l : List (Nat × Row)} {act : RowVersion → EvalCtx → Res (Nat × Row)}
    (hact : ∀ v ctx a, act v ctx = .ok a → a.1 = v.vid) (h : Mvcc.Rows.WF top next rows)
    (hsub : vs.Sublist rows) (hall : List.Forall₂ (Target E schema using_ wc act) vs l) :
    (l.map (·.1)).Nodup ∧ ∀ a ∈ l, ∃ r ∈ rows, r.vid = a.1 ∧ r.Free wc.owner := by
  have hids : l.map (·.1) = vs.map (·.vid) := by
    clear hsub
    induction hall with
    | nil => rfl
    | cons htarget _ ih =>
      obtain ⟨ctx, hctx⟩ := htarget.acted
      rw [List.map_cons, List.map_cons, ih, hact _ _ _ hctx]
  refine ⟨hids ▸ h.nodup.sublist (hsub.map _), ?_⟩
  intro a ha
  obtain ⟨v, hv, htarget⟩ := Except.exists_of_forall₂ hall a ha
  obtain ⟨ctx, hctx⟩ := htarget.acted
  exact ⟨v, hsub.subset hv, (hact _ _ _ hctx).symm, htarget.free⟩

end Targets

section Statements

variable {E : Env} {s : Store} {t : Table} {wc : WriteCtx}

theorem updateImage_vid {schema : TableSchema} {table : String} {targets : List (Nat × Expr)}
    {checks : List Expr} {withCheck : RlsDecision} {v : RowVersion} {ctx : EvalCtx} {a : Nat × Row}
    (h : updateImage E schema table targets checks withCheck v ctx = .ok a) : a.1 = v.vid := by
  obtain ⟨nv, -, h⟩ := Except.bind_eq_ok.1 h
  obtain ⟨_, -, h⟩ := Except.bind_eq_ok.1 h
  obtain ⟨_, -, h⟩ := Except.bind_eq_ok.1 h
  simp only [Except.pure_eq, Except.ok.injEq] at h
  rw [← h]

/-- The targets of an UPDATE, with the decisions they passed. -/
theorem computeUpdates_eq_ok {st : UpdateStmt} {updates : List (Nat × Row)}
    (h : computeUpdates E s t st wc = .ok updates) :
    ∃ targets checks using_ withCheck vs, checkExprs E t.schema = .ok checks ∧
      rlsRead E t.schema .update = .ok using_ ∧ rlsWrite E t.schema .update = .ok withCheck ∧
      vs.Sublist t.rows ∧
      List.Forall₂ (Target E t.schema using_ wc (updateImage E t.schema st.table targets checks withCheck))
        vs updates := by
  obtain ⟨targets, -, h⟩ := Except.bind_eq_ok.1 h
  obtain ⟨checks, hchecks, h⟩ := Except.bind_eq_ok.1 h
  obtain ⟨joined, -, h⟩ := Except.bind_eq_ok.1 h
  obtain ⟨using_, husing, h⟩ := Except.bind_eq_ok.1 h
  obtain ⟨withCheck, hwith, h⟩ := Except.bind_eq_ok.1 h
  obtain ⟨vs, hsub, hall⟩ := collectTargets_eq_ok h
  exact ⟨targets, checks, using_, withCheck, vs, hchecks, husing, hwith, hsub, hall⟩

theorem collectDeleteVictims_eq_ok {st : DeleteStmt} {victims : List (Nat × Row)}
    (h : collectDeleteVictims E s t st wc = .ok victims) :
    ∃ using_ vs, rlsRead E t.schema .delete = .ok using_ ∧ vs.Sublist t.rows ∧
      List.Forall₂ (Target E t.schema using_ wc fun v _ => .ok (v.vid, v.values)) vs victims := by
  obtain ⟨joined, -, h⟩ := Except.bind_eq_ok.1 h
  obtain ⟨using_, husing, h⟩ := Except.bind_eq_ok.1 h
  obtain ⟨vs, hsub, hall⟩ := collectTargets_eq_ok h
  exact ⟨using_, vs, husing, hsub, hall⟩

theorem updateImages_eq_ok {st : UpdateStmt} {updates : List (Nat × Row)}
    (h : updateImages E s t st wc = .ok updates) :
    computeUpdates E s t st wc = .ok updates ∧ checkUpdateUniques E s t st.table updates wc.owner = .ok () := by
  obtain ⟨updates', hcomp, h⟩ := Except.bind_eq_ok.1 h
  obtain ⟨_, hcheck, h⟩ := Except.bind_eq_ok.1 h
  simp only [Except.pure_eq, Except.ok.injEq] at h
  subst h
  exact ⟨hcomp, hcheck⟩

theorem updatePlan_writes (st : UpdateStmt) (wc : WriteCtx) :
    (updatePlan E s t st wc).1 = [] ∨ ∃ updates, updateImages E s t st wc = .ok updates ∧
      (updatePlan E s t st wc).1 = updates.map fun u => RowWrite.rewrote u.1 u.2 := by
  simp only [updatePlan]
  cases h : updateImages E s t st wc with
  | error e => exact .inl rfl
  | ok updates => exact .inr ⟨updates, rfl, rfl⟩

theorem deletePlan_writes (st : DeleteStmt) (wc : WriteCtx) :
    (deletePlan E s t st wc).1 = [] ∨ ∃ victims, collectDeleteVictims E s t st wc = .ok victims ∧
      (deletePlan E s t st wc).1 = victims.map fun v => RowWrite.removed v.1 v.2 := by
  simp only [deletePlan]
  cases h : collectDeleteVictims E s t st wc with
  | error e => exact .inl rfl
  | ok victims => exact .inr ⟨victims, rfl, rfl⟩

theorem updatePlan_admits {st : UpdateStmt} (h : Mvcc.Rows.WF top t.nextVid t.rows) (hme : wc.owner ≠ 0) :
    AdmitsAll wc.owner t.rows (opsFrom t.nextVid (updatePlan E s t st wc).1) := by
  rcases updatePlan_writes (E := E) (s := s) (t := t) st wc with hnil | ⟨updates, hup, hws⟩
  · rw [hnil]
    trivial
  · obtain ⟨_, _, _, _, vs, -, -, -, hsub, hall⟩ := computeUpdates_eq_ok (updateImages_eq_ok hup).1
    obtain ⟨hnodup, hfree⟩ := targets_ids (fun _ _ _ => updateImage_vid) h hsub hall
    rw [hws]
    refine allowsAll_of_distinct h hme ?_ ?_
    · intro rw hrw old hold
      obtain ⟨u, hu, rfl⟩ := List.mem_map.1 hrw
      obtain rfl : u.1 = old := by simpa [RowWrite.superseded] using hold
      exact hfree u hu
    · simpa [List.filterMap_map, Function.comp_def, RowWrite.superseded] using hnodup

theorem deletePlan_admits {st : DeleteStmt} (h : Mvcc.Rows.WF top t.nextVid t.rows) (hme : wc.owner ≠ 0) :
    AdmitsAll wc.owner t.rows (opsFrom t.nextVid (deletePlan E s t st wc).1) := by
  rcases deletePlan_writes (E := E) (s := s) (t := t) st wc with hnil | ⟨victims, hdel, hws⟩
  · rw [hnil]
    trivial
  · obtain ⟨_, vs, -, hsub, hall⟩ := collectDeleteVictims_eq_ok hdel
    obtain ⟨hnodup, hfree⟩ := targets_ids (fun v _ a ha => by cases ha; rfl) h hsub hall
    rw [hws]
    refine allowsAll_of_distinct h hme ?_ ?_
    · intro rw hrw old hold
      obtain ⟨v, hv, rfl⟩ := List.mem_map.1 hrw
      obtain rfl : v.1 = old := by simpa [RowWrite.superseded] using hold
      exact hfree v hv
    · simpa [List.filterMap_map, Function.comp_def, RowWrite.superseded] using hnodup

/-! ## The live-key map -/

/-- Every key leads to its own version, which the writer sees. -/
structure Live (committed me : Nat) (rows : Mvcc.Rows Row) (live : AList fun _ : String => Nat) : Prop where
  sees : ∀ k vid, live.lookup k = some vid →
    ∃ r ∈ rows, r.vid = vid ∧ r.visibleToWriter committed me = true
  inj : ∀ k k' vid, live.lookup k = some vid → live.lookup k' = some vid → k = k'

theorem liveVids_lookup {P : Prims} {committed : Nat} {pk : List Nat} {k : String} {vid : Nat}
    (h : (liveVids P rows committed pk me).lookup k = some vid) :
    ∃ r ∈ rows, r.visibleToWriter committed me = true ∧ compositeKey P r.values pk = k ∧ r.vid = vid := by
  rcases AList.mem_of_lookup_foldl_insert h with ⟨r, hr, hk, hv⟩ | h
  · obtain ⟨hr, hvis⟩ := List.mem_filter.1 hr
    exact ⟨r, hr, hvis, hk, hv⟩
  · simp at h

theorem liveVids_isSome {P : Prims} {committed : Nat} {pk : List Nat} {r : RowVersion} (hr : r ∈ rows)
    (hvis : r.visibleToWriter committed me = true) :
    ((liveVids P rows committed pk me).lookup (compositeKey P r.values pk)).isSome :=
  AList.isSome_lookup_foldl_insert (.inl ⟨r, List.mem_filter.2 ⟨hr, hvis⟩, rfl⟩)

theorem Live.init {P : Prims} {committed : Nat} {pk : List Nat} (h : Mvcc.Rows.WF top next rows) :
    Live committed me rows (liveVids P rows committed pk me) := by
  refine ⟨fun k vid hk => ?_, fun k k' vid hk hk' => ?_⟩
  · obtain ⟨r, hr, hvis, -, hv⟩ := liveVids_lookup hk
    exact ⟨r, hr, hv, hvis⟩
  · obtain ⟨r, hr, -, hkey, hv⟩ := liveVids_lookup hk
    obtain ⟨r', hr', -, hkey', hv'⟩ := liveVids_lookup hk'
    obtain rfl := h.eq_of_vid hr hr' (hv.trans hv'.symm)
    exact hkey.symm.trans hkey'

/-- The map after the row of key `k` was written as a new version. -/
theorem Live.put {committed : Nat} {rows' : Mvcc.Rows Row} {live : AList fun _ : String => Nat}
    (hl : Live committed me rows live) (h : Mvcc.Rows.WF top next rows) (k : String)
    (hnew : ∃ r ∈ rows', r.vid = next ∧ r.visibleToWriter committed me = true)
    (hkeep : ∀ r ∈ rows, live.lookup k ≠ some r.vid → r ∈ rows') :
    Live committed me rows' (live.insert k next) := by
  have hold : ∀ k' vid, k' ≠ k → live.lookup k' = some vid →
      ∃ r ∈ rows', r.vid = vid ∧ r.vid < next ∧ r.visibleToWriter committed me = true := by
    intro k' vid hne hk'
    obtain ⟨r, hr, hv, hvis⟩ := hl.sees k' vid hk'
    refine ⟨r, hkeep r hr fun hk => hne ?_, hv, h.below r hr, hvis⟩
    exact hl.inj k' k vid hk' (hv ▸ hk)
  refine ⟨fun k' vid hk' => ?_, fun k₁ k₂ vid h₁ h₂ => ?_⟩
  · by_cases hk : k' = k
    · subst hk
      rw [AList.lookup_insert, Option.some.injEq] at hk'
      subst hk'
      exact hnew
    · rw [AList.lookup_insert_ne hk] at hk'
      obtain ⟨r, hr, hv, -, hvis⟩ := hold k' vid hk hk'
      exact ⟨r, hr, hv, hvis⟩
  · -- a key other than `k` leads below `next`
    have hlt : ∀ k', k' ≠ k → (live.insert k next).lookup k' = some vid → vid < next := by
      intro k' hne hk'
      rw [AList.lookup_insert_ne hne] at hk'
      obtain ⟨r, -, hv, hlt, -⟩ := hold k' vid hne hk'
      exact hv ▸ hlt
    have heq : (live.insert k next).lookup k = some next := AList.lookup_insert _
    by_cases hk₁ : k₁ = k
    · by_cases hk₂ : k₂ = k
      · rw [hk₁, hk₂]
      · subst hk₁
        obtain rfl : next = vid := by simpa [heq] using h₁
        exact absurd (hlt k₂ hk₂ h₂) (lt_irrefl _)
    · by_cases hk₂ : k₂ = k
      · subst hk₂
        obtain rfl : next = vid := by simpa [heq] using h₂
        exact absurd (hlt k₁ hk₁ h₁) (lt_irrefl _)
      · rw [AList.lookup_insert_ne hk₁] at h₁
        rw [AList.lookup_insert_ne hk₂] at h₂
        exact hl.inj k₁ k₂ vid h₁ h₂

theorem visible_own_insert (committed : Nat) (vid : Nat) (vals : Row) :
    (⟨vid, vals, PENDING, 0, me⟩ : RowVersion).visibleToWriter committed me = true := by
  simp [Mvcc.Version.visibleToWriter, Mvcc.PENDING_pos.ne]

/-- An upsert reaches versions the writer sees: free ones, and ones another
writer has pending-deleted. -/
theorem planRows_allows {schema : TableSchema} {table : String} {params : List Value}
    {onConflict : OnConflict} {pending : List String} {staged : List Row} {images : List (Nat × Row)}
    {live : AList fun _ : String => Nat} (h : Mvcc.Rows.WF top next rows) (hl : Live top me rows live)
    (hme : me ≠ 0) :
    AllowsAll (fun r => r.Free me ∨ r.Taken me) me rows
      (opsFrom next (planRows E schema table params onConflict pending staged live images next).1) := by
  induction staged generalizing rows live images next with
  | nil => trivial
  | cons vals staged ih =>
    simp only [planRows]
    split
    · trivial
    · split
      · trivial
      · exact ih h hl
      · next rw hrow =>
        rcases planRow_created hrow with ⟨-, hrw⟩ | ⟨old, hclash, hrw⟩
        · rw [hrw]
          refine ⟨fun r hr => (h.below r hr).ne, ih (h.pend_insert hme) (hl.put h _ ?_ ?_)⟩
          · exact ⟨_, List.mem_append_right _ List.mem_cons_self, rfl, visible_own_insert _ _ _⟩
          · intro r hr _
            exact List.mem_append_left _ hr
        · rw [hrw]
          obtain ⟨r, hr, hv, hvis⟩ := hl.sees _ _ hclash
          have hdel : Mvcc.Rows.WF top next (rows.pend me (.delete old)) := h.pend_delete hme
          refine ⟨⟨r, hr, hv, (h.version r hr).free_or_taken hvis⟩, fun r' hr' => (hdel.below r' hr').ne,
            ih (hdel.pend_insert hme) (hl.put h _ ?_ ?_)⟩
          · exact ⟨_, List.mem_append_right _ List.mem_cons_self, rfl, visible_own_insert _ _ _⟩
          · intro r' hr' hne
            refine List.mem_append_left _ (mem_pend_delete_of_ne ?_ hr')
            rintro rfl
            exact hne hclash

/-- A plan stores an image with every write; a row added as such is a staged one. -/
theorem planRows_writes {schema : TableSchema} {table : String} {params : List Value}
    {onConflict : OnConflict} {pending : List String} :
    ∀ {staged : List Row} {live : AList fun _ : String => Nat} {images : List (Nat × Row)} {next : Nat},
      ∀ w ∈ (planRows E schema table params onConflict pending staged live images next).1,
        (∃ vals ∈ staged, w = .added vals) ∨ ∃ old, w = .rewrote old w.vals
  | [], _, _, _, w, h => by simp [planRows] at h
  | v :: staged, live, images, next, w, h => by
    have hrest : ∀ {live images next},
        w ∈ (planRows E schema table params onConflict pending staged live images next).1 →
        (∃ vals ∈ v :: staged, w = .added vals) ∨ ∃ old, w = .rewrote old w.vals := by
      intro live images next h
      rcases planRows_writes w h with ⟨vals, hvals, hw⟩ | hold
      · exact .inl ⟨vals, List.mem_cons_of_mem _ hvals, hw⟩
      · exact .inr hold
    simp only [planRows] at h
    split at h
    · simp at h
    · split at h
      · simp at h
      · exact hrest h
      · next rw hrow =>
        rcases List.mem_cons.1 h with rfl | h
        · rcases planRow_created hrow with ⟨-, hw⟩ | ⟨old, -, hw⟩
          · exact .inl ⟨v, List.mem_cons_self, hw⟩
          · exact .inr ⟨old, hw⟩
        · exact hrest h

theorem insertWrites_writes {st : InsertStmt} {staged : List Row} {committed : Nat} {w : RowWrite}
    (h : w ∈ (insertWrites E t committed st wc staged).1) :
    (∃ vals ∈ staged, w = .added vals) ∨ ∃ old, w = .rewrote old w.vals := by
  rw [insertWrites] at h
  split at h
  · obtain ⟨vals, hvals, rfl⟩ := List.mem_map.1 h
    exact .inl ⟨vals, hvals, rfl⟩
  · exact planRows_writes w h

theorem addedAll_admits {ok : RowVersion → Prop} (h : Mvcc.Rows.WF top next rows) (hme : me ≠ 0)
    (staged : List Row) : AllowsAll ok me rows (opsFrom next (staged.map RowWrite.added)) := by
  refine allowsAll_of_distinct h hme ?_ ?_
  · intro rw hrw old hold
    obtain ⟨vals, -, rfl⟩ := List.mem_map.1 hrw
    simp [RowWrite.superseded] at hold
  · simp [List.filterMap_map, Function.comp_def, RowWrite.superseded]

theorem insertPlan_writes (st : InsertStmt) (wc : WriteCtx) :
    (insertPlan E s t st wc).1 = [] ∨ ∃ staged autoinc, stagedRows E s t st wc = .ok (staged, autoinc) ∧
      (insertPlan E s t st wc).1 = (insertWrites E t s.committedLsn st wc staged).1 := by
  simp only [insertPlan]
  cases h : stagedRows E s t st wc with
  | error e => exact .inl rfl
  | ok p =>
    obtain ⟨staged, autoinc⟩ := p
    refine .inr ⟨staged, autoinc, rfl, ?_⟩
    cases hw : insertWrites E t s.committedLsn st wc staged with
    | mk ws res => cases res <;> simp [hw, returningPlan]

theorem insertPlan_allows {st : InsertStmt} (h : Mvcc.Rows.WF s.committedLsn t.nextVid t.rows)
    (hme : wc.owner ≠ 0) :
    AllowsAll (fun r => r.Free wc.owner ∨ r.Taken wc.owner) wc.owner t.rows
      (opsFrom t.nextVid (insertPlan E s t st wc).1) := by
  rcases insertPlan_writes (E := E) (s := s) (t := t) st wc with
    hnil | ⟨staged, autoinc, -, hws⟩
  · rw [hnil]
    trivial
  · rw [hws, insertWrites]
    split
    · exact addedAll_admits h hme staged
    · exact planRows_allows h (Live.init h) hme

/-- **What a write statement touches.** Every version it supersedes was there,
and is free for the writer or pending-deleted by another one; every version it
adds has a new id. -/
theorem dmlPlan_allows (E : Env) (st : DmlStmt) (wc : WriteCtx) (ht : s.table st.table = some t)
    (h : Mvcc.Rows.WF s.committedLsn t.nextVid t.rows) (hme : wc.owner ≠ 0) :
    AllowsAll (fun r => r.Free wc.owner ∨ r.Taken wc.owner) wc.owner t.rows
      (opsFrom t.nextVid (dmlPlan E st wc s).1) := by
  cases st with
  | insert st =>
    simp only [dmlPlan, ht]
    exact insertPlan_allows h hme
  | update st =>
    simp only [dmlPlan, ht]
    exact (updatePlan_admits h hme).imp fun r hr => .inl hr
  | delete st =>
    simp only [dmlPlan, ht]
    exact (deletePlan_admits h hme).imp fun r hr => .inl hr

/-- No version the statement supersedes is pending-deleted by another writer. -/
def StealFree (E : Env) (st : DmlStmt) (wc : WriteCtx) (s : Store) : Prop :=
  ∀ rw ∈ (dmlPlan E st wc s).1, ∀ old, rw.superseded = some old →
    ∀ r ∈ s.rowsAt (Store.key st.table), r.vid = old → ¬ r.Taken wc.owner

/-- An UPDATE, a DELETE, or an INSERT without ON CONFLICT. -/
def DmlStmt.plain : DmlStmt → Bool
  | .insert st => match st.onConflict with
    | .error => true
    | _ => false
  | _ => true

/-- Without ON CONFLICT every row written is a staged row added. -/
theorem planRows_added {schema : TableSchema} {table : String} {params : List Value} {pending : List String} :
    ∀ {staged : List Row} {live : AList fun _ : String => Nat} {images : List (Nat × Row)} {next : Nat},
      ∀ w ∈ (planRows E schema table params .error pending staged live images next).1, ∃ vals, w = .added vals
  | [], _, _, _, w, h => by simp [planRows] at h
  | v :: staged, live, images, next, w, h => by
    simp only [planRows] at h
    split at h
    · simp at h
    · split at h
      · simp at h
      · exact planRows_added w h
      · next rw hrow =>
        rcases List.mem_cons.1 h with rfl | h
        · rcases planRow_cases hrow with ⟨-, hadd⟩ | ⟨_, -, hrep, -⟩ | ⟨_, _, _, _, _, -, hup, -⟩
          · exact ⟨v, hadd⟩
          · simp at hrep
          · simp at hup
        · exact planRows_added w h

theorem insertPlan_added {st : InsertStmt} (hconf : st.onConflict = .error) {w : RowWrite}
    (hw : w ∈ (insertPlan E s t st wc).1) : ∃ vals, w = .added vals := by
  rcases insertPlan_writes (E := E) (s := s) (t := t) st wc with
    hnil | ⟨staged, autoinc, -, hws⟩
  · simp [hnil] at hw
  · rw [hws, insertWrites] at hw
    split at hw
    · obtain ⟨vals, -, rfl⟩ := List.mem_map.1 hw
      exact ⟨vals, rfl⟩
    · rw [hconf] at hw
      exact planRows_added w hw

/-- **Plain statements steal nothing.** UPDATE and DELETE refuse a row another
writer has pending-deleted, and a plain INSERT supersedes none. -/
theorem stealFree_of_plain {st : DmlStmt} (hplain : st.plain = true) (ht : s.table st.table = some t)
    (h : Mvcc.Rows.WF s.committedLsn t.nextVid t.rows) : StealFree E st wc s := by
  -- a free version is not taken
  have hids : ∀ {l : List (Nat × Row)}, (∀ a ∈ l, ∃ r ∈ t.rows, r.vid = a.1 ∧ r.Free wc.owner) → ∀ a ∈ l,
      ∀ r ∈ s.rowsAt (Store.key st.table), r.vid = a.1 → ¬ r.Taken wc.owner := by
    intro l hfree a ha r hr hv htaken
    rw [Store.rowsAt_of_lookup ht] at hr
    obtain ⟨r', hr', hv', hfr⟩ := hfree a ha
    obtain rfl := h.eq_of_vid hr hr' (hv.trans hv'.symm)
    exact Mvcc.PENDING_pos.ne (hfr.1.symm.trans htaken.2.1)
  intro rw hrw old hold
  cases st with
  | insert st =>
    simp only [dmlPlan, ht] at hrw
    have hconf : st.onConflict = .error := by
      simp only [DmlStmt.plain] at hplain
      split at hplain
      · next heq => exact heq
      · simp at hplain
    obtain ⟨vals, rfl⟩ := insertPlan_added hconf hrw
    simp [RowWrite.superseded] at hold
  | update st =>
    simp only [dmlPlan, ht] at hrw
    rcases updatePlan_writes (E := E) (s := s) (t := t) st wc with hnil | ⟨updates, hup, hws⟩
    · simp [hnil] at hrw
    · obtain ⟨_, _, _, _, vs, -, -, -, hsub, hall⟩ := computeUpdates_eq_ok (updateImages_eq_ok hup).1
      rw [hws] at hrw
      obtain ⟨u, hu, rfl⟩ := List.mem_map.1 hrw
      obtain rfl : u.1 = old := by simpa [RowWrite.superseded] using hold
      exact hids (targets_ids (fun _ _ _ => updateImage_vid) h hsub hall).2 u hu
  | delete st =>
    simp only [dmlPlan, ht] at hrw
    rcases deletePlan_writes (E := E) (s := s) (t := t) st wc with hnil | ⟨victims, hdel, hws⟩
    · simp [hnil] at hrw
    · obtain ⟨_, vs, -, hsub, hall⟩ := collectDeleteVictims_eq_ok hdel
      rw [hws] at hrw
      obtain ⟨v, hv, rfl⟩ := List.mem_map.1 hrw
      obtain rfl : v.1 = old := by simpa [RowWrite.superseded] using hold
      exact hids (targets_ids (fun v _ a ha => by cases ha; rfl) h hsub hall).2 v hv

/-- **A statement that steals nothing** changes only what is its own to change. -/
theorem dmlPlan_admits {st : DmlStmt} (ht : s.table st.table = some t)
    (h : Mvcc.Rows.WF s.committedLsn t.nextVid t.rows) (hme : wc.owner ≠ 0) (hs : StealFree E st wc s) :
    AdmitsAll wc.owner t.rows (opsFrom t.nextVid (dmlPlan E st wc s).1) := by
  refine admitsAll_of_not_taken (dmlPlan_allows E st wc ht h hme) fun vid hvid r hr hv => ?_
  obtain ⟨rw, hrw, hold⟩ := delete_mem_opsFrom.1 hvid
  refine hs rw hrw vid hold r ?_ hv
  rwa [Store.rowsAt_of_lookup ht]

end Statements

end Twill
