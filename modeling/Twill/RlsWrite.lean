/-
Row-level security on writes.

`RespectsRls` reads a statement's WAL: each old version it rewrote or removed
passes the USING decision of that command, each image it stored passes the
WITH CHECK decision, and RETURNING hands out only rows the session may read.
UPDATE, DELETE and plain INSERT respect it always. The upsert path checks the
staged row alone, so it does exactly when every version it rewrites, and every
image it puts there, would have passed the policies of UPDATE.
-/
import Twill.PlanFacts

namespace Twill

open Mvcc (PENDING Op)

/-! ## What a log records -/

/-- One row write as the WAL shows it. -/
inductive Logged where
  | added (vals : Row)
  | rewrote (old : Nat) (vals : Row)
  | removed (old : Nat)

/-- Reads row writes off a statement's WAL: a delete with the insert right
after it is a rewrite. -/
def logged : List WalOp → List Logged
  | .delete _ old :: .insert _ _ vals :: ops => .rewrote old vals :: logged ops
  | .delete _ old :: ops => .removed old :: logged ops
  | .insert _ _ vals :: ops => .added vals :: logged ops
  | _ :: ops => logged ops
  | [] => []

/-- The version a write supersedes, with the command whose USING governs it. -/
def Logged.supersedes : Logged → Option (Nat × PolicyCommand)
  | .added _ => none
  | .rewrote old _ => some (old, .update)
  | .removed old => some (old, .delete)

/-- The image a write stores, with the command whose WITH CHECK governs it. -/
def Logged.stores : Logged → Option (Row × PolicyCommand)
  | .added vals => some (vals, .insert)
  | .rewrote _ vals => some (vals, .update)
  | .removed _ => none

/-! ## The property -/

/-- The decision admits the row, without error. -/
def Admitted (E : Env) (d : Res RlsDecision) (ctx : EvalCtx) : Prop :=
  ∃ d', d = .ok d' ∧ d'.passes E ctx = .ok true

def DmlStmt.returning : DmlStmt → Option (List SelItem)
  | .insert st => st.returning
  | .update st => st.returning
  | .delete st => st.returning

/-- A statement's outcome on table `t` respects the session's policies. -/
structure RespectsRls (E : Env) (st : DmlStmt) (wc : WriteCtx) (t : Table) (m : Mutation) : Prop where
  superseded : ∀ w ∈ logged m.wal, ∀ old cmd, w.supersedes = some (old, cmd) →
    ∀ r ∈ t.rows, r.vid = old →
      Admitted E (rlsRead E t.schema cmd) (EvalCtx.ofRow r.values t.schema wc.params)
  stored : ∀ w ∈ logged m.wal, ∀ vals cmd, w.stores = some (vals, cmd) →
    Admitted E (rlsWrite E t.schema cmd) (EvalCtx.ofRow vals t.schema [])
  returned : ∀ rs, m.result = some rs → ∃ items rows, st.returning = some items ∧
    (∀ row ∈ rows, Admitted E (rlsRead E t.schema .select) (EvalCtx.ofRow row t.schema [])) ∧
    project E items t.schema rows wc.params = .ok rs

/-- Every version an INSERT is to rewrite passes the USING decision of UPDATE,
and every image it puts in the place of one the WITH CHECK decision. -/
def RewritesAdmitted (E : Env) (st : DmlStmt) (wc : WriteCtx) (s : Store) (t : Table) : Prop :=
  match st with
  | .insert _ => ∀ old vals, RowWrite.rewrote old vals ∈ (dmlPlan E st wc s).1 →
      (∀ r ∈ t.rows, r.vid = old →
        Admitted E (rlsRead E t.schema .update) (EvalCtx.ofRow r.values t.schema wc.params)) ∧
      Admitted E (rlsWrite E t.schema .update) (EvalCtx.ofRow vals t.schema [])
  | _ => True

/-! ## Reading back the log of a plan -/

def RowWrite.logged : RowWrite → Logged
  | .added vals => .added vals
  | .rewrote old vals => .rewrote old vals
  | .removed old _ => .removed old

theorem logged_removed (table : String) (next : Nat) (victims : List (Nat × Row)) :
    logged ((opsFrom next (victims.map fun v => RowWrite.removed v.1 v.2)).map (toWal table)) =
      victims.map fun v => Logged.removed v.1 := by
  induction victims with
  | nil => rfl
  | cons v victims ih =>
    cases victims with
    | nil => rfl
    | cons v' victims =>
      simp only [List.map_cons, opsFrom, toWal] at ih ⊢
      rw [logged, ih]
      simp

theorem logged_stored (table : String) {next : Nat} {ws : List RowWrite}
    (h : ∀ w ∈ ws, w.created ≠ none) :
    logged ((opsFrom next ws).map (toWal table)) = ws.map RowWrite.logged := by
  induction ws generalizing next with
  | nil => rfl
  | cons w ws ih =>
    have ih := @ih (next + 1) fun w' hw' => h w' (List.mem_cons_of_mem _ hw')
    cases w with
    | added vals => simp [opsFrom, toWal, logged, ih, RowWrite.logged]
    | rewrote old vals => simp [opsFrom, toWal, logged, ih, RowWrite.logged]
    | removed old vals => exact absurd rfl (h _ List.mem_cons_self)

/-! ## The decisions -/

variable {E : Env} {s : Store} {t : Table} {wc : WriteCtx}

theorem admitted_of_enforce {d : RlsDecision} {schema : TableSchema} {table : String} {vals : Row}
    (h : enforceRlsWrite E d schema table vals = .ok ()) :
    d.passes E (EvalCtx.ofRow vals schema []) = .ok true := by
  obtain ⟨b, hb, h⟩ := Except.bind_eq_ok.1 h
  cases b with
  | true => exact hb
  | false => simp at h

/-- Staged rows have passed the INSERT policies. -/
theorem stagedRows_admitted {st : InsertStmt} {staged : List Row} {autoinc : Int64}
    (h : stagedRows E s t st wc = .ok (staged, autoinc)) :
    ∀ vals ∈ staged, Admitted E (rlsWrite E t.schema .insert) (EvalCtx.ofRow vals t.schema []) := by
  obtain ⟨⟨staged', autoinc'⟩, -, h⟩ := Except.bind_eq_ok.1 h
  obtain ⟨_, hcheck, h⟩ := Except.bind_eq_ok.1 h
  simp only [Except.pure_eq, Except.ok.injEq, Prod.mk.injEq] at h
  obtain ⟨rfl, rfl⟩ := h
  obtain ⟨d, hd, hcheck⟩ := Except.bind_eq_ok.1 hcheck
  obtain ⟨_, hall, -⟩ := Except.bind_eq_ok.1 hcheck
  intro vals hvals
  exact ⟨d, hd, admitted_of_enforce (Except.forM_eq_ok.1 hall vals hvals)⟩

/-- Rows RETURNING keeps are readable by the session. -/
theorem rlsFilterReturning_admitted {schema : TableSchema} {rows kept : List Row}
    (h : rlsFilterReturning E schema rows = .ok kept) :
    ∀ row ∈ kept, Admitted E (rlsRead E schema .select) (EvalCtx.ofRow row schema []) := by
  obtain ⟨read, hread, h⟩ := Except.bind_eq_ok.1 h
  intro row hrow
  refine ⟨read, hread, ?_⟩
  split at h
  · next hu =>
    cases read with
    | unrestricted => rfl
    | filter preds => simp [RlsDecision.isUnrestricted] at hu
    | deny => simp [RlsDecision.isUnrestricted] at hu
  · obtain ⟨opts, hopts, h⟩ := Except.bind_eq_ok.1 h
    simp only [Except.pure_eq, Except.ok.injEq] at h
    subst h
    obtain ⟨o, ho, hsome⟩ := List.mem_filterMap.1 hrow
    obtain ⟨r, -, hr⟩ := Except.exists_of_forall₂ (Except.mapM_eq_ok.1 hopts) o ho
    obtain ⟨pass, hpass, hr⟩ := Except.bind_eq_ok.1 hr
    simp only [Except.pure_eq, Except.ok.injEq] at hr
    cases pass with
    | true =>
      obtain rfl : r = row := by simpa [← hr] using hsome
      exact hpass
    | false => simp [← hr] at hsome

theorem returningRows_admitted {schema : TableSchema} {returning : Option (List SelItem)}
    {affected : List Row} {params : List Value} {rs : ResultSet}
    (h : returningRows E schema returning affected params = .ok (some rs)) :
    ∃ items rows, returning = some items ∧
      (∀ row ∈ rows, Admitted E (rlsRead E schema .select) (EvalCtx.ofRow row schema [])) ∧
      project E items schema rows params = .ok rs := by
  cases returning with
  | none => simp [returningRows] at h
  | some items =>
    obtain ⟨rows, hrows, h⟩ := Except.bind_eq_ok.1 h
    obtain ⟨rs', hrs, h⟩ := Except.bind_eq_ok.1 h
    simp only [Except.pure_eq, Except.ok.injEq, Option.some.injEq] at h
    subst h
    exact ⟨items, rows, rfl, rlsFilterReturning_admitted hrows, hrs⟩

/-! ## Statements -/

/-- A plan that comes to an answer ends with its RETURNING rows. -/
theorem dmlPlan_returning {st : DmlStmt} {result : Option ResultSet} (ht : s.table st.table = some t)
    (h : (dmlPlan E st wc s).2 = .ok result) :
    returningRows E t.schema st.returning ((dmlPlan E st wc s).1.map RowWrite.vals) wc.params = .ok result := by
  cases st with
  | insert st =>
    simp only [dmlPlan, ht, insertPlan] at h ⊢
    cases hs : stagedRows E s t st wc with
    | error e => simp [hs] at h
    | ok p =>
      obtain ⟨staged, autoinc⟩ := p
      simp only [hs] at h ⊢
      cases hw : insertWrites E t s.committedLsn st wc staged with
      | mk ws res =>
        cases res with
        | error e => simp [hw] at h
        | ok u =>
          simp only [hw] at h ⊢
          exact h
  | update st =>
    simp only [dmlPlan, ht, updatePlan] at h ⊢
    cases hu : updateImages E s t st wc with
    | error e => simp [hu] at h
    | ok updates =>
      simp only [hu] at h ⊢
      exact h
  | delete st =>
    simp only [dmlPlan, ht, deletePlan] at h ⊢
    cases hv : collectDeleteVictims E s t st wc with
    | error e => simp [hv] at h
    | ok victims =>
      simp only [hv] at h ⊢
      exact h

theorem updateImage_admitted {schema : TableSchema} {table : String} {targets : List (Nat × Expr)}
    {checks : List Expr} {withCheck : RlsDecision} {v : RowVersion} {ctx : EvalCtx} {a : Nat × Row}
    (h : updateImage E schema table targets checks withCheck v ctx = .ok a) :
    withCheck.passes E (EvalCtx.ofRow a.2 schema []) = .ok true := by
  obtain ⟨nv, -, h⟩ := Except.bind_eq_ok.1 h
  obtain ⟨_, -, h⟩ := Except.bind_eq_ok.1 h
  obtain ⟨_, henforce, h⟩ := Except.bind_eq_ok.1 h
  simp only [Except.pure_eq, Except.ok.injEq] at h
  rw [← h]
  exact admitted_of_enforce henforce

/-- The rows an UPDATE rewrites pass USING, and their images WITH CHECK. -/
theorem update_admitted {st : UpdateStmt} {updates : List (Nat × Row)} (hnodup : (t.rows.map (·.vid)).Nodup)
    (h : computeUpdates E s t st wc = .ok updates) : ∀ u ∈ updates,
      (∀ r ∈ t.rows, r.vid = u.1 →
        Admitted E (rlsRead E t.schema .update) (EvalCtx.ofRow r.values t.schema wc.params)) ∧
      Admitted E (rlsWrite E t.schema .update) (EvalCtx.ofRow u.2 t.schema []) := by
  obtain ⟨targets, checks, using_, withCheck, vs, -, husing, hwith, hsub, hall⟩ := computeUpdates_eq_ok h
  intro u hu
  obtain ⟨v, hv, htarget⟩ := Except.exists_of_forall₂ hall u hu
  obtain ⟨ctx, hact⟩ := htarget.acted
  refine ⟨fun r hr hvid => ?_, withCheck, hwith, updateImage_admitted hact⟩
  obtain rfl : r = v := List.inj_on_of_nodup_map hnodup hr (hsub.subset hv)
    (hvid.trans (updateImage_vid hact))
  exact ⟨using_, husing, htarget.passes⟩

theorem delete_admitted {st : DeleteStmt} {victims : List (Nat × Row)} (hnodup : (t.rows.map (·.vid)).Nodup)
    (h : collectDeleteVictims E s t st wc = .ok victims) : ∀ v ∈ victims, ∀ r ∈ t.rows, r.vid = v.1 →
      Admitted E (rlsRead E t.schema .delete) (EvalCtx.ofRow r.values t.schema wc.params) := by
  obtain ⟨using_, vs, husing, hsub, hall⟩ := collectDeleteVictims_eq_ok h
  intro a ha r hr hvid
  obtain ⟨v, hv, htarget⟩ := Except.exists_of_forall₂ hall a ha
  obtain ⟨ctx, hact⟩ := htarget.acted
  have hid : v.vid = a.1 := by cases hact; rfl
  obtain rfl : r = v := List.inj_on_of_nodup_map hnodup hr (hsub.subset hv) (hvid.trans hid.symm)
  exact ⟨using_, husing, htarget.passes⟩

theorem insertPlan_stored {st : InsertStmt} : ∀ w ∈ (insertPlan E s t st wc).1,
    (∃ vals, w = .added vals ∧
      Admitted E (rlsWrite E t.schema .insert) (EvalCtx.ofRow vals t.schema [])) ∨
    ∃ old vals, w = .rewrote old vals := by
  intro w hw
  rcases insertPlan_writes (E := E) (s := s) (t := t) st wc with
    hnil | ⟨staged, autoinc, hstaged, hws⟩
  · simp [hnil] at hw
  · rw [hws] at hw
    rcases insertWrites_writes hw with ⟨vals, hvals, rfl⟩ | ⟨old, h⟩
    · exact .inl ⟨vals, rfl, stagedRows_admitted hstaged vals hvals⟩
    · exact .inr ⟨old, w.vals, h⟩

/-- One write passes the policies of the command it amounts to. -/
def WriteAdmitted (E : Env) (wc : WriteCtx) (t : Table) : RowWrite → Prop
  | .added vals => Admitted E (rlsWrite E t.schema .insert) (EvalCtx.ofRow vals t.schema [])
  | .rewrote old vals =>
    (∀ r ∈ t.rows, r.vid = old →
      Admitted E (rlsRead E t.schema .update) (EvalCtx.ofRow r.values t.schema wc.params)) ∧
    Admitted E (rlsWrite E t.schema .update) (EvalCtx.ofRow vals t.schema [])
  | .removed old _ => ∀ r ∈ t.rows, r.vid = old →
      Admitted E (rlsRead E t.schema .delete) (EvalCtx.ofRow r.values t.schema wc.params)

theorem respectsRls_iff_writes {st : DmlStmt} {m : Mutation} {ws : List RowWrite}
    (hlog : logged m.wal = ws.map RowWrite.logged)
    (hreturned : ∀ rs, m.result = some rs → ∃ items rows, st.returning = some items ∧
      (∀ row ∈ rows, Admitted E (rlsRead E t.schema .select) (EvalCtx.ofRow row t.schema [])) ∧
      project E items t.schema rows wc.params = .ok rs) :
    RespectsRls E st wc t m ↔ ∀ w ∈ ws, WriteAdmitted E wc t w := by
  constructor
  · rintro ⟨hsup, hst, -⟩ w hw
    rw [hlog] at hsup hst
    have hmem : w.logged ∈ ws.map RowWrite.logged := List.mem_map_of_mem hw
    cases w with
    | added vals => exact hst _ hmem vals .insert rfl
    | rewrote old vals => exact ⟨hsup _ hmem old .update rfl, hst _ hmem vals .update rfl⟩
    | removed old vals => exact hsup _ hmem old .delete rfl
  · intro hadm
    refine ⟨fun l hl old cmd hsup => ?_, fun l hl vals cmd hst => ?_, hreturned⟩
    · rw [hlog] at hl
      obtain ⟨w, hw, rfl⟩ := List.mem_map.1 hl
      have hw := hadm w hw
      cases w <;> simp only [RowWrite.logged, Logged.supersedes, Option.some.injEq, Prod.mk.injEq,
        reduceCtorEq] at hsup
      · obtain ⟨rfl, rfl⟩ := hsup
        exact hw.1
      · obtain ⟨rfl, rfl⟩ := hsup
        exact hw
    · rw [hlog] at hl
      obtain ⟨w, hw, rfl⟩ := List.mem_map.1 hl
      have hw := hadm w hw
      cases w <;> simp only [RowWrite.logged, Logged.stores, Option.some.injEq, Prod.mk.injEq,
        reduceCtorEq] at hst
      · obtain ⟨rfl, rfl⟩ := hst
        exact hw
      · obtain ⟨rfl, rfl⟩ := hst
        exact hw.2

theorem logged_dmlPlan {st : DmlStmt} (ht : s.table st.table = some t) (next : Nat) :
    logged ((opsFrom next (dmlPlan E st wc s).1).map (toWal st.table)) =
      (dmlPlan E st wc s).1.map RowWrite.logged := by
  cases st with
  | insert st =>
    simp only [dmlPlan, ht]
    refine logged_stored _ fun w hw => ?_
    rcases insertPlan_stored w hw with ⟨vals, rfl, -⟩ | ⟨old, vals, rfl⟩ <;> simp [RowWrite.created]
  | update st =>
    simp only [dmlPlan, ht]
    rcases updatePlan_writes (E := E) (s := s) (t := t) st wc with h | ⟨updates, -, h⟩
    · rw [h]
      rfl
    · rw [h]
      refine logged_stored _ fun w hw => ?_
      obtain ⟨u, -, rfl⟩ := List.mem_map.1 hw
      simp [RowWrite.created]
  | delete st =>
    simp only [dmlPlan, ht]
    rcases deletePlan_writes (E := E) (s := s) (t := t) st wc with h | ⟨victims, -, h⟩
    · rw [h]
      rfl
    · rw [h, logged_removed]
      simp [RowWrite.logged]

theorem writesAdmitted_iff {st : DmlStmt} (ht : s.table st.table = some t)
    (hnodup : (t.rows.map (·.vid)).Nodup) :
    (∀ w ∈ (dmlPlan E st wc s).1, WriteAdmitted E wc t w) ↔ RewritesAdmitted E st wc s t := by
  cases st with
  | insert st =>
    simp only [RewritesAdmitted, dmlPlan, ht]
    constructor
    · intro h old vals hmem
      exact h _ hmem
    · intro h w hw
      rcases insertPlan_stored w hw with ⟨vals, rfl, hins⟩ | ⟨old, vals, rfl⟩
      · exact hins
      · exact h old vals hw
  | update st =>
    simp only [RewritesAdmitted, iff_true, dmlPlan, ht]
    intro w hw
    rcases updatePlan_writes (E := E) (s := s) (t := t) st wc with h | ⟨updates, hup, h⟩
    · simp [h] at hw
    · rw [h] at hw
      obtain ⟨u, hu, rfl⟩ := List.mem_map.1 hw
      exact update_admitted hnodup (updateImages_eq_ok hup).1 u hu
  | delete st =>
    simp only [RewritesAdmitted, iff_true, dmlPlan, ht]
    intro w hw
    rcases deletePlan_writes (E := E) (s := s) (t := t) st wc with h | ⟨victims, hdel, h⟩
    · simp [h] at hw
    · rw [h] at hw
      obtain ⟨v, hv, rfl⟩ := List.mem_map.1 hw
      exact delete_admitted hnodup hdel v hv

/-- Notes with a key and whether the note is the session's own; one policy, for
every command, admits the own ones. -/
def notesSchema : TableSchema :=
  ⟨"notes", [⟨"id", .integer, true, true, false, false, none⟩,
    ⟨"mine", .integer, false, false, false, false, none⟩],
    [], [], [], true, [⟨"own", .all, [], some "mine", none⟩]⟩

def notesTable (mine : Int64) : Table := ⟨notesSchema, [⟨1, [.int 1, .int mine], 1, 0, 0⟩], 2, 1⟩

def notesStore (mine : Int64) : Store :=
  ⟨(∅ : AList fun _ : String => Table).insert "notes" (notesTable mine), ∅, ∅, 1⟩

/-- `INSERT INTO notes VALUES (1, 1) ON CONFLICT DO UPDATE SET mine = excluded.mine`. -/
def takeNote : DmlStmt :=
  .insert ⟨"notes", none, .values [[.int 1, .int 1]], .update [("mine", .excluded "mine")] none, none⟩

end Twill
