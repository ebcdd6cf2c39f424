/-
Row-level security on reads: a query cannot tell two stores apart that differ
only in rows its session may not read.

A row is hidden when its table has row-level security on and every applicable
SELECT policy evaluates on it, without error, to something other than true. The
executor reads a table through one scan, which drops hidden rows before WHERE
sees them; the index path runs only where no row is hidden.
-/
import Twill.Relational
import Twill.Lib.Except

namespace Twill

/-- The policy's USING text parses and is not true of the row. -/
def PolicyRejects (E : Env) (schema : TableSchema) (params : List Value) (vals : Row) (p : Policy) : Prop :=
  ∃ sql e v, p.using_ = some sql ∧ E.frontend.parseExpr sql = .ok e ∧
    eval E e (EvalCtx.ofRow vals schema params) = .ok v ∧ v.asBool ≠ some true

/-- No applicable SELECT policy admits the row; with none applicable, every row
is hidden. -/
def Hidden (E : Env) (schema : TableSchema) (params : List Value) (vals : Row) : Prop :=
  schema.rlsEnabled = true ∧
    ∀ p ∈ applicablePolicies E schema .select, PolicyRejects E schema params vals p

/-- Two row lists that differ only in hidden versions. -/
inductive SameButHidden (E : Env) (schema : TableSchema) (params : List Value) :
    List RowVersion → List RowVersion → Prop where
  | nil : SameButHidden E schema params [] []
  | same (r : RowVersion) {l₁ l₂ : List RowVersion} :
      SameButHidden E schema params l₁ l₂ → SameButHidden E schema params (r :: l₁) (r :: l₂)
  | left {r : RowVersion} {l₁ l₂ : List RowVersion} : Hidden E schema params r.values →
      SameButHidden E schema params l₁ l₂ → SameButHidden E schema params (r :: l₁) l₂
  | right {r : RowVersion} {l₁ l₂ : List RowVersion} : Hidden E schema params r.values →
      SameButHidden E schema params l₁ l₂ → SameButHidden E schema params l₁ (r :: l₂)

/-- Two tables that differ only in hidden versions. -/
structure TableIndist (E : Env) (params : List Value) (t₁ t₂ : Table) : Prop where
  schema : t₂.schema = t₁.schema
  nextVid : t₂.nextVid = t₁.nextVid
  nextAutoinc : t₂.nextAutoinc = t₁.nextAutoinc
  rows : SameButHidden E t₁.schema params t₁.rows t₂.rows

/-- Two stores that differ only in hidden versions. An index of a table with
hidden versions may differ too: it holds their vectors. -/
structure StoreIndist (E : Env) (params : List Value) (s₁ s₂ : Store) : Prop where
  views : s₂.views = s₁.views
  indexes : ∀ name t, s₁.table name = some t → rlsRead E t.schema .select = .ok .unrestricted →
    ∀ column, s₂.indexFor name column = s₁.indexFor name column
  tables : ∀ k, Option.Rel (TableIndist E params) (s₁.tables.lookup k) (s₂.tables.lookup k)

variable {E : Env} {schema : TableSchema} {params : List Value} {vals : Row}

/-! ## A hidden row does not pass -/

theorem anyPred_false {ctx : EvalCtx} : ∀ {preds : List Expr},
    (∀ e ∈ preds, ∃ v, eval E e ctx = .ok v ∧ v.asBool ≠ some true) → anyPred E preds ctx = .ok false
  | [], _ => rfl
  | e :: es, h => by
    obtain ⟨v, hv, hne⟩ := h e (by simp)
    have ih : anyPred E es ctx = .ok false := anyPred_false fun e' he' => h e' (by simp [he'])
    simp [anyPred, hv, hne, ih]

/-- The predicates of policies that all reject a row are false of it. -/
theorem policyPreds_reject : ∀ {ps : List Policy} {r : Option (List Expr)},
    (∀ p ∈ ps, PolicyRejects E schema params vals p) →
    policyPreds E (fun p => p.using_) ps = .ok r →
    ∃ preds, r = some preds ∧
      ∀ e ∈ preds, ∃ v, eval E e (EvalCtx.ofRow vals schema params) = .ok v ∧ v.asBool ≠ some true
  | [], r, _, h => by
    obtain rfl : some [] = r := by simpa [policyPreds] using h
    exact ⟨[], rfl, by simp⟩
  | p :: ps, r, hrej, h => by
    obtain ⟨sql, e, v, husing, hparse, heval, hne⟩ := hrej p (by simp)
    simp only [policyPreds, husing, hparse, Except.ok_bind] at h
    obtain ⟨r', hr', hmap⟩ := Except.bind_eq_ok.1 h
    obtain ⟨preds, rfl, hpreds⟩ := policyPreds_reject (fun q hq => hrej q (by simp [hq])) hr'
    obtain rfl : some (e :: preds) = r := by simpa using hmap
    refine ⟨e :: preds, rfl, fun e' he' => ?_⟩
    rcases List.mem_cons.1 he' with rfl | he'
    · exact ⟨v, heval, hne⟩
    · exact hpreds e' he'

theorem passes_hidden {d : RlsDecision} (hb : E.session.bypass = false)
    (hh : Hidden E schema params vals) (hd : rlsRead E schema .select = .ok d) :
    d.passes E (EvalCtx.ofRow vals schema params) = .ok false := by
  obtain ⟨hon, hrej⟩ := hh
  simp only [rlsRead, rlsDecide, hon, hb, Bool.not_true, Bool.or_self, Bool.false_eq_true, if_false] at hd
  obtain ⟨r, hr, hd⟩ := Except.bind_eq_ok.1 hd
  obtain ⟨preds, rfl, hpreds⟩ := policyPreds_reject hrej hr
  simp only [Except.pure_eq] at hd
  split at hd
  · obtain rfl : RlsDecision.deny = d := by simpa using hd
    rfl
  · rename_i hne
    -- some policy applies and its text was parsed, so the list is not empty
    split at hd
    · rename_i hempty
      exfalso
      obtain ⟨p, ps, hps⟩ := List.exists_cons_of_ne_nil (by simpa using hne)
      obtain ⟨sql, e, v, husing, hparse, -, -⟩ := hrej p (by simp [hps])
      rw [hps] at hr
      simp only [policyPreds, husing, hparse, Except.ok_bind] at hr
      obtain ⟨r', -, hmap⟩ := Except.bind_eq_ok.1 hr
      have hnil : preds = [] := by simpa using hempty
      subst hnil
      cases r' <;> simp at hmap
    · obtain rfl : RlsDecision.filter preds = d := by simpa using hd
      exact anyPred_false hpreds

/-! ## The scan -/

theorem scanMatched_hidden {d : RlsDecision} {filter : Option Expr} {snapshot : Nat}
    {writer : Option Nat} {r : RowVersion} {rows : List RowVersion} (hb : E.session.bypass = false)
    (hd : rlsRead E schema .select = .ok d) (hh : Hidden E schema params r.values) :
    scanMatched E d filter schema snapshot writer params (r :: rows) =
      scanMatched E d filter schema snapshot writer params rows := by
  rw [scanMatched]
  split
  · rfl
  · simp [passes_hidden hb hh hd]

theorem scanMatched_indist {d : RlsDecision} {filter : Option Expr} {snapshot : Nat}
    {writer : Option Nat} {l₁ l₂ : List RowVersion} (hb : E.session.bypass = false)
    (hd : rlsRead E schema .select = .ok d) (h : SameButHidden E schema params l₁ l₂) :
    scanMatched E d filter schema snapshot writer params l₁ =
      scanMatched E d filter schema snapshot writer params l₂ := by
  induction h with
  | nil => rfl
  | same r _ ih => simp only [scanMatched, ih]
  | left hh _ ih => rw [scanMatched_hidden hb hd hh, ih]
  | right hh _ ih => rw [scanMatched_hidden hb hd hh, ih]

/-- Where every row passes, no row is hidden. -/
theorem eq_of_unrestricted {l₁ l₂ : List RowVersion} (hb : E.session.bypass = false)
    (hd : rlsRead E schema .select = .ok .unrestricted) (h : SameButHidden E schema params l₁ l₂) :
    l₁ = l₂ := by
  induction h with
  | nil => rfl
  | same r _ ih => rw [ih]
  | left hh _ _ => simpa [RlsDecision.passes] using passes_hidden hb hh hd
  | right hh _ _ => simpa [RlsDecision.passes] using passes_hidden hb hh hd

theorem TableIndist.eq_of_unrestricted {t₁ t₂ : Table} (h : TableIndist E params t₁ t₂)
    (hb : E.session.bypass = false) (hd : rlsRead E t₁.schema .select = .ok .unrestricted) : t₁ = t₂ := by
  have hrows := Twill.eq_of_unrestricted hb hd h.rows
  obtain ⟨hschema, hvid, hauto, -⟩ := h
  cases t₁
  cases t₂
  simp_all

/-! ## Queries -/

theorem scanTable_indist {s₁ s₂ : Store} (hb : E.session.bypass = false) (h : StoreIndist E params s₁ s₂)
    (snapshot : Nat) (writer : Option Nat) (name src : String) :
    scanTable E s₁ snapshot writer params name src = scanTable E s₂ snapshot writer params name src := by
  have ht : Option.Rel (TableIndist E params) (s₁.table name) (s₂.table name) := h.tables (Store.key name)
  simp only [scanTable]
  generalize s₁.table name = o₁ at ht ⊢
  generalize s₂.table name = o₂ at ht ⊢
  cases ht with
  | none => rfl
  | @some t₁ t₂ ht =>
    simp only [ht.schema]
    cases hd : rlsRead E t₁.schema .select with
    | error e => rfl
    | ok d => simp only [Except.ok_bind, scanMatched_indist hb hd ht.rows]

/-- The relational executor reads the same things from both stores. -/
theorem scan_indist {s₁ s₂ : Store} (hb : E.session.bypass = false) (h : StoreIndist E params s₁ s₂)
    (snapshot : Nat) (writer : Option Nat) :
    s₁.scan E snapshot writer params = s₂.scan E snapshot writer params := by
  simp only [Store.scan, Scan.mk.injEq, and_true]
  refine ⟨?_, ?_⟩
  · funext name
    simp only [Store.view, h.views]
  · funext name src
    exact scanTable_indist hb h snapshot writer name src

theorem table_isSome_indist {s₁ s₂ : Store} (h : StoreIndist E params s₁ s₂) (name : String) :
    (s₁.table name).isSome = (s₂.table name).isSome := by
  have ht : Option.Rel (TableIndist E params) (s₁.table name) (s₂.table name) := h.tables (Store.key name)
  generalize s₁.table name = o₁ at ht ⊢
  generalize s₂.table name = o₂ at ht ⊢
  cases ht <;> rfl

theorem knnSelect_indist {s₁ s₂ : Store} {name : String} (ht : s₁.table name = s₂.table name)
    (hix : ∀ column, s₂.indexFor name column = s₁.indexFor name column) (sel : SelectStmt) (snapshot : Nat) (writer : Option Nat)
    (efSearch : Option Nat) :
    knnSelect E s₁ sel name snapshot writer params efSearch =
      knnSelect E s₂ sel name snapshot writer params efSearch := by
  simp only [knnSelect, hix, ht]

theorem singleTableSelect_indist {s₁ s₂ : Store} (hb : E.session.bypass = false)
    (h : StoreIndist E params s₁ s₂) (sel : SelectStmt) (name : String) (snapshot : Nat)
    (writer : Option Nat) (efSearch : Option Nat) :
    singleTableSelect E s₁ sel name snapshot writer params efSearch =
      singleTableSelect E s₂ sel name snapshot writer params efSearch := by
  have ht : Option.Rel (TableIndist E params) (s₁.table name) (s₂.table name) := h.tables (Store.key name)
  simp only [singleTableSelect]
  generalize ht₁ : s₁.table name = o₁ at ht ⊢
  generalize ht₂ : s₂.table name = o₂ at ht ⊢
  cases ht with
  | none => rfl
  | @some t₁ t₂ ht =>
    simp only [ht.schema]
    cases hd : rlsRead E t₁.schema .select with
    | error e => rfl
    | ok d =>
      simp only [Except.ok_bind, scanMatched_indist hb hd ht.rows]
      cases d with
      | unrestricted =>
        -- the index may answer, from the same rows
        have heq : s₁.table name = s₂.table name := by
          rw [ht₁, ht₂, ht.eq_of_unrestricted hb hd]
        rw [knnSelect_indist heq (h.indexes name t₁ ht₁ hd)]
      | filter preds => rfl
      | deny => rfl

/-- **Reads do not depend on hidden rows**: every SELECT answers the same, rows
and order or error, on two stores that differ only in versions the session's
policies hide. -/
theorem runSelectTuned_indist (E : Env) (params : List Value) (s₁ s₂ : Store)
    (hb : E.session.bypass = false) (h : StoreIndist E params s₁ s₂) (sel : SelectStmt) (snapshot : Nat)
    (writer efSearch : Option Nat) :
    runSelectTuned E s₁ sel snapshot writer params efSearch =
      runSelectTuned E s₂ sel snapshot writer params efSearch := by
  simp only [runSelectTuned, scan_indist hb h, table_isSome_indist h,
    singleTableSelect_indist hb h]

/-- A table of secrets of which the session may read those marked `open`. -/
def secretsTable (hidden : List RowVersion) : Table :=
  ⟨⟨"secrets", [⟨"open", .integer, false, false, false, false, none⟩], [], [], [], true,
    [⟨"readable", .select, [], some "open", none⟩]⟩, hidden ++ [⟨9, [.int 1], 1, 0, 0⟩], 10, 1⟩

def secretsStore (hidden : List RowVersion) : Store :=
  ⟨(∅ : AList fun _ : String => Table).insert "secrets" (secretsTable hidden), ∅, ∅, 1⟩

/-- `SELECT open FROM secrets`. -/
def openSecrets : SelectStmt :=
  ⟨[], false, [.expr (.column "open") none], some (.table "secrets" none), none, [], none, [], [], none, none⟩

theorem secretsStore_indist :
    StoreIndist Env.bare [] (secretsStore [⟨1, [.int 0], 1, 0, 0⟩]) (secretsStore []) := by
  refine ⟨rfl, fun _ _ _ _ _ => rfl, fun k => ?_⟩
  by_cases hk : k = "secrets"
  · subst hk
    refine .some ⟨rfl, rfl, rfl, .left ⟨rfl, ?_⟩ (.same _ .nil)⟩
    intro p hp
    obtain rfl : p = ⟨"readable", .select, [], some "open", none⟩ := by
      simpa [applicablePolicies, secretsTable] using (List.mem_filter.1 hp).1
    exact ⟨"open", .column "open", .int 0, rfl, rfl, rfl, by decide⟩
  · simp only [secretsStore, AList.lookup_insert_ne hk]
    exact .none

/-- With and without a secret it may not read, the session gets the same rows. -/
theorem runSelectTuned_hidden_secret :
    (∃ rs, runSelectTuned Env.bare (secretsStore []) openSecrets 1 none [] none = .ok rs) ∧
      runSelectTuned Env.bare (secretsStore [⟨1, [.int 0], 1, 0, 0⟩]) openSecrets 1 none [] none =
        runSelectTuned Env.bare (secretsStore []) openSecrets 1 none [] none :=
  ⟨⟨_, rfl⟩, runSelectTuned_indist Env.bare [] (secretsStore [⟨1, [.int 0], 1, 0, 0⟩]) (secretsStore []) rfl
    secretsStore_indist openSecrets 1 none none⟩

end Twill
