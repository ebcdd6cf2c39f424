/-
Every query over an acyclic catalog of views is answered at some depth of nesting.

A run of a query reaches the queries written in it, which are smaller, and the
bodies of the views it reads, which come later in the order of references; so the
calls of any query are well-founded (`acc_of_reads`, `acc_of_catalog`), and by
induction along them some depth answers it (`terminates_of_acc`).
-/
import Twill.Expansion

namespace Twill

open Cycles (Acyclic)

/-- Executing the view under `a` materialises the one under `b`. -/
def Materialises (s : Store) (a b : String) : Prop :=
  ∃ q, s.views.lookup a = some q ∧ (∃ name, q.Reads name ∧ toAsciiLowercase name = b) ∧ (s.views.lookup b).isSome

/-- `runQuery` over a run that answers as `base` once the depth is used up. -/
def runFrom (E : Env) (sc : Scan) (base : RunQuery) (depth : Nat) : RunQuery := (queryStep E sc)^[depth] base

/-- At some depth the answer no longer depends on what a deeper run answers. -/
def Terminates (E : Env) (sc : Scan) (sel : SelectStmt) : Prop :=
  ∃ depth result, ∀ base, runFrom E sc base depth sel = result

section

variable {E : Env} {sc : Scan} {sel : SelectStmt} {depth : Nat}

theorem runFrom_succ (base : RunQuery) : runFrom E sc base (depth + 1) = queryStep E sc (runFrom E sc base depth) :=
  Function.iterate_succ_apply' _ _ _

theorem runQuery_eq_runFrom : runQuery E sc depth = runFrom E sc (fun _ => .error .fuel) depth := by
  induction depth with
  | zero => rfl
  | succ depth ih =>
    rw [runFrom_succ, ← ih]
    rfl

/-- What a terminating query answers, `runQuery` answers with any fuel from some bound on. -/
theorem Terminates.stable (h : Terminates E sc sel) :
    ∃ result bound, ∀ fuel, bound ≤ fuel → runQuery E sc fuel sel = result := by
  obtain ⟨depth, result, h⟩ := h
  refine ⟨result, depth, fun fuel hfuel => ?_⟩
  obtain ⟨more, rfl⟩ := Nat.exists_eq_add_of_le hfuel
  rw [runQuery_eq_runFrom, runFrom, Function.iterate_add_apply]
  exact h _

/-- Two runs agree on the query at this depth, whatever they answer below it. -/
def Settled (E : Env) (sc : Scan) (depth : Nat) (sel : SelectStmt) : Prop :=
  ∀ base base', runFrom E sc base depth sel = runFrom E sc base' depth sel

theorem Settled.mono {depth' : Nat} (h : Settled E sc depth sel) (hle : depth ≤ depth') : Settled E sc depth' sel := by
  obtain ⟨more, rfl⟩ := Nat.exists_eq_add_of_le hle
  intro base base'
  rw [runFrom, runFrom, Function.iterate_add_apply, Function.iterate_add_apply]
  exact h _ _

theorem Settled.terminates (h : Settled E sc depth sel) : Terminates E sc sel :=
  ⟨depth, runFrom E sc (fun _ => .error .fuel) depth sel, fun base => h base _⟩

/-- One depth for the members of a list, where each has its own. -/
theorem exists_common {α : Type} {p : Nat → α → Prop} (hmono : ∀ n m a, n ≤ m → p n a → p m a) :
    ∀ {l : List α}, (∀ a ∈ l, ∃ n, p n a) → ∃ n, ∀ a ∈ l, p n a
  | [], _ => ⟨0, by simp⟩
  | a :: l, h => by
    obtain ⟨n, hn⟩ := h a List.mem_cons_self
    obtain ⟨m, hm⟩ := exists_common hmono fun b hb => h b (List.mem_cons_of_mem _ hb)
    refine ⟨max n m, fun b hb => ?_⟩
    rcases List.mem_cons.1 hb with rfl | hb
    · exact hmono n _ _ (le_max_left _ _) hn
    · exact hmono m _ _ (le_max_right _ _) (hm b hb)

theorem Variant.calls {q q' : SelectStmt} (h : Variant q q') : calls sc q' = calls sc q := by
  rw [Twill.calls, Twill.calls, h.queries, h.names]

/-- Where the calls of a query are well-founded, it is settled at some depth, and so
are the forms a correlated subquery takes with its outer references bound. -/
theorem settled_of_acc (h : Acc (fun q sel => q ∈ calls sc sel) sel) :
    ∃ depth, ∀ sel', Variant sel sel' → Settled E sc depth sel' := by
  induction h with
  | intro sel _ ih =>
    have hmono : ∀ n m (q : SelectStmt), n ≤ m → (∀ q', Variant q q' → Settled E sc n q') →
        ∀ q', Variant q q' → Settled E sc m q' := fun n m q hle h q' hq' => (h q' hq').mono hle
    obtain ⟨depth, hdepth⟩ := exists_common hmono ih
    refine ⟨depth + 1, fun sel' hsel' base base' => ?_⟩
    rw [runFrom_succ, runFrom_succ]
    refine queryStep_congr fun q hq q' hq' => ?_
    rw [hsel'.calls] at hq
    exact hdepth q hq q' hq' base base'

theorem terminates_of_acc (h : Acc (fun q sel => q ∈ calls sc sel) sel) : Terminates E sc sel := by
  obtain ⟨depth, hdepth⟩ := settled_of_acc (E := E) h
  exact (hdepth sel (.refl sel)).terminates

/-! ## The calls are well-founded -/

/-- A query whose views are settled is settled itself: what is written in it is smaller. -/
theorem acc_of_reads {sel : SelectStmt} (hviews : ∀ name, sel.Reads name → ∀ q, sc.view name = some q →
    Acc (fun q sel => q ∈ calls sc sel) q) : Acc (fun q sel => q ∈ calls sc sel) sel := by
  refine ⟨sel, fun q hq => ?_⟩
  rcases List.mem_append.1 hq with hq | hq
  · have hsize := (SelectStmt.covered_queries hq).2
    exact acc_of_reads fun name hname => hviews name (.nested hq hname)
  · obtain ⟨name, hname, hview⟩ := List.mem_filterMap.1 hq
    exact hviews name (.here hname) q hview
termination_by sizeOf sel

theorem view_mem_keys {s : Store} {k : String} {q : SelectStmt} (h : s.views.lookup k = some q) : k ∈ s.views :=
  AList.lookup_isSome.1 (by rw [h]; rfl)

theorem CatalogOk.wellFounded {s : Store} (h : CatalogOk s) : WellFounded fun b a => Refers s a b := by
  refine h.acyclic.wellFounded ((List.finite_toSet s.views.keys).subset ?_)
  rintro a ⟨b, q, hq, -⟩
  exact view_mem_keys hq

theorem CatalogOk.acc_view {s : Store} (h : CatalogOk s) (hsc : sc.view = s.view) (k : String) :
    ∀ q, s.views.lookup k = some q → Acc (fun q sel => q ∈ calls sc sel) q := by
  induction k using h.wellFounded.induction with
  | h k ih =>
    intro q hq
    refine acc_of_reads fun name hname r hr => ?_
    have href : Refers s k (toAsciiLowercase name) := ⟨q, hq, name, hname.referenced (h.scopedViews k q hq), rfl⟩
    exact ih _ href r (by rwa [hsc] at hr)

theorem CatalogOk.terminates {s : Store} (h : CatalogOk s) (hsc : sc.view = s.view) (sel : SelectStmt) :
    Terminates E sc sel :=
  terminates_of_acc (acc_of_reads fun name _ q hq => h.acc_view hsc (toAsciiLowercase name) q (by rwa [hsc] at hq))

theorem CatalogOk.materialises {s : Store} (h : CatalogOk s) : Acyclic (Materialises s) := by
  refine h.acyclic.mono fun a b hab => ?_
  obtain ⟨q, hq, ⟨name, hname, hb⟩, -⟩ := hab
  exact ⟨q, hq, name, hname.referenced (h.scopedViews a q hq), hb⟩

end

/-- **In every run whose accepted view bodies bind in their own WITH none of the names
they read from the store, materialising views never comes back to a view, and every
query over the catalog is answered at some depth of nesting.** -/
theorem viewExpansion_terminates {σ : Sys} (h : RunWhere (fun _ a => a.ScopedView) Sys.init σ) :
    Acyclic (Materialises σ.store) ∧ ∀ E snapshot writer params sel,
      Terminates E (σ.store.scan E snapshot writer params) sel := by
  have hok : CatalogOk σ.store := by
    induction h with
    | nil => exact CatalogOk.init
    | snoc _ hscoped hstep ih => exact ih.step (stepped_of_step hstep) hscoped
  exact ⟨hok.materialises, fun E snapshot writer params sel => hok.terminates rfl sel⟩

/-- `SELECT * FROM name` -/
def selectFrom (name : String) : SelectStmt :=
  ⟨[], false, [.star none], some (.table name none), none, [], none, [], [], none, none⟩

/-- `WITH recent AS (SELECT * FROM items) SELECT * FROM recent` -/
def recentItems : SelectStmt :=
  ⟨[⟨"recent", selectFrom "items"⟩], false, [.star none], some (.table "recent" none), none, [], none, [], [], none,
    none⟩

theorem recentItems_scoped : recentItems.Scoped := by
  have hreads : ∀ {sel : SelectStmt} {name : String}, sel.Reads name → sel = selectFrom "items" ∨ sel = recentItems →
      name = "items" := by
    intro sel name h
    induction h with
    | here h =>
      rintro (rfl | rfl)
      · exact List.mem_singleton.1 h
      · cases h
    | nested hq _ ih =>
      rintro (rfl | rfl)
      · cases hq
      · exact ih (.inl (List.mem_singleton.1 hq))
  rintro name h
  obtain rfl := hreads h (.inr rfl)
  decide

/-- A view over a view, both over a table. -/
theorem viewExpansion_terminates_nested :
    let σ := Sys.init.after [createItems,
      .ddl 0 Env.bare (.createView ⟨"v", recentItems, "CREATE VIEW v AS WITH recent AS (SELECT * FROM items) SELECT * FROM recent",
        false, false⟩) (some 3),
      .ddl 0 Env.bare (.createView ⟨"w", selectFrom "v", "CREATE VIEW w AS SELECT * FROM v", false, false⟩) (some 5)]
    Materialises σ.store "w" "v" ∧ Acyclic (Materialises σ.store) ∧
      Terminates Env.bare (σ.store.scan Env.bare 6 none []) (selectFrom "w") := by
  intro σ
  have hrun : RunWhere (fun _ a => a.ScopedView) Sys.init σ :=
    (RunWhere.nil Sys.init).after ⟨trivial, recentItems_scoped, fun _ _ => List.not_mem_nil, trivial⟩
  obtain ⟨hacyclic, hterm⟩ := viewExpansion_terminates hrun
  exact ⟨⟨selectFrom "v", rfl, ⟨"v", .here List.mem_cons_self, rfl⟩, rfl⟩, hacyclic, hterm Env.bare 6 none [] _⟩

/-- `SELECT 1 AS x` -/
def selectOne : SelectStmt := ⟨[], false, [.expr (.int 1) (some "x")], none, none, [], none, [], [], none, none⟩

/-- `WITH v AS (SELECT 1 AS x) SELECT * FROM (SELECT * FROM v) d`: the derived table reads
the relation `v` of the catalog, not the `v` of the WITH. -/
def shadowed : SelectStmt :=
  ⟨[⟨"v", selectOne⟩], false, [.star none], some (.derived (selectFrom "v") "d"), none, [], none, [], [], none, none⟩

/-- The cycle check accepts `CREATE VIEW v` over a body that reads `v` where its own
WITH does not reach, and no depth of nesting answers a query over it. -/
theorem viewExpansion_loops :
    let σ := Sys.init.after [.ddl 0 Env.bare (.createView ⟨"v", shadowed,
      "CREATE VIEW v AS WITH v AS (SELECT 1 AS x) SELECT * FROM (SELECT * FROM v) d", false, false⟩) (some 1)]
    RunWhere (fun _ _ => True) Sys.init σ ∧ ¬ Acyclic (Materialises σ.store) ∧
      ∀ E snapshot writer params, ¬ Terminates E (σ.store.scan E snapshot writer params) (selectFrom "v") := by
  intro σ
  refine ⟨(RunWhere.nil Sys.init).after ⟨trivial, trivial⟩, fun hacyclic => ?_, fun E snapshot writer params hterm => ?_⟩
  · have hreads : shadowed.Reads "v" := .nested (q := selectFrom "v") (by simp [shadowed, SelectStmt.queries,
      SelectStmt.coreQueries, fromQueriesOpt, fromQueries]) (.here List.mem_cons_self)
    exact hacyclic "v" (.single ⟨shadowed, rfl, ⟨"v", hreads, rfl⟩, rfl⟩)
  · have hone : ∀ rq, ∃ rs, queryStep E (σ.store.scan E snapshot writer params) rq selectOne = .ok rs := fun _ => ⟨_, rfl⟩
    have hloop : ∀ e depth, runFrom E (σ.store.scan E snapshot writer params) (fun _ => .error e) depth (selectFrom "v") =
        .error e ∧ runFrom E (σ.store.scan E snapshot writer params) (fun _ => .error e) depth shadowed = .error e := by
      intro e depth
      induction depth with
      | zero => exact ⟨rfl, rfl⟩
      | succ depth ih =>
        obtain ⟨hfrom, hview⟩ := ih
        rw [runFrom_succ]
        refine ⟨?_, ?_⟩
        · have hlookup : (σ.store.scan E snapshot writer params).view "v" = some shadowed := rfl
          simp [queryStep, selectFrom, evalCore, buildFromOpt, buildFrom, hlookup, hview]
        · cases depth with
          | zero => rfl
          | succ depth =>
            obtain ⟨rs, hrs⟩ := hone (runFrom E (σ.store.scan E snapshot writer params) (fun _ => .error e) depth)
            rw [← runFrom_succ] at hrs
            simp [queryStep, shadowed, hrs, evalCore, buildFromOpt, buildFrom, hfrom]
    obtain ⟨depth, result, hterm⟩ := hterm
    have hfuel := (hloop .fuel depth).1.symm.trans (hterm _)
    have hpanic := (hloop .panic depth).1.symm.trans (hterm _)
    cases hfuel.trans hpanic.symm

end Twill
