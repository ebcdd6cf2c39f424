/-
The cycle check of `CREATE VIEW` and what it keeps acyclic.

The worklist search that finds no path to the new name has visited a set of names
that is closed under the references of the stored views (`cycleSearch_closed`), so
the new view closes no cycle of references; every other statement leaves the
references as they are, or takes some away.
-/
import Twill.Views
import Twill.Invariant
import Twill.Replay
import Twill.Lib.Acyclic

namespace Twill

open Cycles (Acyclic)

/-- The view under a key refers to a name, as the cycle check sees it. -/
def Refers (s : Store) (a b : String) : Prop :=
  ∃ q, s.views.lookup a = some q ∧ ∃ n ∈ referencedRelations q, toAsciiLowercase n = b

/-! ## The search -/

/-- How many references the views not yet seen can still push. -/
def unseen (s : Store) (seen : List String) : Nat :=
  ((s.views.entries.filter fun e => !seen.contains e.1).map fun e => (referencedRelations e.2).length).sum

theorem sum_filter_add_le {α : Type} {p p' : α → Bool} {f : α → Nat} (hsub : ∀ x, p' x = true → p x = true) :
    ∀ {l : List α} {a : α}, a ∈ l → p a = true → p' a = false →
      ((l.filter p').map f).sum + f a ≤ ((l.filter p).map f).sum
  | x :: l, a, ha, hp, hp' => by
    have hle : ∀ l : List α, ((l.filter p').map f).sum ≤ ((l.filter p).map f).sum := by
      intro l
      induction l with
      | nil => exact le_rfl
      | cons y l ih =>
        by_cases hy' : p' y = true
        · simp [hy', hsub y hy', ih]
        · by_cases hy : p y = true
          · simp only [List.filter_cons, hy, hy', Bool.false_eq_true, if_true, if_false, List.map_cons, List.sum_cons]
            omega
          · simp [hy, hy', ih]
    rcases List.mem_cons.1 ha with rfl | ha
    · have := hle l
      simp only [List.filter_cons, hp, hp', Bool.false_eq_true, if_true, if_false, List.map_cons, List.sum_cons]
      omega
    · have ih := sum_filter_add_le (f := f) hsub ha hp hp'
      by_cases hx' : p' x = true
      · simp only [List.filter_cons, hx', hsub x hx', if_true, List.map_cons, List.sum_cons]
        omega
      · by_cases hx : p x = true
        · simp only [List.filter_cons, hx, hx', Bool.false_eq_true, if_true, if_false, List.map_cons, List.sum_cons]
          omega
        · simpa [hx, hx'] using ih

theorem unseen_cons {s : Store} {seen : List String} {k : String} {q : SelectStmt} (hq : s.views.lookup k = some q)
    (hk : k ∉ seen) : unseen s (k :: seen) + (referencedRelations q).length ≤ unseen s seen := by
  have hmem : (⟨k, q⟩ : Sigma fun _ : String => SelectStmt) ∈ s.views.entries := List.of_mem_dlookup hq
  refine sum_filter_add_le (fun e he => ?_) hmem ?_ ?_
  · simp only [Bool.not_eq_true', List.contains_eq_mem, decide_eq_false_iff_not, List.mem_cons, not_or] at he ⊢
    exact he.2
  · simpa using hk
  · simp

theorem unseen_cons_le (s : Store) (seen : List String) (k : String) : unseen s (k :: seen) ≤ unseen s seen := by
  refine List.Sublist.sum_le_sum (List.Sublist.map _ ?_) fun _ _ => Nat.zero_le _
  refine List.monotone_filter_right _ fun e he => ?_
  simp only [Bool.not_eq_true', List.contains_eq_mem, decide_eq_false_iff_not, List.mem_cons, not_or] at he ⊢
  exact he.2

/-- A search that finds nothing has visited a set of names without the new one, which
holds every name on the stack and is closed but for what was seen before. -/
theorem cycleSearch_closed {s : Store} {newName : String} : ∀ {fuel : Nat} {l r : List String},
    l.length + unseen s r < fuel → cycleSearch s newName fuel l r = false →
    ∃ S : Set String, (∀ n ∈ l, toAsciiLowercase n ∈ S ∨ toAsciiLowercase n ∈ r) ∧ toAsciiLowercase newName ∉ S ∧
      ∀ x ∈ S, ∀ y, Refers s x y → y ∈ S ∨ y ∈ r
  | 0, _, _, hfuel, _ => absurd hfuel (Nat.not_lt_zero _)
  | fuel + 1, [], seen, _, _ => ⟨∅, by simp, by simp, by simp⟩
  | fuel + 1, n :: stack, seen, hfuel, h => by
    have hlen : (n :: stack).length = stack.length + 1 := rfl
    simp only [cycleSearch] at h
    split_ifs at h with hnew hseen
    · obtain ⟨S, hstack, hnot, hclosed⟩ := cycleSearch_closed (l := stack) (by omega) h
      refine ⟨S, fun m hm => ?_, hnot, hclosed⟩
      rcases List.mem_cons.1 hm with rfl | hm
      · exact .inr (by simpa using hseen)
      · exact hstack m hm
    · -- `n` joins the set, and what it refers to is now on the stack
      have hk : toAsciiLowercase n ∉ seen := by simpa using hseen
      have hview : s.view n = s.views.lookup (toAsciiLowercase n) := rfl
      have hmore : (((s.view n).elim [] fun q => (referencedRelations q).reverse) ++ stack).length +
          unseen s (toAsciiLowercase n :: seen) < fuel := by
        rw [List.length_append]
        cases hq : s.view n with
        | none =>
          have := unseen_cons_le s seen (toAsciiLowercase n)
          simp only [Option.elim_none, List.length_nil]
          omega
        | some q =>
          have := unseen_cons (hview ▸ hq) hk
          simp only [Option.elim_some, List.length_reverse]
          omega
      obtain ⟨S, hstack, hnot, hclosed⟩ := cycleSearch_closed hmore h
      refine ⟨insert (toAsciiLowercase n) S, fun m hm => ?_, ?_, fun x hx y hxy => ?_⟩
      · rcases List.mem_cons.1 hm with rfl | hm
        · exact .inl (Set.mem_insert _ _)
        · rcases hstack m (List.mem_append_right _ hm) with hS | hmem
          · exact .inl (Set.mem_insert_of_mem _ hS)
          · rcases List.mem_cons.1 hmem with heq | hmem
            · exact .inl (heq ▸ Set.mem_insert _ _)
            · exact .inr hmem
      · rintro (heq | hS)
        · exact hnew (by simp [eqIgnoreAsciiCase, heq])
        · exact hnot hS
      · have hcase : y ∈ S ∨ y ∈ toAsciiLowercase n :: seen := by
          rcases hx with rfl | hx
          · obtain ⟨q, hq, m, hm, rfl⟩ := hxy
            refine hstack m (List.mem_append_left _ ?_)
            rw [hview, hq]
            simpa using hm
          · exact hclosed x hx y hxy
        rcases hcase with hS | hmem
        · exact .inl (Set.mem_insert_of_mem _ hS)
        · rcases List.mem_cons.1 hmem with rfl | hmem
          · exact .inl (Set.mem_insert _ _)
          · exact .inr hmem

/-- What an accepted definition refers to does not lead to its name. -/
theorem viewWouldCycle_closed {s : Store} {newName : String} {query : SelectStmt}
    (h : viewWouldCycle s newName query = false) :
    ∃ S : Set String, (∀ n ∈ referencedRelations query, toAsciiLowercase n ∈ S) ∧ toAsciiLowercase newName ∉ S ∧
      ∀ x ∈ S, ∀ y, Refers s x y → y ∈ S := by
  have hall : unseen s [] = (s.views.values.map fun q => (referencedRelations q).length).sum := by
    simp [unseen, AList.values, Function.comp_def]
  obtain ⟨S, hstack, hnot, hclosed⟩ := cycleSearch_closed (s := s) (r := []) (by simp [hall]) h
  exact ⟨S, fun n hn => by simpa using hstack n (List.mem_reverse.2 hn), hnot,
    fun x hx y hxy => by simpa using hclosed x hx y hxy⟩

/-! ## The catalog over a run -/

/-- Only DDL changes the views. -/
theorem views_of_storeStep {σ : Sys} {a : Act} {s : Store} (h : Sys.StoreStep σ a s) :
    s.views = σ.store.views ∨ ∃ c E st op first, a = .ddl c E st (some first) ∧
      planDdl E σ.store st = .ok (some op) ∧ s.views = (applyDdl E st σ.store op).views := by
  cases h with
  | same => exact .inl rfl
  | @dml c t E st params ht hlane =>
    obtain ⟨-, -, ⟨autoinc, hstore⟩, -⟩ := runDml_plan E st ⟨t.snapshot, t.owner, params⟩ σ.store
    exact .inl hstore.views
  | @rollback c t ht hwriter => exact .inl (Store.rollbackOwner_eq t.owner).views
  | @rollbackTo c t name sp ht hwriter =>
    exact .inl (Store.rollbackToSavepoint_eq t.owner sp.inserted sp.deleted).views
  | @publish ms first hflush => exact .inl (Sys.publishMembers_eq σ.store first ms).views
  | @discard ms hflush => exact .inl (Sys.discardMembers_eq σ.store ms).views
  | ddl hplan hfirst => exact .inr ⟨_, _, _, _, _, rfl, hplan, rfl⟩

/-- Every stored view is scoped, and the references of the views close no cycle. -/
structure CatalogOk (s : Store) : Prop where
  scopedViews : ∀ k q, s.views.lookup k = some q → q.Scoped
  acyclic : Acyclic (Refers s)

theorem CatalogOk.of_views {s s' : Store} (h : CatalogOk s) (hviews : s'.views = s.views) : CatalogOk s' := by
  refine ⟨fun k q hq => h.scopedViews k q (hviews ▸ hq), h.acyclic.mono fun a b hab => ?_⟩
  simpa only [Refers, hviews] using hab

theorem CatalogOk.insertView {s : Store} {name : String} {query : SelectStmt} (h : CatalogOk s)
    (hcheck : viewWouldCycle s name query = false) (hscoped : query.Scoped) : CatalogOk (s.insertView name query) := by
  obtain ⟨S, hrefs, hnot, hclosed⟩ := viewWouldCycle_closed hcheck
  refine ⟨fun k q hq => ?_, h.acyclic.redirect (n := toAsciiLowercase name) (fun a b hne hab => ?_) hnot hclosed
    fun b hb => ?_⟩
  · by_cases hk : k = toAsciiLowercase name
    · subst hk
      obtain rfl : query = q := by simpa [Store.insertView, Store.key] using hq
      exact hscoped
    · refine h.scopedViews k q ?_
      rwa [Store.insertView, Store.key, AList.lookup_insert_ne hk] at hq
  · obtain ⟨q, hq, hb⟩ := hab
    refine ⟨q, ?_, hb⟩
    rwa [Store.insertView, Store.key, AList.lookup_insert_ne hne] at hq
  · obtain ⟨q, hq, n, hn, rfl⟩ := hb
    obtain rfl : query = q := by simpa [Store.insertView, Store.key] using hq
    exact hrefs n hn

theorem CatalogOk.dropView {s : Store} (h : CatalogOk s) (name : String) : CatalogOk (s.dropView name) := by
  have hold : ∀ k q, (s.dropView name).views.lookup k = some q → s.views.lookup k = some q := by
    intro k q hq
    by_cases hk : k = Store.key name
    · subst hk
      simp [Store.dropView] at hq
    · rwa [Store.dropView, AList.lookup_erase_ne hk] at hq
  refine ⟨fun k q hq => h.scopedViews k q (hold k q hq), h.acyclic.mono fun a b hab => ?_⟩
  obtain ⟨q, hq, hb⟩ := hab
  exact ⟨q, hold a q hq, hb⟩

/-- A `CREATE VIEW` whose body is scoped. -/
def Act.ScopedView : Act → Prop
  | .ddl _ _ (.createView v) _ => v.query.Scoped
  | _ => True

theorem CatalogOk.step {σ τ : Sys} {a : Act} (h : CatalogOk σ.store) (hs : Stepped σ a τ) (ha : a.ScopedView) :
    CatalogOk τ.store := by
  rcases views_of_storeStep (Sys.storeStep_of_stepped hs) with hsame | ⟨c, E, st, op, first, rfl, hplan, hviews⟩
  · exact h.of_views hsame
  · refine CatalogOk.of_views (s := applyDdl E st σ.store op) ?_ hviews
    cases planned_of_plan hplan with
    | createView hfresh hacyclic => exact h.insertView hacyclic ha
    | dropView hthere => exact h.dropView _
    | createIndex => exact h.of_views (Store.sameButIndexes_createIndex _).views
    | _ => exact h.of_views (by first | rfl | exact views_applyAlter _)

theorem CatalogOk.init : CatalogOk Sys.init.store := by
  refine ⟨fun k q hq => (by cases hq), fun a hcycle => ?_⟩
  obtain ⟨b, ⟨q, hq, -⟩, -⟩ := Relation.TransGen.head'_iff.1 hcycle
  cases hq

end Twill
