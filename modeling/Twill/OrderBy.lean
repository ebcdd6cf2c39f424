/-
What `ORDER BY` sorts by (`exec.rs`: `order_cmp`, `order_key_cmp`, `order_matched`,
`order_and_collect`).

Values of different classes compare as tied, and so do NaN and vectors with everything. The
comparison is a preorder on the rows of a query exactly when no row has such a value between
two others that its keys would put in the other order.
-/
import Twill.Compare
import Twill.Lib.KeyOrder
import Twill.Select

namespace Twill

/-! ## One key -/

/-- Two values that are tied without being NULL or equal in one class. -/
def Incomparable (v w : Value) : Prop := v.isNull = false ∧ w.isNull = false ∧ v.sqlCmp w = none

instance (v w : Value) : Decidable (Incomparable v w) := inferInstanceAs (Decidable (_ ∧ _ ∧ _))

/-- The comparison of non-null values in one direction. -/
def directed (asc : Bool) (v w : Value) : Ordering :=
  if asc then (v.sqlCmp w).getD .eq else ((v.sqlCmp w).getD .eq).swap

theorem sqlCmp_swap (v w : Value) : w.sqlCmp v = (v.sqlCmp w).map Ordering.swap := by
  rw [sqlCmp_eq_place, sqlCmp_eq_place]
  cases v.place with
  | none => cases w.place <;> rfl
  | some p => cases w.place with
    | none => rfl
    | some q => exact Place.cmp_swap p q

theorem sqlCmp_trans {u v w : Value} {o o' : Ordering} (huv : u.sqlCmp v = some o) (hvw : v.sqlCmp w = some o') :
    ∃ o'', u.sqlCmp w = some o'' ∧ (o = .lt → o' ≠ .gt → o'' = .lt) ∧ (o = .gt → o' ≠ .lt → o'' = .gt) ∧
      (o = .eq → o'' = o') := by
  rw [sqlCmp_eq_place] at huv hvw ⊢
  cases hu : u.place with
  | none => simp [hu] at huv
  | some p => cases hv : v.place with
    | none => simp [hu, hv] at huv
    | some q => cases hw : w.place with
      | none => simp [hv, hw] at hvw
      | some r =>
        rw [hu, hv] at huv
        rw [hv, hw] at hvw
        exact Place.cmp_trans huv hvw

theorem sqlCmp_none {u v w : Value} (huv : u.sqlCmp v ≠ none) (hvw : v.sqlCmp w = none) : u.sqlCmp w = none := by
  rw [sqlCmp_eq_place] at huv hvw ⊢
  cases hu : u.place with
  | none => rfl
  | some p => cases hv : v.place with
    | none => simp [hu, hv] at huv
    | some q => cases hw : w.place with
      | none => rfl
      | some r =>
        rw [hu, hv] at huv
        rw [hv, hw] at hvw
        exact Place.cmp_none huv hvw

theorem directed_swap (asc : Bool) (v w : Value) : directed asc w v = (directed asc v w).swap := by
  rw [directed, directed, sqlCmp_swap v w]
  cases asc <;> cases v.sqlCmp w <;> simp

theorem directed_ne_eq (asc : Bool) {v w : Value} (h : directed asc v w ≠ .eq) : v.sqlCmp w ≠ none := by
  intro hnone
  rw [directed, hnone] at h
  cases asc <;> exact h rfl

theorem directed_key (asc : Bool) : KeyOrder.Key (directed asc) := by
  have hsome {v w : Value} {o : Ordering} (h : directed asc v w = o) (ho : o ≠ .eq) :
      v.sqlCmp w = some (if asc then o else o.swap) := by
    unfold directed at h
    cases hcmp : v.sqlCmp w with
    | none => rw [hcmp] at h; cases asc <;> exact absurd h.symm ho
    | some o' =>
      rw [hcmp] at h
      cases asc
      · obtain rfl : o'.swap = o := h
        simp
      · obtain rfl : o' = o := h
        simp
  refine ⟨fun v w => directed_swap asc v w, fun u v w huv hvw => ?_, fun u v w huv hvw => ?_⟩
  · obtain ⟨o, huw, hlt, hgt, -⟩ := sqlCmp_trans (hsome huv (by decide)) (hsome hvw (by decide))
    rw [directed, huw]
    cases asc
    · simp [hgt rfl (by decide)]
    · simp [hlt rfl (by decide)]
  · have huv' := hsome huv (by decide)
    cases hvw' : v.sqlCmp w with
    | none =>
      rw [directed, sqlCmp_none (by simp [huv']) hvw']
      cases asc <;> decide
    | some o' =>
      have ho' : o' = .eq := by
        rw [directed, hvw'] at hvw
        cases asc <;> cases o' <;> simp_all
      obtain ⟨o, huw, hlt, hgt, -⟩ := sqlCmp_trans huv' hvw'
      rw [directed, huw]
      cases asc
      · simp [hgt rfl (by simp [ho'])]
      · simp [hlt rfl (by simp [ho'])]

theorem orderCmp_of_not_null {v w : Value} (hv : v.isNull = false) (hw : w.isNull = false) (asc nullsFirst : Bool) :
    orderCmp v w asc nullsFirst = directed asc v w := by
  rw [orderCmp, hv, hw]
  rfl

/-- **One key.** It is read the same from both sides and never against its own order. -/
theorem orderCmp_key (asc nullsFirst : Bool) : KeyOrder.Key fun v w => orderCmp v w asc nullsFirst := by
  have hdirected := directed_key asc
  refine ⟨fun v w => ?_, fun u v w huv hvw => ?_, fun u v w huv hvw => ?_⟩
  · cases hv : v.isNull <;> cases hw : w.isNull
    · rw [orderCmp_of_not_null hv hw, orderCmp_of_not_null hw hv, hdirected.swap]
    all_goals cases nullsFirst <;> simp [orderCmp, hv, hw]
  · cases hu : u.isNull <;> cases hv : v.isNull <;> cases hw : w.isNull
    · rw [orderCmp_of_not_null hu hv] at huv
      rw [orderCmp_of_not_null hv hw] at hvw
      rw [orderCmp_of_not_null hu hw]
      exact hdirected.trans u v w huv hvw
    all_goals cases nullsFirst <;> simp_all [orderCmp]
  · cases hu : u.isNull <;> cases hv : v.isNull <;> cases hw : w.isNull
    · rw [orderCmp_of_not_null hu hv] at huv
      rw [orderCmp_of_not_null hv hw] at hvw
      rw [orderCmp_of_not_null hu hw]
      exact hdirected.tie u v w huv hvw
    all_goals cases nullsFirst <;> simp_all [orderCmp]

/-- A value tied with two that are told apart is comparable with neither. -/
theorem tied_iff {u v w : Value} {asc nullsFirst : Bool} (huv : orderCmp u v asc nullsFirst = .lt) :
    (orderCmp u w asc nullsFirst = .eq ∧ orderCmp v w asc nullsFirst = .eq) ↔ Incomparable u w ∧ Incomparable v w := by
  constructor
  · rintro ⟨huw, hvw⟩
    have hnull : u.isNull = false ∧ v.isNull = false ∧ w.isNull = false := by
      cases hu : u.isNull <;> cases hv : v.isNull <;> cases hw : w.isNull <;> cases nullsFirst <;>
        simp_all [orderCmp]
    obtain ⟨hu, hv, hw⟩ := hnull
    rw [orderCmp_of_not_null hu hv] at huv
    rw [orderCmp_of_not_null hu hw] at huw
    rw [orderCmp_of_not_null hv hw] at hvw
    have huv' : u.sqlCmp v ≠ none := directed_ne_eq asc (by simp [huv])
    have htie {x : Value} (hx : directed asc x w = .eq) (hcomparable : x.sqlCmp w ≠ none) : x.sqlCmp w = some .eq := by
      obtain ⟨o, ho⟩ := Option.ne_none_iff_exists'.1 hcomparable
      rw [directed, ho] at hx
      cases asc <;> cases o <;> simp_all
    have hboth : u.sqlCmp w = none ↔ v.sqlCmp w = none :=
      ⟨fun h => sqlCmp_none (by rwa [sqlCmp_swap u v, Ne, Option.map_eq_none_iff]) h, sqlCmp_none huv'⟩
    have hnone : u.sqlCmp w = none := by
      by_contra hcomparable
      have huw' := htie huw hcomparable
      have hvw' := htie hvw fun h => hcomparable (hboth.2 h)
      have hwv : w.sqlCmp v = some .eq := by rw [sqlCmp_swap v w, hvw']; rfl
      obtain ⟨o, ho, -, -, heq⟩ := sqlCmp_trans huw' hwv
      rw [directed, ho, heq rfl] at huv
      cases asc <;> exact absurd huv (by decide)
    exact ⟨⟨hu, hw, hnone⟩, hv, hw, hboth.1 hnone⟩
  · rintro ⟨⟨hu, hw, huw⟩, hv, -, hvw⟩
    rw [orderCmp_of_not_null hu hw, orderCmp_of_not_null hv hw, directed, directed, huw, hvw]
    cases asc <;> exact ⟨rfl, rfl⟩

/-! ## Rows -/

section
variable {α : Type} (value : Expr → α → Res Value)

/-- The value of a key on a row. -/
def keyValue (k : OrderKey) (a : α) : Value := match value k.expr a with
  | .ok v => v
  | .error _ => .null

/-- The comparison of rows by one key. -/
def byKey (k : OrderKey) (a b : α) : Ordering :=
  orderCmp (keyValue value k a) (keyValue value k b) k.asc k.nullsFirst

/-- The comparison of rows by the key list. -/
def byKeys (keys : List OrderKey) : α → α → Ordering := KeyOrder.lex (keys.map (byKey value))

/-- `r` has, where the keys tell `p` before `q`, a value comparable with neither, and stands
between `q` and `p` by the later keys. -/
def Misplaced : List OrderKey → α → α → α → Prop
  | [], _, _, _ => False
  | k :: ks, p, q, r =>
    (byKey value k p q = .lt ∧ Incomparable (keyValue value k p) (keyValue value k r) ∧
      Incomparable (keyValue value k q) (keyValue value k r) ∧ byKeys value ks q r ≠ .gt ∧ byKeys value ks r p ≠ .gt) ∨
    (byKey value k p q = .eq ∧ byKey value k p r = .eq ∧ byKey value k q r = .eq ∧ Misplaced ks p q r)

/-- NULLs stand where they are asked to among the rows tied on the keys before. -/
def NullsPlaced (keys : List OrderKey) (a b : α) : Prop :=
  ∀ before k after, keys = before ++ k :: after → byKeys value before a b = .eq →
    (keyValue value k a).isNull ≠ (keyValue value k b).isNull → (keyValue value k a).isNull = k.nullsFirst

/-- The comparison by the keys orders the rows, and the sort answers a stable arrangement in
that order, with the NULLs in place. -/
structure OrderedBy (keys : List OrderKey) (l : List α) : Prop where
  preorder : StableSort.Preorder (byKeys value keys) l
  sorts : ∃ r, StableSort.sortBy (orderKeyCmp value keys) l = .ok r ∧ StableSort.Sorts (byKeys value keys) l r ∧
    r.Pairwise (NullsPlaced value keys)

theorem byKeys_keys (keys : List OrderKey) : ∀ c ∈ keys.map (byKey value), KeyOrder.Key c := by
  intro c hc
  obtain ⟨k, -, rfl⟩ := List.mem_map.1 hc
  exact (orderCmp_key k.asc k.nullsFirst).comap (keyValue value k)

theorem misplaced_iff (keys : List OrderKey) (p q r : α) :
    KeyOrder.Straddled (keys.map (byKey value)) p q r ↔ Misplaced value keys p q r := by
  induction keys with
  | nil => rfl
  | cons k ks ih =>
    rw [List.map_cons, KeyOrder.Straddled, Misplaced, ih]
    refine or_congr (and_congr_right fun hpq => ?_) Iff.rfl
    rw [← and_assoc, byKey, byKey, tied_iff hpq, and_assoc]
    rfl

/-- The source's comparison is the one by the key values, when every key has one. -/
theorem orderKeyCmp_eq {keys : List OrderKey} {a b : α} (ha : ∀ k ∈ keys, ∃ v, value k.expr a = .ok v)
    (hb : ∀ k ∈ keys, ∃ v, value k.expr b = .ok v) : orderKeyCmp value keys a b = .ok (byKeys value keys a b) := by
  induction keys with
  | nil => rfl
  | cons k ks ih =>
    obtain ⟨v, hv⟩ := ha k List.mem_cons_self
    obtain ⟨w, hw⟩ := hb k List.mem_cons_self
    have hrest := ih (fun k hk => ha k (List.mem_cons_of_mem _ hk)) fun k hk => hb k (List.mem_cons_of_mem _ hk)
    have hkey : byKey value k a b = orderCmp v w k.asc k.nullsFirst := by rw [byKey, keyValue, keyValue, hv, hw]
    rw [orderKeyCmp, hv, hw, byKeys, List.map_cons, KeyOrder.lex, hkey]
    dsimp only [bind, Except.bind]
    cases orderCmp v w k.asc k.nullsFirst
    · rfl
    · exact hrest
    · rfl

theorem byKeys_nulls {keys : List OrderKey} {a b : α} (h : byKeys value keys a b ≠ .gt) : NullsPlaced value keys a b := by
  rintro before k after rfl htie hnull
  have hlex : byKeys value (before ++ k :: after) a b = (byKey value k a b).then (byKeys value after a b) := by
    rw [byKeys, List.map_append, KeyOrder.lex_append]
    change (byKeys value before a b).then _ = _
    rw [htie]
    rfl
  rw [hlex, byKey, orderCmp] at h
  cases ha : (keyValue value k a).isNull <;> cases hb : (keyValue value k b).isNull <;> cases hfirst : k.nullsFirst <;>
    simp_all

/-- **`ORDER BY`.** The keys order the rows, and the sort answers them in that order, exactly
when no row is misplaced among two others. -/
theorem order_by_iff {keys : List OrderKey} {l : List α} (hvalue : ∀ a ∈ l, ∀ k ∈ keys, ∃ v, value k.expr a = .ok v) :
    OrderedBy value keys l ↔ ∀ p ∈ l, ∀ q ∈ l, ∀ r ∈ l, ¬ Misplaced value keys p q r := by
  have htrans := KeyOrder.trans_iff (byKeys_keys value keys) l
  simp only [misplaced_iff] at htrans
  rw [← htrans]
  refine ⟨fun h => h.preorder.trans, fun h => ?_⟩
  have hpre : StableSort.Preorder (byKeys value keys) l :=
    ⟨fun a _ b _ => KeyOrder.lex_swap (byKeys_keys value keys) a b, h⟩
  obtain ⟨r, hr, hsorts⟩ := StableSort.sortBy_sorts
    (fun a ha b hb => orderKeyCmp_eq value (hvalue a ha) (hvalue b hb)) hpre
  refine ⟨hpre, r, hr, hsorts, hsorts.ordered.imp_of_mem fun ha hb hab => byKeys_nulls value ?_⟩
  exact (StableSort.ne_lt_iff hpre (hsorts.perm.mem_iff.1 ha) (hsorts.perm.mem_iff.1 hb)).1 hab

/-- Where the non-null values of each key are comparable, no row is misplaced. -/
theorem not_misplaced {keys : List OrderKey} {l : List α}
    (h : ∀ a ∈ l, ∀ b ∈ l, ∀ k ∈ keys, ¬ Incomparable (keyValue value k a) (keyValue value k b)) :
    ∀ p ∈ l, ∀ q ∈ l, ∀ r ∈ l, ¬ Misplaced value keys p q r := by
  intro p hp q hq r hr hmisplaced
  induction keys with
  | nil => exact hmisplaced
  | cons k ks ih =>
    rcases hmisplaced with ⟨-, hpr, -⟩ | ⟨-, -, -, hrest⟩
    · exact h p hp r hr k List.mem_cons_self hpr
    · exact ih (fun a ha b hb k hk => h a ha b hb k (List.mem_cons_of_mem _ hk)) hrest

end

/-- The value of an expression on a row of one column `name`. -/
def nameValue (e : Expr) (row : Row) : Res Value :=
  eval Env.bare e (EvalCtx.rel row [⟨none, "name", .text⟩] [])

def byName : List OrderKey := [⟨.column "name", true, false⟩]

theorem order_by_name : OrderedBy nameValue byName [[.text "b"], [.null], [.text "a"]] := by
  refine (order_by_iff nameValue fun a ha k hk => ?_).2 (not_misplaced nameValue (by decide))
  obtain rfl := List.mem_singleton.1 hk
  simp only [List.mem_cons, List.not_mem_nil, or_false] at ha
  rcases ha with rfl | rfl | rfl
  · exact ⟨.text "b", rfl⟩
  · exact ⟨.null, rfl⟩
  · exact ⟨.text "a", rfl⟩

/-- A blob ties with both texts, so the texts stay in the wrong order. -/
theorem order_by_mixed :
    StableSort.sortBy (orderKeyCmp nameValue byName) [[.text "b"], [.blob []], [.text "a"]] =
        .ok [[.text "b"], [.blob []], [.text "a"]] ∧
      byKeys nameValue byName [.text "a"] [.text "b"] = .lt ∧
      ¬ OrderedBy nameValue byName [[.text "b"], [.blob []], [.text "a"]] := by
  have hsort : StableSort.sortBy (orderKeyCmp nameValue byName) [[.text "b"], [.blob []], [.text "a"]] =
      .ok [[.text "b"], [.blob []], [.text "a"]] := by rfl
  have hlt : byKeys nameValue byName [.text "a"] [.text "b"] = .lt := by rfl
  refine ⟨hsort, hlt, fun h => ?_⟩
  obtain ⟨r, hr, hsorts, -⟩ := h.sorts
  obtain rfl := Except.ok.inj (hsort.symm.trans hr)
  have hfirst := (List.pairwise_cons.1 hsorts.ordered).1 [.text "a"] (by simp)
  exact hfirst hlt

end Twill
