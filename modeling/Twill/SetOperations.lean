/-
Set operations: how often a combined result holds a row, and which operands a
chain of them combines.

A query stands for a tree. `executed` is the one the executor evaluates, a chain taken from
the left over select cores; `written` is the one its text means, where an operand is a whole
query and `INTERSECT` binds tighter.
-/
import Twill.RowKeys
import Twill.SqlParser

namespace Twill

/-! ## Multiplicities -/

/-- How often SQL has a row in the result, from how often its operands have it. -/
def SetOp.multiplicity : SetOp → Bool → ℕ → ℕ → ℕ
  | .union, true, m, n => m + n
  | .union, false, m, n => if 0 < m + n then 1 else 0
  | .intersect, true, m, n => min m n
  | .intersect, false, m, n => if 0 < m ∧ 0 < n then 1 else 0
  | .except, true, m, n => m - n
  | .except, false, m, n => if 0 < m ∧ n = 0 then 1 else 0

/-- No two of the rows share a key. -/
def Keyed (P : Prims) (rows : List Row) : Prop := ∀ a ∈ rows, ∀ b ∈ rows, rowKey P a = rowKey P b → a = b

theorem foldl_keepFirst_nodup {α : Type} (key : α → String) (l : List α) {acc : List String × List α}
    (hkeys : ∀ b ∈ acc.2, key b ∈ acc.1) (hnodup : (acc.2.map key).Nodup) :
    ((l.foldl (keepFirst key) acc).2.map key).Nodup := by
  induction l generalizing acc with
  | nil => exact hnodup
  | cons a l ih =>
    rw [List.foldl_cons]
    by_cases hmet : acc.1.contains (key a) = true
    · have hstep : keepFirst key acc a = acc := by rw [keepFirst, if_pos hmet]
      rw [hstep]
      exact ih hkeys hnodup
    · have hstep : keepFirst key acc a = (key a :: acc.1, acc.2 ++ [a]) := by rw [keepFirst, if_neg hmet]
      rw [hstep]
      have hnew : key a ∉ acc.2.map key := by
        rintro hmem
        obtain ⟨b, hb, hkey⟩ := List.mem_map.1 hmem
        exact hmet (List.contains_iff_mem.2 (hkey ▸ hkeys b hb))
      refine ih (fun b hb => ?_) ?_
      · rcases List.mem_append.1 hb with hb | hb
        · exact List.mem_cons_of_mem _ (hkeys b hb)
        · rw [List.mem_singleton.1 hb]
          exact List.mem_cons_self
      · rw [List.map_append]
        exact hnodup.append (List.nodup_singleton _) (by simpa using hnew)

theorem nodup_dedupBy {α : Type} (key : α → String) (l : List α) : (dedupBy key l).Nodup :=
  List.Nodup.of_map key (foldl_keepFirst_nodup key l (by simp) (by simp))

variable {P : Prims}

/-- Without duplicates a row is there once, if at all. -/
theorem count_dedupRows {rows : List Row} (hkeyed : Keyed P rows) (x : Row) :
    (dedupRows P rows).count x = if x ∈ rows then 1 else 0 := by
  by_cases hx : x ∈ rows
  · obtain ⟨y, hy, hkey⟩ := exists_mem_dedupBy (rowKey P) hx
    obtain rfl := hkeyed y (mem_of_mem_dedupBy _ hy) x hx hkey
    rw [if_pos hx]
    exact List.count_eq_one_of_mem (nodup_dedupBy _ _) hy
  · rw [if_neg hx]
    exact List.count_eq_zero_of_not_mem fun h => hx (mem_of_mem_dedupBy _ h)

theorem count_map_rowKey {rows : List Row} {x : Row} (hx : ∀ a ∈ rows, rowKey P a = rowKey P x → a = x) :
    (rows.map (rowKey P)).count (rowKey P x) = rows.count x := by
  induction rows with
  | nil => rfl
  | cons a rows ih =>
    have hrest := ih fun b hb => hx b (List.mem_cons_of_mem a hb)
    rw [List.map_cons, List.count_cons, List.count_cons, hrest]
    congr 1
    by_cases ha : a = x
    · simp [ha]
    · have hkey : rowKey P a ≠ rowKey P x := fun h => ha (hx a List.mem_cons_self h)
      simp [ha, hkey]

/-- The left rows that find an occurrence on the right, and those that find none left. -/
theorem count_matchCounts {rows : List Row} {x : Row} (hx : ∀ a ∈ rows, rowKey P a = rowKey P x → a = x)
    (keys : List String) :
    (matchCounts P true rows keys).count x = min (rows.count x) (keys.count (rowKey P x)) ∧
      (matchCounts P false rows keys).count x = rows.count x - keys.count (rowKey P x) := by
  induction rows generalizing keys with
  | nil => simp [matchCounts]
  | cons a rows ih =>
    have ih := ih fun b hb => hx b (List.mem_cons_of_mem a hb)
    by_cases hfound : keys.contains (rowKey P a) = true
    · have hpos : 0 < keys.count (rowKey P a) := List.count_pos_iff.2 (List.contains_iff_mem.1 hfound)
      obtain ⟨hkeep, hdrop⟩ := ih (keys.erase (rowKey P a))
      simp only [matchCounts, if_pos hfound, if_true, Bool.false_eq_true, if_false]
      rw [hdrop, List.count_cons, List.count_cons, hkeep]
      by_cases ha : a = x
      · subst ha
        rw [List.count_erase_self]
        simp only [beq_self_eq_true, if_true]
        omega
      · have hkey : rowKey P x ≠ rowKey P a := fun h => ha (hx a List.mem_cons_self h.symm)
        rw [List.count_erase_of_ne hkey]
        simp [ha]
    · have hnone : keys.count (rowKey P a) = 0 :=
        List.count_eq_zero_of_not_mem fun h => hfound (List.contains_iff_mem.2 h)
      obtain ⟨hkeep, hdrop⟩ := ih keys
      simp only [matchCounts, if_neg hfound, if_true, Bool.false_eq_true, if_false]
      rw [hkeep, List.count_cons, List.count_cons, hdrop]
      by_cases ha : a = x
      · subst ha
        simp only [beq_self_eq_true, if_true]
        omega
      · simp [ha]

theorem mem_of_mem_matchCounts {keep : Bool} {rows : List Row} {keys : List String} {x : Row}
    (hx : x ∈ matchCounts P keep rows keys) : x ∈ rows := by
  induction rows generalizing keys with
  | nil => exact hx
  | cons a rows ih =>
    rw [matchCounts] at hx
    split at hx <;> split at hx
    · rcases List.mem_cons.1 hx with rfl | hx
      · exact List.mem_cons_self
      · exact List.mem_cons_of_mem a (ih hx)
    · exact List.mem_cons_of_mem a (ih hx)
    · exact List.mem_cons_of_mem a (ih hx)
    · rcases List.mem_cons.1 hx with rfl | hx
      · exact List.mem_cons_self
      · exact List.mem_cons_of_mem a (ih hx)

/-- The keys of the right rows, looked up for a row of the left. -/
theorem contains_rowKey {l r : List Row} (hkeyed : Keyed P (l ++ r)) {a : Row} (ha : a ∈ l) :
    (r.map (rowKey P)).contains (rowKey P a) = decide (a ∈ r) := by
  rw [Bool.eq_iff_iff, List.contains_iff_mem, decide_eq_true_iff, List.mem_map]
  constructor
  · rintro ⟨b, hb, hkey⟩
    obtain rfl := hkeyed b (List.mem_append_right l hb) a (List.mem_append_left r ha) hkey
    exact hb
  · exact fun h => ⟨a, h, rfl⟩

theorem Keyed.subset {l rows : List Row} (h : Keyed P rows) (hsub : ∀ a ∈ l, a ∈ rows) : Keyed P l :=
  fun a ha b hb => h a (hsub a ha) b (hsub b hb)

/-- **Rows are there as often as SQL says**, where no two of the rows share a key. -/
theorem count_combineSetOp {l r : ResultSet} (hcols : l.columns.length = r.columns.length)
    (hkeyed : Keyed P (l.rows ++ r.rows)) (op : SetOp) (all : Bool) :
    ∃ rs, combineSetOp P l r op all = .ok rs ∧
      ∀ x, rs.rows.count x = op.multiplicity all (l.rows.count x) (r.rows.count x) := by
  rw [combineSetOp, if_neg (not_not.2 hcols)]
  refine ⟨_, rfl, fun x => ?_⟩
  have hpos (rows : List Row) : 0 < rows.count x ↔ x ∈ rows := List.count_pos_iff
  have hzero (rows : List Row) : rows.count x = 0 ↔ x ∉ rows := List.count_eq_zero
  have hfilter (keep : Bool → Bool) : ∀ a, a ∈ l.rows.filter (fun a => keep ((r.rows.map (rowKey P)).contains (rowKey P a))) ↔
      a ∈ l.rows ∧ keep (decide (a ∈ r.rows)) = true := by
    intro a
    rw [List.mem_filter]
    exact and_congr_right fun ha => by rw [contains_rowKey hkeyed ha]
  have hmatch : (matchCounts P true l.rows (r.rows.map (rowKey P))).count x = min (l.rows.count x) (r.rows.count x) ∧
      (matchCounts P false l.rows (r.rows.map (rowKey P))).count x = l.rows.count x - r.rows.count x := by
    by_cases hx : x ∈ l.rows
    · have hmem := List.mem_append_left r.rows hx
      obtain ⟨hkeep, hdrop⟩ := count_matchCounts (P := P) (x := x)
        (fun a ha hkey => hkeyed a (List.mem_append_left _ ha) x hmem hkey) (r.rows.map (rowKey P))
      rw [hkeep, hdrop, count_map_rowKey fun a ha hkey => hkeyed a (List.mem_append_right _ ha) x hmem hkey]
      exact ⟨rfl, rfl⟩
    · rw [List.count_eq_zero_of_not_mem fun h => hx (mem_of_mem_matchCounts h),
        List.count_eq_zero_of_not_mem fun h => hx (mem_of_mem_matchCounts h), (hzero l.rows).2 hx]
      simp
  cases op with
  | union => cases all with
    | true => exact List.count_append
    | false =>
      change (dedupRows P (l.rows ++ r.rows)).count x = if 0 < l.rows.count x + r.rows.count x then 1 else 0
      rw [count_dedupRows hkeyed, ← List.count_append]
      exact if_congr (hpos _).symm rfl rfl
  | intersect => cases all with
    | true => exact hmatch.1
    | false =>
      have hmem : ∀ a, a ∈ l.rows.filter (fun a => (r.rows.map (rowKey P)).contains (rowKey P a)) ↔
          a ∈ l.rows ∧ a ∈ r.rows := fun a => (hfilter id a).trans (by simp)
      change (dedupRows P (l.rows.filter fun a => (r.rows.map (rowKey P)).contains (rowKey P a))).count x =
        if 0 < l.rows.count x ∧ 0 < r.rows.count x then 1 else 0
      rw [count_dedupRows (hkeyed.subset fun a ha => List.mem_append_left _ ((hmem a).1 ha).1)]
      refine if_congr ?_ rfl rfl
      rw [hmem x, hpos, hpos]
  | except => cases all with
    | true => exact hmatch.2
    | false =>
      have hmem := hfilter not
      change (dedupRows P (l.rows.filter fun a => !(r.rows.map (rowKey P)).contains (rowKey P a))).count x =
        if 0 < l.rows.count x ∧ r.rows.count x = 0 then 1 else 0
      rw [count_dedupRows (hkeyed.subset fun a ha => List.mem_append_left _ ((hmem a).1 ha).1)]
      refine if_congr ?_ rfl rfl
      rw [hmem x, hpos, hzero]
      simp

/-! ## The tree a query stands for -/

inductive SetTree where
  /-- A select core, with its `ORDER BY` and `LIMIT` or without. -/
  | core (query : SelectStmt) (tail : Bool)
  | combine (op : SetOp) (all : Bool) (left right : SetTree)
  /-- What a query puts around its chain: its `WITH` before and its `ORDER BY` and `LIMIT` after. -/
  | within (query : SelectStmt) (body : SetTree)

namespace SetTree

def eval (E : Env) (sc : Scan) (rq : RunQuery) : Ctes → SetTree → Res ResultSet
  | ctes, .core query tail => evalCore E sc rq ctes tail query
  | ctes, .combine op all left right => do
    let lhs ← eval E sc rq ctes left
    let rhs ← eval E sc rq ctes right
    combineSetOp E.prims lhs rhs op all
  | ctes, .within query body => do
    let ctes ← query.with_.foldlM (fun (ctes : Ctes) cte => do
      let rs ← rq cte.query
      return ctes.insert (toAsciiLowercase cte.name) (relationFromResult cte.name rs)) ctes
    let rs ← eval E sc rq ctes body
    if query.setOps.isEmpty then return rs else applyOutputOrderLimit E rs query sc.params

/-- An operand of a chain, with the operator before it. -/
abbrev Arm := SetOp × Bool × SetTree

/-- A chain combined from the left, whatever the operators are. -/
def fromLeft (first : SetTree) (arms : List Arm) : SetTree :=
  arms.foldl (fun acc arm => .combine arm.1 arm.2.1 acc arm.2.2) first

/-- The union or difference that waits for the intersections after it. -/
def finish (waiting : Option (SetTree × SetOp × Bool)) (t : SetTree) : SetTree := match waiting with
  | none => t
  | some (left, op, all) => .combine op all left t

/-- A chain as SQL groups it: `INTERSECT` first, the others from the left. -/
def grouped : Option (SetTree × SetOp × Bool) → SetTree → List Arm → SetTree
  | waiting, t, [] => finish waiting t
  | waiting, t, (.intersect, all, right) :: arms => grouped waiting (.combine .intersect all t right) arms
  | waiting, t, (op, all, right) :: arms => grouped (some (finish waiting t, op, all)) right arms

end SetTree

/-- A query that is no more than a select core with its `ORDER BY` and `LIMIT`. -/
def SelectStmt.plain (sel : SelectStmt) : Bool := sel.with_.isEmpty && sel.setOps.isEmpty

open Cursor.Parser SqlParser in
/-- An operand without parentheses is no more than that. -/
theorem setOpPart_plain {R : Rules} {op : SetOp} {ts ts' : Toks} {s s' : Numbering} {part : SetOpPart}
    (h : setOpPart R op ts s = .ok (part, ts', s')) :
    part.query.plain = true ∨ ∃ us t, queryClosed R us t = .ok (part.query, ts', s') := by
  obtain ⟨all, ts₁, s₁, -, h⟩ := bind_eq_ok.1 h
  obtain ⟨-, ts₂, s₂, -, h⟩ := bind_eq_ok.1 h
  obtain ⟨paren, ts₃, s₃, -, h⟩ := bind_eq_ok.1 h
  cases paren with
  | true =>
    obtain ⟨query, ts₄, s₄, hquery, h⟩ := bind_eq_ok.1 h
    cases h
    exact .inr ⟨ts₃, s₃, hquery⟩
  | false =>
    obtain ⟨query, ts₄, s₄, hquery, h⟩ := bind_eq_ok.1 h
    cases h
    obtain ⟨-, ts₁, s₁, -, h⟩ := bind_eq_ok.1 hquery
    obtain ⟨-, ts₁, s₁, -, h⟩ := bind_eq_ok.1 h
    obtain ⟨distinct, ts₁, s₁, -, h⟩ := bind_eq_ok.1 h
    obtain ⟨items, ts₁, s₁, -, h⟩ := bind_eq_ok.1 h
    obtain ⟨from_, ts₁, s₁, -, h⟩ := bind_eq_ok.1 h
    obtain ⟨filter, ts₁, s₁, -, h⟩ := bind_eq_ok.1 h
    obtain ⟨groupBy, ts₁, s₁, -, h⟩ := bind_eq_ok.1 h
    obtain ⟨having, ts₁, s₁, -, h⟩ := bind_eq_ok.1 h
    cases h
    exact .inl rfl

/-- What the executor evaluates: of an operand, its core. -/
def SelectStmt.executed (sel : SelectStmt) : SetTree :=
  .within sel (if sel.setOps.isEmpty then .core sel true
    else .fromLeft (.core sel false) (sel.setOps.map fun part => (part.op, part.all, .core part.query true)))

mutual

/-- What the text means. -/
def SelectStmt.written : SelectStmt → SetTree
  | ⟨with_, distinct, items, from_, filter, groupBy, having, setOps, orderBy, limit, offset⟩ =>
    let sel : SelectStmt := ⟨with_, distinct, items, from_, filter, groupBy, having, setOps, orderBy, limit, offset⟩
    .within sel (if setOps.isEmpty then .core sel true else .grouped none (.core sel false) (writtenArms setOps))

def writtenArms : List SetOpPart → List SetTree.Arm
  | [] => []
  | ⟨op, all, query⟩ :: parts =>
    (op, all, if query.plain then .core query true else query.written) :: writtenArms parts

end

/-- No operand is more than a select core, and no `INTERSECT` comes after a `UNION` or `EXCEPT`. -/
def SelectStmt.AsWritten (sel : SelectStmt) : Prop :=
  (∀ part ∈ sel.setOps, part.query.plain = true) ∧
    (sel.setOps.map (·.op)).Pairwise fun a b => b = .intersect → a = .intersect

namespace SetTree

/-- Nothing but a core is combined on the right. -/
def RightCores : SetTree → Prop
  | .combine _ _ left right => RightCores left ∧ ∃ query tail, right = .core query tail
  | _ => True

def Arm.IsCore (arm : Arm) : Prop := ∃ query tail, arm.2.2 = .core query tail

theorem rightCores_fromLeft {arms : List Arm} (harms : ∀ arm ∈ arms, Arm.IsCore arm) {t : SetTree} (ht : RightCores t) :
    RightCores (fromLeft t arms) := by
  induction arms generalizing t with
  | nil => exact ht
  | cons arm arms ih =>
    exact ih (fun a ha => harms a (List.mem_cons_of_mem arm ha)) ⟨ht, harms arm List.mem_cons_self⟩

/-- Where only cores are combined on the right, no intersection was grouped with what came
before a union or a difference. -/
theorem of_rightCores_grouped {arms : List Arm} {waiting : Option (SetTree × SetOp × Bool)} {t : SetTree}
    (h : RightCores (grouped waiting t arms)) :
    (∀ arm ∈ arms, Arm.IsCore arm) ∧ (arms.map (·.1)).Pairwise (fun a b => b = .intersect → a = .intersect) ∧
      RightCores (finish waiting t) ∧ (waiting.isSome → ∀ arm ∈ arms, arm.1 ≠ .intersect) := by
  induction arms generalizing waiting t with
  | nil => exact ⟨by simp, by simp, h, by simp⟩
  | cons arm arms ih =>
    obtain ⟨op, all, right⟩ := arm
    have hother (hop : op ≠ .intersect) (h : RightCores (grouped (some (finish waiting t, op, all)) right arms)) :
        (∀ arm ∈ (op, all, right) :: arms, Arm.IsCore arm) ∧
          (((op, all, right) :: arms).map (·.1)).Pairwise (fun a b => b = .intersect → a = .intersect) ∧
          RightCores (finish waiting t) ∧ (waiting.isSome → ∀ arm ∈ (op, all, right) :: arms, arm.1 ≠ .intersect) := by
      obtain ⟨hcores, hlate, ⟨hfinish, hright⟩, hnone⟩ := ih h
      have hnone := hnone rfl
      refine ⟨List.forall_mem_cons.2 ⟨hright, hcores⟩, ?_, hfinish, fun _ => List.forall_mem_cons.2 ⟨hop, hnone⟩⟩
      rw [List.map_cons, List.pairwise_cons]
      refine ⟨fun b hb hb' => ?_, hlate⟩
      obtain ⟨arm, harm, rfl⟩ := List.mem_map.1 hb
      exact absurd hb' (hnone arm harm)
    cases op with
    | union => exact hother (by decide) h
    | except => exact hother (by decide) h
    | intersect =>
      obtain ⟨hcores, hlate, hfinish, hnone⟩ := ih (t := .combine .intersect all t right) h
      cases waiting with
      | some w =>
        obtain ⟨-, query, tail, habsurd⟩ := hfinish
        cases habsurd
      | none =>
        refine ⟨List.forall_mem_cons.2 ⟨hfinish.2, hcores⟩, ?_, hfinish.1, by simp⟩
        rw [List.map_cons, List.pairwise_cons]
        exact ⟨fun b _ _ => rfl, hlate⟩

/-- Without an intersection to come, what waits is combined in its turn. -/
theorem grouped_some {arms : List Arm} (hnone : ∀ arm ∈ arms, arm.1 ≠ .intersect) (left : SetTree) (op : SetOp)
    (all : Bool) (t : SetTree) : grouped (some (left, op, all)) t arms = fromLeft (.combine op all left t) arms := by
  induction arms generalizing left op all t with
  | nil => rfl
  | cons arm arms ih =>
    obtain ⟨op', all', right⟩ := arm
    have ih := ih fun a ha => hnone a (List.mem_cons_of_mem _ ha)
    cases op' with
    | union => exact ih _ _ _ _
    | except => exact ih _ _ _ _
    | intersect => exact absurd rfl (hnone _ List.mem_cons_self)

theorem grouped_none {arms : List Arm} (hlate : (arms.map (·.1)).Pairwise fun a b => b = .intersect → a = .intersect)
    (t : SetTree) : grouped none t arms = fromLeft t arms := by
  induction arms generalizing t with
  | nil => rfl
  | cons arm arms ih =>
    obtain ⟨op, all, right⟩ := arm
    rw [List.map_cons, List.pairwise_cons] at hlate
    have hnone (hop : op ≠ .intersect) : ∀ arm ∈ arms, arm.1 ≠ .intersect := fun arm harm heq =>
      hop (hlate.1 arm.1 (List.mem_map.2 ⟨arm, harm, rfl⟩) heq)
    cases op with
    | union => exact grouped_some (hnone (by decide)) _ _ _ _
    | except => exact grouped_some (hnone (by decide)) _ _ _ _
    | intersect => exact ih hlate.2 _

end SetTree

open SetTree

theorem map_ops_writtenArms (parts : List SetOpPart) : (writtenArms parts).map (·.1) = parts.map (·.op) := by
  induction parts with
  | nil => rfl
  | cons part parts ih =>
    obtain ⟨op, all, query⟩ := part
    rw [writtenArms, List.map_cons, ih]
    rfl

theorem writtenArms_plain {parts : List SetOpPart} (h : ∀ part ∈ parts, part.query.plain = true) :
    writtenArms parts = parts.map fun part => (part.op, part.all, .core part.query true) := by
  induction parts with
  | nil => rfl
  | cons part parts ih =>
    obtain ⟨op, all, query⟩ := part
    have hplain : query.plain = true := h _ List.mem_cons_self
    rw [writtenArms, if_pos hplain, ih fun part hpart => h part (List.mem_cons_of_mem _ hpart)]
    rfl

theorem plain_of_isCore {parts : List SetOpPart} (h : ∀ arm ∈ writtenArms parts, Arm.IsCore arm) :
    ∀ part ∈ parts, part.query.plain = true := by
  induction parts with
  | nil => simp
  | cons part parts ih =>
    obtain ⟨op, all, query⟩ := part
    rw [writtenArms] at h
    obtain ⟨hfirst, hrest⟩ := List.forall_mem_cons.1 h
    refine List.forall_mem_cons.2 ⟨?_, ih hrest⟩
    by_contra hplain
    obtain ⟨q, tail, heq⟩ := hfirst
    have hwhole : query.written = .core q tail := by
      rw [← heq]
      exact (if_neg hplain).symm
    obtain ⟨with_, distinct, items, from_, filter, groupBy, having, setOps, orderBy, limit, offset⟩ := query
    rw [SelectStmt.written] at hwhole
    cases hwhole

theorem written_eq (sel : SelectStmt) : sel.written =
    .within sel (if sel.setOps.isEmpty then .core sel true else grouped none (.core sel false) (writtenArms sel.setOps)) := by
  obtain ⟨with_, distinct, items, from_, filter, groupBy, having, setOps, orderBy, limit, offset⟩ := sel
  rw [SelectStmt.written]

/-- **The executor combines the operands that are written** exactly when they are select cores
and no intersection comes late. -/
theorem executed_eq_written (sel : SelectStmt) : sel.executed = sel.written ↔ sel.AsWritten := by
  rw [SelectStmt.executed, written_eq, SetTree.within.injEq]
  by_cases hempty : sel.setOps.isEmpty = true
  · rw [if_pos hempty, if_pos hempty, SelectStmt.AsWritten, List.isEmpty_iff.1 hempty]
    simp
  · rw [if_neg hempty, if_neg hempty]
    constructor
    · rintro ⟨-, heq⟩
      have hcores : RightCores (grouped none (.core sel false) (writtenArms sel.setOps)) := by
        rw [← heq]
        refine rightCores_fromLeft (fun arm harm => ?_) trivial
        obtain ⟨part, -, rfl⟩ := List.mem_map.1 harm
        exact ⟨part.query, true, rfl⟩
      obtain ⟨hcore, hlate, -⟩ := of_rightCores_grouped hcores
      rw [map_ops_writtenArms] at hlate
      exact ⟨plain_of_isCore hcore, hlate⟩
    · rintro ⟨hplain, hlate⟩
      rw [← map_ops_writtenArms] at hlate
      rw [grouped_none hlate, writtenArms_plain hplain]
      exact ⟨rfl, rfl⟩

/-! ## Runs -/

section

variable {E : Env} {sc : Scan} {rq : RunQuery}

theorem eval_fromLeft (ctes : Ctes) (parts : List SetOpPart) (t : SetTree) :
    SetTree.eval E sc rq ctes (fromLeft t (parts.map fun part => (part.op, part.all, .core part.query true))) =
      (SetTree.eval E sc rq ctes t >>= fun acc => parts.foldlM (fun acc part => do
        let rhs ← evalCore E sc rq ctes true part.query
        combineSetOp E.prims acc rhs part.op part.all) acc) := by
  induction parts generalizing t with
  | nil => exact (bind_pure (SetTree.eval E sc rq ctes t)).symm
  | cons part parts ih =>
    rw [List.map_cons, fromLeft, List.foldl_cons]
    refine (ih _).trans ?_
    simp only [SetTree.eval, List.foldlM_cons, bind_assoc]

/-- A query runs as the tree the executor takes it for. -/
theorem runQuery_eq_executed (fuel : ℕ) (sel : SelectStmt) :
    runQuery E sc (fuel + 1) sel = sel.executed.eval E sc (runQuery E sc fuel) ∅ := by
  rw [runQuery, queryStep, SelectStmt.executed, SetTree.eval]
  refine Except.bind_congr_ok fun ctes _ => ?_
  by_cases hempty : sel.setOps.isEmpty = true
  · simp only [hempty, if_true, SetTree.eval, bind_pure]
  · simp only [hempty, Bool.false_eq_true, if_false, eval_fromLeft, SetTree.eval, bind_assoc]

/-- **Set operations**: the multiplicities, the operands of a query, and what a query answers. -/
theorem set_operations (E : Env) (sc : Scan) (fuel : ℕ) (sel : SelectStmt) {l r : ResultSet}
    (hcols : l.columns.length = r.columns.length) (hkeyed : Keyed E.prims (l.rows ++ r.rows)) (op : SetOp) (all : Bool) :
    (∃ rs, combineSetOp E.prims l r op all = .ok rs ∧
      ∀ x, rs.rows.count x = op.multiplicity all (l.rows.count x) (r.rows.count x)) ∧
    (sel.executed = sel.written ↔ sel.AsWritten) ∧
    runQuery E sc (fuel + 1) sel = sel.executed.eval E sc (runQuery E sc fuel) ∅ ∧
    (sel.AsWritten → runQuery E sc (fuel + 1) sel = sel.written.eval E sc (runQuery E sc fuel) ∅) :=
  ⟨count_combineSetOp hcols hkeyed op all, executed_eq_written sel, runQuery_eq_executed fuel sel,
    fun h => (runQuery_eq_executed fuel sel).trans (by rw [(executed_eq_written sel).2 h])⟩

end

/-- A scan of a database without relations. -/
def noTables : Scan := ⟨fun _ => none, fun _ _ => .error .fuel, []⟩

/-- `SELECT n`. -/
def selectInt (n : Int64) : SelectStmt := ⟨[], false, [.expr (.int n) none], none, none, [], none, [], [], none, none⟩

/-- `SELECT 1 EXCEPT ALL SELECT 2`, and the difference of two ones and one. -/
theorem set_operations_except :
    (∃ rs, combineSetOp Env.bare.prims ⟨["n"], [.integer], [[.int 1], [.int 1]]⟩ ⟨["n"], [.integer], [[.int 1]]⟩ .except
        true = .ok rs ∧ ∀ x, rs.rows.count x = SetOp.except.multiplicity true (List.count x [[.int 1], [.int 1]])
          (List.count x [[.int 1]])) ∧
    runQuery Env.bare noTables 2 { selectInt 1 with setOps := [⟨.except, true, selectInt 2⟩] } =
      (SelectStmt.written { selectInt 1 with setOps := [⟨.except, true, selectInt 2⟩] }).eval Env.bare noTables
        (runQuery Env.bare noTables 1) ∅ := by
  obtain ⟨hcount, -, -, hrun⟩ := set_operations Env.bare noTables 1
    { selectInt 1 with setOps := [⟨.except, true, selectInt 2⟩] } (l := ⟨["n"], [.integer], [[.int 1], [.int 1]]⟩)
    (r := ⟨["n"], [.integer], [[.int 1]]⟩) rfl (by
      intro a ha b hb _
      simp only [List.cons_append, List.nil_append, List.mem_cons, List.not_mem_nil, or_false, or_self] at ha hb
      rw [ha, hb]) .except true
  refine ⟨hcount, hrun ⟨?_, by simp⟩⟩
  simp [SelectStmt.plain, selectInt]

/-- What the executor answers to a query's text, and what the text means. -/
def answers (sql : List Char) : Option (List Row × List Row) := do
  let sel ← (SqlParser.parseQuery sql).toOption
  let executed ← (runQuery Env.bare noTables 2 sel).toOption
  let written ← (sel.written.eval Env.bare noTables (runQuery Env.bare noTables 1) ∅).toOption
  return (executed.rows, written.rows)

/-- A parenthesised operand loses all but its core, and an intersection takes in the union before it. -/
theorem set_operations_lost :
    answers "SELECT 1 UNION (SELECT 2 UNION SELECT 3)".toList =
      some ([[.int 1], [.int 2]], [[.int 1], [.int 2], [.int 3]]) ∧
    answers "SELECT 1 UNION SELECT 2 INTERSECT SELECT 2".toList = some ([[.int 2]], [[.int 1], [.int 2]]) := by
  decide +kernel

end Twill
