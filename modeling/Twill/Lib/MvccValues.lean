/-
A property of what the versions hold: only an insert brings a new value in, so a
property of every inserted value is one of every version, whatever else is done to
the rows.
-/
import Twill.Lib.MvccFacts

universe u

namespace Mvcc.Rows

variable {α : Type u} {p q : α → Prop} {rows : Rows α} {ops : List (Op α)}

/-- Every version holds a value with the property. -/
def Each (p : α → Prop) (rows : Rows α) : Prop := ∀ r ∈ rows, p r.values

/-- So does every insert among the operations. -/
def EachInsert (p : α → Prop) (ops : List (Op α)) : Prop := ∀ vid a, Op.insert vid a ∈ ops → p a

theorem Each.mono (h : Each p rows) (hpq : ∀ a, p a → q a) : Each q rows := fun r hr => hpq _ (h r hr)

theorem Each.append {rows' : Rows α} (h : Each p rows) (h' : Each p rows') : Each p (rows ++ rows') := fun r hr =>
  (List.mem_append.1 hr).elim (h r) (h' r)

theorem Each.map (h : Each p rows) {g : Version α → Version α} (hg : ∀ r, (g r).values = r.values) :
    Each p (List.map g rows) := by
  intro r hr
  obtain ⟨r', hr', rfl⟩ := List.mem_map.1 hr
  rw [hg]
  exact h r' hr'

theorem Each.filter (h : Each p rows) (f : Version α → Bool) : Each p (List.filter f rows) :=
  fun r hr => h r (List.mem_filter.1 hr).1

theorem Each.modifyFirst (h : Each p rows) (f : Version α → Bool) {g : Version α → Version α}
    (hg : ∀ r, (g r).values = r.values) : Each p (Mvcc.modifyFirst f g rows) := by
  intro r hr
  have hmem : r.values ∈ (Mvcc.modifyFirst f g rows).map Version.values := List.mem_map_of_mem hr
  rw [map_modifyFirst hg] at hmem
  obtain ⟨r', hr', heq⟩ := List.mem_map.1 hmem
  rw [← heq]
  exact h r' hr'

theorem EachInsert.cons {op : Op α} (h : EachInsert p (op :: ops)) : EachInsert p [op] ∧ EachInsert p ops :=
  ⟨fun vid a ha => h vid a (by rw [List.mem_singleton.1 ha]; exact List.mem_cons_self),
    fun vid a ha => h vid a (List.mem_cons_of_mem _ ha)⟩

theorem Each.pend (h : Each p rows) (me : Nat) {op : Op α} (hop : EachInsert p [op]) : Each p (rows.pend me op) := by
  cases op with
  | insert vid a =>
    refine Each.append h fun r hr => ?_
    obtain rfl := List.mem_singleton.1 hr
    exact hop vid a List.mem_cons_self
  | delete vid => exact h.modifyFirst _ fun _ => Version.values_pendDelete

theorem Each.commit (h : Each p rows) (c : Nat) {op : Op α} (hop : EachInsert p [op]) : Each p (rows.commit c op) := by
  cases op with
  | insert vid a =>
    refine Each.append h fun r hr => ?_
    obtain rfl := List.mem_singleton.1 hr
    exact hop vid a List.mem_cons_self
  | delete vid => exact h.modifyFirst _ fun _ => rfl

theorem Each.pendAll (h : Each p rows) (me : Nat) (hops : EachInsert p ops) : Each p (rows.pendAll me ops) := by
  induction ops generalizing rows with
  | nil => exact h
  | cons op ops ih => exact ih (h.pend me hops.cons.1) hops.cons.2

theorem Each.commitAll (h : Each p rows) (c : Nat) (hops : EachInsert p ops) : Each p (rows.commitAll c ops) := by
  induction ops generalizing rows with
  | nil => exact h
  | cons op ops ih => exact ih (h.commit c hops.cons.1) hops.cons.2

theorem Each.finalizeAll (h : Each p rows) (commits : List (Nat × Nat)) : Each p (rows.finalizeAll commits) := by
  induction commits generalizing rows with
  | nil => exact h
  | cons c commits ih => exact ih (h.map fun _ => Version.values_finalize)

theorem Each.rollbackTo (h : Each p rows) (me : Nat) (inserted deleted : List Nat) :
    Each p (rows.rollbackTo me inserted deleted) :=
  (h.filter _).map fun _ => Version.values_undeleteTo deleted

theorem Each.rollback (h : Each p rows) (me : Nat) : Each p (rows.rollback me) := by
  rw [rollback_eq]
  exact h.rollbackTo me [] []

theorem Each.rollbackAll (h : Each p rows) (owners : List Nat) : Each p (rows.rollbackAll owners) := by
  induction owners generalizing rows with
  | nil => exact h
  | cons o owners ih => exact ih (h.rollback o)

end Mvcc.Rows
