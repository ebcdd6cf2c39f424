/-
How values compare (`value.rs`: `numeric`, `sql_cmp`, `sql_eq`).

Two integers compare as the numbers they become, so what is exact about their comparison is
what rounding to a significand of 53 bits keeps.
-/
import Twill.Eval
import Twill.Lib.Binary64

namespace Twill

open Binary64 (nearestInt)

/-! ## Integers -/

theorem log2_int64 (a : Int64) : a.toInt.natAbs.log2 ≤ 900 := by
  have hlow := a.le_toInt
  have hhigh := a.toInt_lt
  have habs : a.toInt.natAbs < 2 ^ 64 := by omega
  rcases Nat.eq_zero_or_pos a.toInt.natAbs with hzero | hpos
  · simp [hzero]
  · have := (Nat.log2_lt hpos.ne').2 habs
    omega

theorem unpack_asF64 (a : Int64) :
    (asF64 a).toModel.unpack = Float.Model.UnpackedFloat.ofInt Float.Model.Format.binary64 a.toInt :=
  Binary64.unpack_ofInt (log2_int64 a)

theorem asF64_ne_nan (a : Int64) : (asF64 a).toModel.unpack ≠ .notANumber := by
  rw [unpack_asF64]
  exact Binary64.ofInt_ne_nan (log2_int64 a)

theorem partialCmp_eq (x y : Float) : Value.partialCmp x y = x.toModel.unpack.compare y.toModel.unpack :=
  Binary64.partial_compare x y

/-- **Two integers compare after rounding.** -/
theorem sqlCmp_int (a b : Int64) :
    Value.sqlCmp (.int a) (.int b) = some (compare (nearestInt a.toInt) (nearestInt b.toInt)) := by
  have hcmp : Value.sqlCmp (.int a) (.int b) = Value.partialCmp (asF64 a) (asF64 b) := by
    simp [Value.sqlCmp, Value.isNull, Value.numeric]
  rw [hcmp, partialCmp_eq, Binary64.compare_eq_rank (asF64_ne_nan a) (asF64_ne_nan b), unpack_asF64, unpack_asF64,
    Binary64.compare_rank_ofInt (log2_int64 a) (log2_int64 b)]

theorem sqlEq_int (a b : Int64) :
    Value.sqlEq (.int a) (.int b) = some (compare (nearestInt a.toInt) (nearestInt b.toInt) == .eq) := by
  have hnull : ((Value.int a).isNull || (Value.int b).isNull) = false := rfl
  rw [Value.sqlEq, hnull, if_neg Bool.false_ne_true, sqlCmp_int]

theorem valueKey_int (P : Prims) (a b : Int64) : valueKey P (.int a) = valueKey P (.int b) ↔ a = b := by
  refine ⟨fun h => ?_, fun h => by rw [h]⟩
  have hlist := congrArg String.toList h
  simp only [valueKey, String.toList_append, List.append_cancel_left_eq] at hlist
  exact Int64.toInt_inj.1 (Int.repr_injective (String.toList_inj.1 hlist))

/-- Two integers compare as integers, and are equal to `=` exactly when they are to keys. -/
structure ExactlyCompared (P : Prims) (a b : Int64) : Prop where
  cmp : Value.sqlCmp (.int a) (.int b) = some (compare a.toInt b.toInt)
  eq : Value.sqlEq (.int a) (.int b) = some true ↔ valueKey P (.int a) = valueKey P (.int b)

/-- **Exact comparison.** Two integers compare exactly unless they are different and round to
the same significand of 53 bits. -/
theorem int_compare_exact_iff (P : Prims) (a b : Int64) :
    ExactlyCompared P a b ↔ a = b ∨ nearestInt a.toInt ≠ nearestInt b.toInt := by
  constructor
  · intro h
    by_cases hround : nearestInt a.toInt = nearestInt b.toInt
    · have hcmp := h.cmp
      rw [sqlCmp_int, hround, Option.some.injEq, compare_eq_iff_eq.2 rfl, eq_comm, compare_eq_iff_eq] at hcmp
      exact .inl (Int64.toInt_inj.1 hcmp)
    · exact .inr hround
  · intro h
    have hcompare : compare (nearestInt a.toInt) (nearestInt b.toInt) = compare a.toInt b.toInt := by
      rcases lt_trichotomy a.toInt b.toInt with hlt | heq | hgt
      · have hne : nearestInt a.toInt ≠ nearestInt b.toInt := h.resolve_left (by rintro rfl; exact lt_irrefl _ hlt)
        rw [compare_lt_iff_lt.2 hlt, compare_lt_iff_lt.2 (lt_of_le_of_ne (Binary64.nearestInt_mono hlt.le) hne)]
      · rw [heq, compare_eq_iff_eq.2 rfl, compare_eq_iff_eq.2 rfl]
      · have hne : nearestInt a.toInt ≠ nearestInt b.toInt := h.resolve_left (by rintro rfl; exact lt_irrefl _ hgt)
        rw [compare_gt_iff_gt.2 hgt, compare_gt_iff_gt.2 (lt_of_le_of_ne (Binary64.nearestInt_mono hgt.le) hne.symm)]
    refine ⟨by rw [sqlCmp_int, hcompare], ?_⟩
    rw [sqlEq_int, hcompare, valueKey_int]
    simp [Int64.toInt_inj]

/-- Integers of at most 53 bits are compared exactly. -/
theorem exact_of_le (a b : Int64) (ha : a.toInt.natAbs ≤ 2 ^ 53) (hb : b.toInt.natAbs ≤ 2 ^ 53) :
    a = b ∨ nearestInt a.toInt ≠ nearestInt b.toInt := by
  rw [Binary64.nearestInt_of_le ha, Binary64.nearestInt_of_le hb, Ne, Int64.toInt_inj]
  exact Classical.em _

/-- Two integers that `=` takes for equal and keys tell apart. -/
theorem int_compare_inexact :
    Value.sqlCmp (.int 9007199254740992) (.int 9007199254740993) = some .eq ∧
      Value.sqlEq (.int 9007199254740992) (.int 9007199254740993) = some true ∧
      valueKey Env.bare.prims (.int 9007199254740992) ≠ valueKey Env.bare.prims (.int 9007199254740993) ∧
      ¬ ExactlyCompared Env.bare.prims 9007199254740992 9007199254740993 := by
  have hround : compare (nearestInt (9007199254740992 : Int64).toInt) (nearestInt (9007199254740993 : Int64).toInt) = .eq := by
    decide
  have hcmp := sqlCmp_int 9007199254740992 9007199254740993
  have heq := sqlEq_int 9007199254740992 9007199254740993
  rw [hround] at hcmp heq
  have hne : (9007199254740992 : Int64) ≠ 9007199254740993 := by decide
  refine ⟨hcmp, heq, fun hkey => hne ((valueKey_int _ _ _).1 hkey), fun h => ?_⟩
  exact hne ((valueKey_int _ _ _).1 (h.eq.1 heq))

/-! ## Values of one class -/

/-- Where a value stands among those of its class. -/
inductive Place where
  | number (rank : ℤ ×ₗ ℤ ×ₗ ℤ)
  | text (s : String)
  | blob (b : List UInt8)

def Place.ofFloat (x : Float) : Option Place := match x.toModel.unpack with
  | .notANumber => none
  | u => some (.number (Binary64.rank u))

/-- NULL, NaN and vectors stand nowhere. -/
def Value.place : Value → Option Place
  | .int i => Place.ofFloat (asF64 i)
  | .real b => Place.ofFloat (Float.ofBits b)
  | .text s => some (.text s)
  | .blob b => some (.blob b)
  | _ => none

def Place.cmp : Place → Place → Option Ordering
  | .number x, .number y => some (compare x y)
  | .text s, .text t => some (compare s t)
  | .blob s, .blob t => some (compare s t)
  | _, _ => none

@[simp] theorem Place.cmp_number (x y : ℤ ×ₗ ℤ ×ₗ ℤ) : (Place.number x).cmp (.number y) = some (compare x y) := rfl

@[simp] theorem Place.cmp_text (s t : String) : (Place.text s).cmp (.text t) = some (compare s t) := rfl

@[simp] theorem Place.cmp_blob (s t : List UInt8) : (Place.blob s).cmp (.blob t) = some (compare s t) := rfl

@[simp] theorem Place.cmp_text_blob (s : String) (t : List UInt8) : (Place.text s).cmp (.blob t) = none := rfl

@[simp] theorem Place.cmp_blob_text (s : List UInt8) (t : String) : (Place.blob s).cmp (.text t) = none := rfl

theorem ofFloat_eq (x : Float) : (Place.ofFloat x = none ∧ x.toModel.unpack = .notANumber) ∨
    (Place.ofFloat x = some (.number (Binary64.rank x.toModel.unpack)) ∧ x.toModel.unpack ≠ .notANumber) := by
  unfold Place.ofFloat
  cases x.toModel.unpack <;> simp

theorem partialCmp_eq_place (x y : Float) : Value.partialCmp x y =
    (Place.ofFloat x).bind fun p => (Place.ofFloat y).bind p.cmp := by
  rw [partialCmp_eq]
  rcases ofFloat_eq x with ⟨hx, hnan⟩ | ⟨hx, hnan⟩
  · rw [hx, hnan]
    rfl
  · rcases ofFloat_eq y with ⟨hy, hnan'⟩ | ⟨hy, hnan'⟩
    · rw [hx, hy, hnan', Binary64.compare_nan_right]
      rfl
    · rw [hx, hy, Binary64.compare_eq_rank hnan hnan']
      rfl

theorem ofFloat_cmp (x : Float) {p : Place} (hp : ∀ r, p.cmp (.number r) = none ∧ (Place.number r).cmp p = none) :
    ((Place.ofFloat x).bind fun q => q.cmp p) = none ∧ (Place.ofFloat x).bind p.cmp = none := by
  rcases ofFloat_eq x with ⟨hx, -⟩ | ⟨hx, -⟩
  · simp [hx]
  · simp [hx, hp]

/-- **Values compare by their places.** -/
theorem sqlCmp_eq_place (v w : Value) : v.sqlCmp w = v.place.bind fun p => w.place.bind p.cmp := by
  have htext (s : String) (r) : (Place.text s).cmp (.number r) = none ∧ (Place.number r).cmp (.text s) = none :=
    ⟨rfl, rfl⟩
  have hblob (s : List UInt8) (r) : (Place.blob s).cmp (.number r) = none ∧ (Place.number r).cmp (.blob s) = none :=
    ⟨rfl, rfl⟩
  cases v <;> cases w <;> simp [Value.sqlCmp, Value.isNull, Value.numeric, Value.place, partialCmp_eq_place,
    (ofFloat_cmp _ (htext _)).1, (ofFloat_cmp _ (htext _)).2, (ofFloat_cmp _ (hblob _)).1, (ofFloat_cmp _ (hblob _)).2]

theorem Place.cmp_swap (p q : Place) : q.cmp p = (p.cmp q).map Ordering.swap := by
  cases p <;> cases q <;>
    first
    | rfl
    | exact congrArg some Std.OrientedCmp.eq_swap

/-- Within one class places are in a linear order. -/
theorem Place.cmp_trans {p q r : Place} {o o' : Ordering} (hpq : p.cmp q = some o) (hqr : q.cmp r = some o') :
    ∃ o'', p.cmp r = some o'' ∧ (o = .lt → o' ≠ .gt → o'' = .lt) ∧ (o = .gt → o' ≠ .lt → o'' = .gt) ∧
      (o = .eq → o'' = o') := by
  have hlinear {α : Type} [Ord α] [Std.TransOrd α] (x y z : α) (hxy : compare x y = o) (hyz : compare y z = o') :
      (o = .lt → o' ≠ .gt → compare x z = .lt) ∧ (o = .gt → o' ≠ .lt → compare x z = .gt) ∧
        (o = .eq → compare x z = o') := by
    subst hxy hyz
    refine ⟨fun h h' => ?_, fun h h' => ?_, fun h => Std.TransCmp.congr_left h⟩
    · exact Std.TransCmp.lt_of_lt_of_isLE h (Ordering.isLE_iff_ne_gt.2 h')
    · exact Std.TransCmp.gt_of_gt_of_isGE h (Ordering.isGE_iff_ne_lt.2 h')
  cases p <;> cases q <;> first | cases hpq | skip
  all_goals cases r <;> first | cases hqr | skip
  · exact ⟨_, rfl, hlinear _ _ _ rfl rfl⟩
  · exact ⟨_, rfl, hlinear _ _ _ rfl rfl⟩
  · exact ⟨_, rfl, hlinear _ _ _ rfl rfl⟩

/-- A place not comparable to one of two comparable places is comparable to neither. -/
theorem Place.cmp_none {p q r : Place} (hpq : p.cmp q ≠ none) (hqr : q.cmp r = none) : p.cmp r = none := by
  cases p <;> cases q <;> first | exact absurd rfl hpq | skip
  all_goals cases r <;> first | rfl | cases hqr

end Twill
