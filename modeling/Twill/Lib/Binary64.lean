/-
Comparison of binary64 numbers, and integers taken to binary64.

Two numbers that are not NaN compare as their ranks, so comparison is a linear order up to
the two zeros. An integer of at most 63 bits is taken to the nearest multiple of a power of
two that has a significand of 53 bits, a tie to the even one, and compares there. Its bit
pattern as a number is another integer, with three exceptions (`bits_ofInt`).
-/
import Mathlib

namespace Binary64

open Float.Model Float.Model.UnpackedFloat

/-! ## The order -/

/-- Where a number stands among the numbers that are not NaN. -/
def rank : UnpackedFloat → ℤ ×ₗ ℤ ×ₗ ℤ
  | .notANumber => toLex (3, toLex (0, 0))
  | .infinity .positive => toLex (2, toLex (0, 0))
  | .infinity .negative => toLex (-2, toLex (0, 0))
  | .zero _ => toLex (0, toLex (0, 0))
  | .finite .positive m e _ => toLex (1, toLex (e, (m : ℤ)))
  | .finite .negative m e _ => toLex (-1, toLex (-e, -(m : ℤ)))

theorem compare_lex (a b : ℤ) (x y : ℤ ×ₗ ℤ) : compare (toLex (a, x)) (toLex (b, y)) = (compare a b).then (compare x y) := by
  rw [Prod.Lex.compare_def]
  rfl

theorem compare_lex' (a b x y : ℤ) : compare (toLex (a, x)) (toLex (b, y)) = (compare a b).then (compare x y) := by
  rw [Prod.Lex.compare_def]
  rfl

theorem compare_neg (a b : ℤ) : compare (-a) (-b) = (compare a b).swap := by
  rw [Int.compare_swap]
  simp only [Int.compare_eq_ite_le, Int.neg_le_neg_iff]

theorem compare_natCast (m n : ℕ) : compare (m : ℤ) (n : ℤ) = compare m n := by
  simp only [Int.compare_eq_ite_le, Nat.compare_eq_ite_le, Int.ofNat_le]

/-- **Numbers compare as their ranks.** -/
theorem compare_eq_rank {a b : UnpackedFloat} (ha : a ≠ .notANumber) (hb : b ≠ .notANumber) :
    a.compare b = some (compare (rank a) (rank b)) := by
  cases a with
  | notANumber => exact absurd rfl ha
  | infinity s => 
    cases b with
    | notANumber => exact absurd rfl hb
    | infinity t => cases s <;> cases t <;> rfl
    | zero t => cases s <;> rfl
    | finite t n f hn => cases s <;> cases t <;> rfl
  | zero s =>
    cases b with
    | notANumber => exact absurd rfl hb
    | infinity t => cases t <;> rfl
    | zero t => rfl
    | finite t n f hn => cases t <;> rfl
  | finite s m e hm =>
    cases b with
    | notANumber => exact absurd rfl hb
    | infinity t => cases s <;> cases t <;> rfl
    | zero t => cases s <;> rfl
    | finite t n f hn =>
      cases s <;> cases t
      · change some ((compare e f).then (compare m n)).swap = _
        rw [rank, rank, compare_lex, compare_lex', compare_neg e, compare_neg (m : ℤ), compare_natCast, Ordering.swap_then]
        rfl
      · rfl
      · rfl
      · change some ((compare e f).then (compare m n)) = _
        rw [rank, rank, compare_lex, compare_lex', compare_natCast]
        rfl

theorem compare_nan_right (a : UnpackedFloat) : a.compare .notANumber = none := by
  cases a with
  | finite s m e hm => cases s <;> rfl
  | infinity s => cases s <;> rfl
  | _ => rfl

theorem compare_swap (a b : UnpackedFloat) : b.compare a = (a.compare b).map Ordering.swap := by
  by_cases ha : a = .notANumber
  · rw [ha, compare_nan_right]
    rfl
  · by_cases hb : b = .notANumber
    · rw [hb, compare_nan_right]
      rfl
    · rw [compare_eq_rank ha hb, compare_eq_rank hb ha, Option.map_some]
      exact congrArg some Std.OrientedCmp.eq_swap

theorem lt_iff (x y : Float) : x < y ↔ x.toModel.unpack.compare y.toModel.unpack = some .lt := by
  change decide (UnpackedFloat.lt x.toModel.unpack y.toModel.unpack = true) = true ↔ _
  rw [decide_eq_true_iff, UnpackedFloat.lt, beq_iff_eq]

theorem beq_iff (x y : Float) : (x == y) = true ↔ x.toModel.unpack.compare y.toModel.unpack = some .eq := by
  change (UnpackedFloat.beq x.toModel.unpack y.toModel.unpack) = true ↔ _
  rw [UnpackedFloat.beq, beq_iff_eq]

/-- The three comparisons of two numbers are read off one. -/
theorem partial_compare (x y : Float) :
    (if x < y then some Ordering.lt else if x > y then some .gt else if x == y then some .eq else none) =
      x.toModel.unpack.compare y.toModel.unpack := by
  have hgt : x > y ↔ x.toModel.unpack.compare y.toModel.unpack = some .gt := by
    rw [gt_iff_lt, lt_iff y x, compare_swap]
    cases x.toModel.unpack.compare y.toModel.unpack with
    | none => simp
    | some o => cases o <;> simp
  simp only [lt_iff x y, hgt, beq_iff x y]
  cases x.toModel.unpack.compare y.toModel.unpack with
  | none => simp
  | some o => cases o <;> simp

/-! ## Integers -/

/-- The multiple of `2 ^ k` nearest to `n`, in units of `2 ^ k`; a tie goes to the even one. -/
def nearest (n k : ℕ) : ℕ :=
  if 2 * (n % 2 ^ k) < 2 ^ k then n / 2 ^ k
  else if 2 ^ k < 2 * (n % 2 ^ k) then n / 2 ^ k + 1
  else n / 2 ^ k + n / 2 ^ k % 2

/-- `n` with its significand rounded to 53 bits. -/
def round53 (n : ℕ) : ℕ := nearest n (n.log2 - 52) * 2 ^ (n.log2 - 52)

theorem shift_exact (n k : ℕ) : ExtendedMantissa.ofMantissaAndAccuracy n .exact >>> (k + 1) =
    ⟨n / 2 ^ (k + 1), n / 2 ^ k % 2 != 0, n % 2 ^ k != 0⟩ := by
  induction k with
  | zero =>
    change ExtendedMantissa.shiftRightOne ⟨n, false, false⟩ = _
    simp [ExtendedMantissa.shiftRightOne, Nat.mod_one]
  | succ k ih =>
    change ExtendedMantissa.shiftRightOne (ExtendedMantissa.ofMantissaAndAccuracy n .exact >>> (k + 1)) = _
    have hdiv : n / 2 ^ (k + 1) / 2 = n / 2 ^ (k + 2) := by rw [Nat.div_div_eq_div_mul, ← pow_succ]
    have hsticky : (n / 2 ^ k % 2 != 0 || n % 2 ^ k != 0) = (n % 2 ^ (k + 1) != 0) := by
      have hpos : 0 < 2 ^ k := by positivity
      rw [Nat.mod_pow_succ, Bool.eq_iff_iff]
      simp only [Bool.or_eq_true, bne_iff_ne, ne_eq, Nat.add_eq_zero_iff, Nat.mul_eq_zero, hpos.ne']
      tauto
    rw [ih, ExtendedMantissa.shiftRightOne, hdiv, hsticky]

/-- What is shifted out rounds to the nearest. -/
theorem rounded_shift (n k : ℕ) : (ExtendedMantissa.ofMantissaAndAccuracy n .exact >>> k).roundedMantissa = nearest n k := by
  cases k with
  | zero =>
    change n = nearest n 0
    simp [nearest, Nat.mod_one]
  | succ k =>
    rw [shift_exact, nearest]
    have hpos : 0 < 2 ^ k := by positivity
    have hmod : n % 2 ^ (k + 1) = n % 2 ^ k + 2 ^ k * (n / 2 ^ k % 2) := Nat.mod_pow_succ
    have hlow : n % 2 ^ k < 2 ^ k := Nat.mod_lt n hpos
    have hpow : 2 ^ (k + 1) = 2 * 2 ^ k := pow_succ' 2 k
    rcases Nat.lt_or_ge (n / 2 ^ k % 2) 1 with hzero | hone
    · have hbit : n / 2 ^ k % 2 = 0 := by omega
      rw [hbit, Nat.mul_zero, Nat.add_zero] at hmod
      rw [if_pos (by omega), hbit]
      cases n % 2 ^ k != 0 <;> rfl
    · have hbit : n / 2 ^ k % 2 = 1 := by omega
      rw [hbit, Nat.mul_one] at hmod
      rw [if_neg (by omega), hbit]
      rcases Nat.eq_zero_or_pos (n % 2 ^ k) with hlow | hlow
      · rw [if_neg (by omega), hlow]
        rfl
      · have hsticky : (n % 2 ^ k != 0) = true := by simp [hlow.ne']
        rw [if_pos (by omega), hsticky]
        rfl

theorem le_nearest (n k : ℕ) : n / 2 ^ k ≤ nearest n k := by
  unfold nearest
  split_ifs <;> omega

theorem nearest_le (n k : ℕ) : nearest n k ≤ n / 2 ^ k + 1 := by
  unfold nearest
  split_ifs <;> omega

/-- The significand of an integer, before rounding. -/
theorem significand_bounds {n : ℕ} (hn : 52 ≤ n.log2) :
    2 ^ 52 ≤ n / 2 ^ (n.log2 - 52) ∧ n / 2 ^ (n.log2 - 52) < 2 ^ 53 := by
  have hne : n ≠ 0 := by
    rintro rfl
    simp at hn
  have hlow : 2 ^ n.log2 ≤ n := Nat.log2_self_le hne
  have hhigh : n < 2 ^ (n.log2 + 1) := Nat.lt_log2_self
  have hsplit : 2 ^ n.log2 = 2 ^ 52 * 2 ^ (n.log2 - 52) := by rw [← pow_add, Nat.add_sub_cancel' hn]
  have hsplit' : 2 ^ (n.log2 + 1) = 2 ^ 53 * 2 ^ (n.log2 - 52) := by
    rw [← pow_add]
    congr 1
    omega
  exact ⟨(Nat.le_div_iff_mul_le (by positivity)).2 (hsplit ▸ hlow),
    (Nat.div_lt_iff_lt_mul (by positivity)).2 (hsplit' ▸ hhigh)⟩

theorem minExponent_eq : Format.binary64.minExponent = -1074 := by decide

theorem mantissaBits_eq : Format.binary64.mantissaBits = 53 := by decide

theorem targetExponent_eq (m : ℕ) (e : ℤ) (h : -1074 ≤ m.log2 + 1 + e - 53) :
    Format.binary64.targetExponent (totalExponent m e) = m.log2 + 1 + e - 53 := by
  rw [Format.targetExponent, totalExponent, minExponent_eq, mantissaBits_eq]
  exact max_eq_left h

/-- A significand of 53 bits stays as it is. -/
theorem shift_self {m : ℕ} {e : ℤ} (hm : m.log2 = 52) (he : -1074 ≤ e) :
    shiftToTargetExponent Format.binary64 m e .exact = (⟨m, false, false⟩, e) := by
  have htarget : Format.binary64.targetExponent (totalExponent m e) = e := by
    rw [targetExponent_eq m e (by omega), hm]
    omega
  simp only [shiftToTargetExponent, htarget, shiftToExponent, sub_self, Int.toNat_zero]
  exact congrArg (Prod.mk _) (by simp)

theorem roundWithAccuracy_exact (s : Sign) {m : ℕ} {e : ℤ} (hm : m.log2 = 52) (he : -1074 ≤ e) (hpos : 0 < m) :
    roundWithAccuracy Format.binary64 s m e .exact = .finite s m e hpos := by
  have hrounded : (⟨m, false, false⟩ : ExtendedMantissa).roundedMantissa = m := rfl
  simp only [roundWithAccuracy, shift_self hm he, hrounded]
  exact dif_neg hpos.ne'

theorem log2_eq {m : ℕ} (hlow : 2 ^ 52 ≤ m) (hhigh : m < 2 ^ 53) : m.log2 = 52 := by
  have hne : m ≠ 0 := by omega
  have h1 := (Nat.le_log2 hne).2 hlow
  have h2 := (Nat.log2_lt hne).2 hhigh
  omega

/-- An integer as a number: a significand of 53 bits, and the value rounded. -/
structure IsRounded (n : ℕ) (s : Sign) (x : UnpackedFloat) : Prop where
  finite : ∃ m e, ∃ hm : 0 < m, x = .finite s m e hm ∧ 2 ^ 52 ≤ m ∧ m < 2 ^ 53 ∧ -52 ≤ e ∧ e ≤ n.log2 ∧
    m * 2 ^ (e + 52).toNat = round53 n * 2 ^ 52

theorem round_small (s : Sign) {n : ℕ} (hn : 0 < n) (hlog : n.log2 ≤ 52) :
    IsRounded n s (UnpackedFloat.round Format.binary64 s n 0) := by
  have hlow : 2 ^ n.log2 ≤ n := Nat.log2_self_le hn.ne'
  have hhigh : n < 2 ^ (n.log2 + 1) := Nat.lt_log2_self
  have hpow : 2 ^ n.log2 * 2 ^ (52 - n.log2) = 2 ^ 52 := by rw [← pow_add, Nat.add_sub_cancel' hlog]
  have hpow' : 2 ^ (n.log2 + 1) * 2 ^ (52 - n.log2) = 2 ^ 53 := by rw [← pow_add]; congr 1; omega
  have hm52 : 2 ^ 52 ≤ n * 2 ^ (52 - n.log2) := hpow ▸ Nat.mul_le_mul_right _ hlow
  have hm53 : n * 2 ^ (52 - n.log2) < 2 ^ 53 := hpow' ▸ Nat.mul_lt_mul_of_pos_right hhigh (by positivity)
  have htarget : Format.binary64.targetExponent (totalExponent n 0) = n.log2 - 52 := by
    rw [targetExponent_eq n 0 (by omega)]
    omega
  have hshift : decreaseExponent n 0 (n.log2 - 52) = (n * 2 ^ (52 - n.log2), (n.log2 : ℤ) - 52) := by
    have hamount : (0 - ((n.log2 : ℤ) - 52)).toNat = 52 - n.log2 := by omega
    rw [decreaseExponent, hamount, Nat.shiftLeft_eq]
    exact congrArg (Prod.mk _) (by omega)
  have hround : UnpackedFloat.round Format.binary64 s n 0 =
      .finite s (n * 2 ^ (52 - n.log2)) (n.log2 - 52) (by omega) := by
    simp only [UnpackedFloat.round, htarget, hshift]
    exact roundWithAccuracy_exact s (log2_eq hm52 hm53) (by omega) (by omega)
  refine ⟨_, _, _, hround, hm52, hm53, by omega, by omega, ?_⟩
  have hvalue : round53 n = n := by simp [round53, Nat.sub_eq_zero_of_le hlog, nearest, Nat.mod_one]
  have hexp : ((n.log2 : ℤ) - 52 + 52).toNat = n.log2 := by omega
  rw [hvalue, hexp, mul_assoc, mul_comm (2 ^ (52 - n.log2)), hpow]

theorem round_large (s : Sign) {n : ℕ} (hlog : 52 < n.log2) (hmax : n.log2 ≤ 900) :
    IsRounded n s (UnpackedFloat.round Format.binary64 s n 0) := by
  obtain ⟨k, hk⟩ : ∃ k, n.log2 - 52 = k := ⟨_, rfl⟩
  have hlog2 : n.log2 = k + 52 := by omega
  have htarget : Format.binary64.targetExponent (totalExponent n 0) = k := by
    rw [targetExponent_eq n 0 (by omega)]
    omega
  have hshift : decreaseExponent n 0 k = (n, 0) := by
    have hamount : (0 - (k : ℤ)).toNat = 0 := by omega
    rw [decreaseExponent, hamount]
    rfl
  have hfirst : shiftToTargetExponent Format.binary64 n 0 .exact =
      (ExtendedMantissa.ofMantissaAndAccuracy n .exact >>> k, (k : ℤ)) := by
    simp only [shiftToTargetExponent, htarget, shiftToExponent, sub_zero, Int.toNat_natCast, zero_add]
  obtain ⟨hlow, hhigh⟩ := significand_bounds (n := n) (by omega)
  rw [hk] at hlow hhigh
  have hle := nearest_le n k
  have hge := le_nearest n k
  rcases Nat.lt_or_ge (nearest n k) (2 ^ 53) with hlt | hcarry
  · have hround : UnpackedFloat.round Format.binary64 s n 0 = .finite s (nearest n k) k (by omega) := by
      simp only [UnpackedFloat.round, htarget, hshift, roundWithAccuracy, hfirst, rounded_shift,
        shift_self (e := k) (log2_eq (m := nearest n k) (by omega) hlt) (by omega)]
      exact dif_neg (by omega)
    refine ⟨_, _, _, hround, by omega, hlt, by omega, by omega, ?_⟩
    have hexp : ((k : ℤ) + 52).toNat = k + 52 := by omega
    rw [round53, hk, hexp, pow_add, mul_assoc]
  · -- rounding carried into a 54th bit
    have hvalue : nearest n k = 2 ^ 53 := by omega
    have hlog53 : (2 ^ 53 : ℕ).log2 = 53 := Nat.log2_two_pow
    have hsecond : shiftToTargetExponent Format.binary64 (2 ^ 53) k .exact = (⟨2 ^ 52, false, false⟩, (k : ℤ) + 1) := by
      have htarget : Format.binary64.targetExponent (totalExponent (2 ^ 53) k) = k + 1 := by
        rw [targetExponent_eq (2 ^ 53) k (by omega), hlog53]
        omega
      have hamount : ((k : ℤ) + 1 - k).toNat = 1 := by omega
      simp only [shiftToTargetExponent, htarget, shiftToExponent, hamount]
      rfl
    have hround : UnpackedFloat.round Format.binary64 s n 0 = .finite s (2 ^ 52) (k + 1) (by norm_num) := by
      simp only [UnpackedFloat.round, htarget, hshift, roundWithAccuracy, hfirst, rounded_shift, hvalue, hsecond]
      exact dif_neg (by norm_num)
    refine ⟨_, _, _, hround, le_rfl, by norm_num, by omega, by omega, ?_⟩
    have hexp : ((k : ℤ) + 1 + 52).toNat = k + 53 := by omega
    rw [round53, hk, hvalue, hexp]
    ring

/-! ## The bit pattern -/

theorem unpackSign_pack (s : Sign) (e : BitVec 11) (m : BitVec 52) :
    unpackSign (packComponents Format.binary64 s e m) = s.toBitVec := by
  ext i hi
  obtain rfl : i = 0 := by omega
  have hbit : (s.toBitVec ++ e ++ m).getLsbD 63 = s.toBitVec.getLsbD 0 := by
    rw [BitVec.getLsbD_append, BitVec.getLsbD_append]
    rfl
  simp only [unpackSign, packComponents, BitVec.getElem_cast, BitVec.getElem_extract]
  exact hbit

theorem ofBitVec_toBitVec (s : Sign) : Sign.ofBitVec s.toBitVec = s := by
  cases s <;> rfl

/-- The bits of a sign. -/
def signBits : Sign → ℕ
  | .positive => 0
  | .negative => 2 ^ 63

theorem packComponents_toNat (s : Sign) (e : BitVec 11) (m : BitVec 52) :
    (packComponents Format.binary64 s e m).toNat = signBits s + e.toNat * 2 ^ 52 + m.toNat := by
  have hm : m.toNat < 2 ^ 52 := m.isLt
  have he : e.toNat < 2 ^ 11 := e.isLt
  change (s.toBitVec ++ e ++ m).toNat = _
  rw [BitVec.toNat_append, ← Nat.shiftLeft_add_eq_or_of_lt hm, Nat.shiftLeft_eq, BitVec.toNat_append,
    ← Nat.shiftLeft_add_eq_or_of_lt he, Nat.shiftLeft_eq]
  cases s <;> simp [signBits, Sign.toBitVec] <;> omega

/-- A normal number is packed into its sign, its biased exponent and its significand
without the leading bit. -/
theorem pack_normal (s : Sign) {m : ℕ} {e : ℤ} (hpos : 0 < m) (hlow : 2 ^ 52 ≤ m) (hhigh : m < 2 ^ 53)
    (hmin : -1000 ≤ e) (hmax : e ≤ 900) :
    UnpackedFloat.pack Format.binary64 (.finite s m e hpos) =
      packComponents Format.binary64 s (BitVec.ofNat 11 (e + 1075).toNat) (BitVec.ofNat 52 m) := by
  have hbias : (Format.binary64.exponentBias : ℤ) = 1023 := by decide
  have hbiased : (e + (1023 : ℤ) + (52 : ℕ)).toNat = (e + 1075).toNat := by omega
  obtain ⟨b, hb⟩ : ∃ b, (e + 1075).toNat = b := ⟨_, rfl⟩
  simp only [UnpackedFloat.pack]
  rw [hbias, hbiased, hb, if_neg (by omega), if_pos]
  rw [log2_eq hlow hhigh, mantissaBits_eq]

theorem pack_toNat (s : Sign) {m : ℕ} {e : ℤ} (hpos : 0 < m) (hlow : 2 ^ 52 ≤ m) (hhigh : m < 2 ^ 53)
    (hmin : -1000 ≤ e) (hmax : e ≤ 900) :
    (UnpackedFloat.pack Format.binary64 (.finite s m e hpos)).toNat = signBits s + (e + 1074).toNat * 2 ^ 52 + m := by
  have hexp : (BitVec.ofNat 11 (e + 1075).toNat).toNat = (e + 1075).toNat := by
    rw [BitVec.toNat_ofNat]
    exact Nat.mod_eq_of_lt (by omega)
  have hmant : (BitVec.ofNat 52 m).toNat = m - 2 ^ 52 := by
    rw [BitVec.toNat_ofNat]
    omega
  rw [pack_normal s hpos hlow hhigh hmin hmax, packComponents_toNat, hexp, hmant]
  omega

/-- A normal number is read back from its bits. -/
theorem unpack_pack (s : Sign) {m : ℕ} {e : ℤ} (hpos : 0 < m) (hlow : 2 ^ 52 ≤ m) (hhigh : m < 2 ^ 53)
    (hmin : -1000 ≤ e) (hmax : e ≤ 900) :
    UnpackedFloat.unpack Format.binary64 (UnpackedFloat.pack Format.binary64 (.finite s m e hpos)) = .finite s m e hpos := by
  have hbias : (Format.binary64.exponentBias : ℤ) = 1023 := by decide
  obtain ⟨b, hb⟩ : ∃ b, (e + 1075).toNat = b := ⟨_, rfl⟩
  have hpack := pack_normal s hpos hlow hhigh hmin hmax
  rw [hb] at hpack
  have hexp : (BitVec.ofNat 11 b).toNat = b := by
    rw [BitVec.toNat_ofNat]
    exact Nat.mod_eq_of_lt (by omega)
  have hones : BitVec.ofNat 11 b ≠ -1#11 := by
    intro h
    have := congrArg BitVec.toNat h
    rw [hexp] at this
    have hval : (-1#11 : BitVec 11).toNat = 2047 := by decide
    omega
  have hzero : BitVec.ofNat 11 b ≠ 0#11 := by
    intro h
    have := congrArg BitVec.toNat h
    rw [hexp] at this
    simp at this
    omega
  have hmant : (1#1 ++ BitVec.ofNat 52 m).toNat = m := by
    have hlt : (BitVec.ofNat 52 m).toNat < 2 ^ 52 := BitVec.isLt _
    rw [BitVec.toNat_append, ← Nat.shiftLeft_add_eq_or_of_lt hlt, Nat.shiftLeft_eq]
    simp only [BitVec.toNat_ofNat]
    omega
  rw [hpack]
  simp only [UnpackedFloat.unpack, unpackMantissa_packComponents, unpackExponent_packComponents, unpackSign_pack,
    ofBitVec_toBitVec]
  rw [if_neg hones, if_neg hzero]
  simp only [hmant, hexp, hbias]
  congr 1
  omega

/-! ## How integers compare -/

/-- An integer with its significand rounded to 53 bits, a tie to the even one. -/
def nearestInt (n : ℤ) : ℤ := if n < 0 then -(round53 n.natAbs : ℤ) else round53 n.natAbs

theorem isRounded_round (s : Sign) {n : ℕ} (hn : 0 < n) (hmax : n.log2 ≤ 900) :
    IsRounded n s (UnpackedFloat.round Format.binary64 s n 0) := by
  rcases Nat.lt_or_ge 52 n.log2 with hlarge | hsmall
  · exact round_large s hlarge hmax
  · exact round_small s hn hsmall

theorem ofInt_neg {n : ℤ} (hn : n < 0) (hmax : n.natAbs.log2 ≤ 900) :
    IsRounded n.natAbs .negative (UnpackedFloat.ofInt Format.binary64 n) := by
  have hcmp : compare n 0 = .lt := compare_lt_iff_lt.2 hn
  have habs : (-n).toNat = n.natAbs := by omega
  simp only [UnpackedFloat.ofInt, UnpackedFloat.normalize, hcmp, habs]
  exact isRounded_round .negative (by omega) hmax

theorem ofInt_pos {n : ℤ} (hn : 0 < n) (hmax : n.natAbs.log2 ≤ 900) :
    IsRounded n.natAbs .positive (UnpackedFloat.ofInt Format.binary64 n) := by
  have hcmp : compare n 0 = .gt := compare_gt_iff_gt.2 hn
  have habs : n.toNat = n.natAbs := by omega
  simp only [UnpackedFloat.ofInt, UnpackedFloat.normalize, hcmp, habs]
  exact isRounded_round .positive (by omega) hmax

theorem ofInt_zero : UnpackedFloat.ofInt Format.binary64 0 = .zero .positive := rfl

theorem IsRounded.unpack {n : ℕ} {s : Sign} {x : UnpackedFloat} (h : IsRounded n s x) (hmax : n.log2 ≤ 900) :
    (Float.Model.pack x).unpack = x := by
  obtain ⟨m, e, hm, rfl, hlow, hhigh, hmin, hle, -⟩ := h.finite
  exact unpack_pack s hm hlow hhigh (by omega) (by omega)

/-- What an integer of at most 900 bits becomes is read back from its bits. -/
theorem unpack_ofInt {n : ℤ} (hmax : n.natAbs.log2 ≤ 900) :
    (Float.Model.ofInt n).unpack = UnpackedFloat.ofInt Format.binary64 n := by
  rcases lt_trichotomy n 0 with hn | rfl | hn
  · exact (ofInt_neg hn hmax).unpack hmax
  · rfl
  · exact (ofInt_pos hn hmax).unpack hmax

theorem ofInt_ne_nan {n : ℤ} (hmax : n.natAbs.log2 ≤ 900) : UnpackedFloat.ofInt Format.binary64 n ≠ .notANumber := by
  rcases lt_trichotomy n 0 with hn | rfl | hn
  · obtain ⟨m, e, hm, heq, -⟩ := (ofInt_neg hn hmax).finite
    simp [heq]
  · simp [ofInt_zero]
  · obtain ⟨m, e, hm, heq, -⟩ := (ofInt_pos hn hmax).finite
    simp [heq]

theorem round53_pos {n : ℕ} (hn : 0 < n) : 0 < round53 n := by
  have hle := le_nearest n (n.log2 - 52)
  have hlow : 2 ^ (n.log2 - 52) ≤ n :=
    (Nat.pow_le_pow_right (by decide) (Nat.sub_le _ _)).trans (Nat.log2_self_le hn.ne')
  have hdiv : 0 < n / 2 ^ (n.log2 - 52) := Nat.div_pos hlow (by positivity)
  exact Nat.mul_pos (by omega) (by positivity)

/-- Normal numbers are ordered by exponent, then significand. -/
theorem compare_magnitude {m₁ m₂ r₁ r₂ : ℕ} {e₁ e₂ : ℤ} (hlow₁ : 2 ^ 52 ≤ m₁) (hhigh₁ : m₁ < 2 ^ 53)
    (hlow₂ : 2 ^ 52 ≤ m₂) (hhigh₂ : m₂ < 2 ^ 53) (hmin₁ : -52 ≤ e₁) (hmin₂ : -52 ≤ e₂)
    (hr₁ : m₁ * 2 ^ (e₁ + 52).toNat = r₁ * 2 ^ 52) (hr₂ : m₂ * 2 ^ (e₂ + 52).toNat = r₂ * 2 ^ 52) :
    (compare e₁ e₂).then (compare (m₁ : ℤ) (m₂ : ℤ)) = compare (r₁ : ℤ) (r₂ : ℤ) := by
  have hless {m m' r r' : ℕ} {e e' : ℤ} (hhigh : m < 2 ^ 53) (hlow : 2 ^ 52 ≤ m') (hmin : -52 ≤ e) (he : e < e')
      (hr : m * 2 ^ (e + 52).toNat = r * 2 ^ 52) (hr' : m' * 2 ^ (e' + 52).toNat = r' * 2 ^ 52) : r < r' := by
    have hexp : (e + 52).toNat + 1 ≤ (e' + 52).toNat := by omega
    have hpow := Nat.pow_le_pow_right (show 0 < 2 by decide) hexp
    have h : r * 2 ^ 52 < r' * 2 ^ 52 := calc
      r * 2 ^ 52 = m * 2 ^ (e + 52).toNat := hr.symm
      _ < 2 ^ 53 * 2 ^ (e + 52).toNat := Nat.mul_lt_mul_of_pos_right hhigh (by positivity)
      _ = 2 ^ 52 * 2 ^ ((e + 52).toNat + 1) := by ring
      _ ≤ m' * 2 ^ (e' + 52).toNat := Nat.mul_le_mul hlow hpow
      _ = r' * 2 ^ 52 := hr'
    exact Nat.lt_of_mul_lt_mul_right h
  rcases lt_trichotomy e₁ e₂ with he | rfl | he
  · rw [compare_lt_iff_lt.2 he, compare_lt_iff_lt.2 (Int.ofNat_lt.2 (hless hhigh₁ hlow₂ hmin₁ he hr₁ hr₂))]
    rfl
  · have hpos : 0 < 2 ^ (e₁ + 52).toNat := by positivity
    have hiff : m₁ ≤ m₂ ↔ r₁ ≤ r₂ := by
      rw [← Nat.mul_le_mul_right_iff hpos, hr₁, hr₂, Nat.mul_le_mul_right_iff (by decide)]
    have hiff' : m₂ ≤ m₁ ↔ r₂ ≤ r₁ := by
      rw [← Nat.mul_le_mul_right_iff hpos, hr₁, hr₂, Nat.mul_le_mul_right_iff (by decide)]
    have heq : compare e₁ e₁ = .eq := compare_eq_iff_eq.2 rfl
    rw [heq, Ordering.then, compare_natCast, compare_natCast]
    simp only [Nat.compare_eq_ite_le, hiff, hiff']
  · rw [compare_gt_iff_gt.2 he, compare_gt_iff_gt.2 (Int.ofNat_lt.2 (hless hhigh₂ hlow₁ hmin₂ he hr₂ hr₁))]
    rfl

theorem rank_ofInt_sign {n : ℤ} (hn : n.natAbs.log2 ≤ 900) :
    ∃ x, rank (UnpackedFloat.ofInt Format.binary64 n) = toLex (n.sign, x) := by
  rcases lt_trichotomy n 0 with hs | rfl | hs
  · obtain ⟨m, e, hm, heq, -⟩ := (ofInt_neg hs hn).finite
    rw [heq, Int.sign_eq_neg_one_of_neg hs]
    exact ⟨_, rfl⟩
  · exact ⟨_, rfl⟩
  · obtain ⟨m, e, hm, heq, -⟩ := (ofInt_pos hs hn).finite
    rw [heq, Int.sign_eq_one_of_pos hs]
    exact ⟨_, rfl⟩

theorem sign_nearestInt (n : ℤ) : (nearestInt n).sign = n.sign := by
  unfold nearestInt
  rcases lt_trichotomy n 0 with hs | rfl | hs
  · have hpos := round53_pos (n := n.natAbs) (by omega)
    rw [if_pos hs, Int.sign_eq_neg_one_of_neg hs]
    exact Int.sign_eq_neg_one_of_neg (by omega)
  · rfl
  · have hpos := round53_pos (n := n.natAbs) (by omega)
    rw [if_neg (by omega), Int.sign_eq_one_of_pos hs]
    exact Int.sign_eq_one_of_pos (by omega)

theorem lt_of_sign_lt {a b : ℤ} (h : a.sign < b.sign) : a < b := by
  rcases lt_trichotomy a 0 with ha | rfl | ha
  · rcases lt_trichotomy b 0 with hb | rfl | hb
    · rw [Int.sign_eq_neg_one_of_neg ha, Int.sign_eq_neg_one_of_neg hb] at h
      exact absurd h (lt_irrefl _)
    · exact ha
    · exact ha.trans hb
  · exact Int.sign_pos_iff.1 h
  · rw [Int.sign_eq_one_of_pos ha] at h
    rcases lt_trichotomy b 0 with hb | rfl | hb
    · rw [Int.sign_eq_neg_one_of_neg hb] at h
      omega
    · simp at h
    · rw [Int.sign_eq_one_of_pos hb] at h
      omega

/-- **Integers compare after rounding.** -/
theorem compare_rank_ofInt {a b : ℤ} (ha : a.natAbs.log2 ≤ 900) (hb : b.natAbs.log2 ≤ 900) :
    compare (rank (UnpackedFloat.ofInt Format.binary64 a)) (rank (UnpackedFloat.ofInt Format.binary64 b)) =
      compare (nearestInt a) (nearestInt b) := by
  rcases lt_trichotomy a.sign b.sign with hsign | hsign | hsign
  · obtain ⟨x, hx⟩ := rank_ofInt_sign ha
    obtain ⟨y, hy⟩ := rank_ofInt_sign hb
    have hlt : nearestInt a < nearestInt b := lt_of_sign_lt (by rwa [sign_nearestInt, sign_nearestInt])
    rw [hx, hy, compare_lex, compare_lt_iff_lt.2 hsign, compare_lt_iff_lt.2 hlt]
    rfl
  · rcases lt_trichotomy a 0 with hsa | rfl | hsa
    · have hsb : b < 0 := Int.sign_eq_neg_one_iff_neg.1 (hsign ▸ Int.sign_eq_neg_one_of_neg hsa)
      obtain ⟨m, e, hm, heq, hlow, hhigh, hmin, -, hr⟩ := (ofInt_neg hsa ha).finite
      obtain ⟨m', e', hm', heq', hlow', hhigh', hmin', -, hr'⟩ := (ofInt_neg hsb hb).finite
      rw [heq, heq', nearestInt, if_pos hsa, nearestInt, if_pos hsb, compare_neg,
        ← compare_magnitude hlow hhigh hlow' hhigh' hmin hmin' hr hr',
        rank, rank, compare_lex, compare_lex', compare_neg e, compare_neg (m : ℤ), Ordering.swap_then]
      rfl
    · obtain rfl : b = 0 := Int.sign_eq_zero_iff_zero.1 hsign.symm
      rfl
    · have hsb : 0 < b := Int.sign_eq_one_iff_pos.1 (hsign ▸ Int.sign_eq_one_of_pos hsa)
      obtain ⟨m, e, hm, heq, hlow, hhigh, hmin, -, hr⟩ := (ofInt_pos hsa ha).finite
      obtain ⟨m', e', hm', heq', hlow', hhigh', hmin', -, hr'⟩ := (ofInt_pos hsb hb).finite
      rw [heq, heq', nearestInt, if_neg hsa.not_gt, nearestInt, if_neg hsb.not_gt,
        ← compare_magnitude hlow hhigh hlow' hhigh' hmin hmin' hr hr', rank, rank, compare_lex, compare_lex']
      rfl
  · obtain ⟨x, hx⟩ := rank_ofInt_sign ha
    obtain ⟨y, hy⟩ := rank_ofInt_sign hb
    have hgt : nearestInt b < nearestInt a := lt_of_sign_lt (by rwa [sign_nearestInt, sign_nearestInt])
    rw [hx, hy, compare_lex, compare_gt_iff_gt.2 hsign, compare_gt_iff_gt.2 hgt]
    rfl

theorem nearest_mono {n m : ℕ} (k : ℕ) (h : n ≤ m) : nearest n k ≤ nearest m k := by
  have hdiv : n / 2 ^ k ≤ m / 2 ^ k := Nat.div_le_div_right h
  rcases hdiv.lt_or_eq with hlt | heq
  · have h1 := nearest_le n k
    have h2 := le_nearest m k
    omega
  · have hn := Nat.mod_add_div n (2 ^ k)
    have hm := Nat.mod_add_div m (2 ^ k)
    have hmod : n % 2 ^ k ≤ m % 2 ^ k := by
      rw [heq] at hn
      omega
    unfold nearest
    rw [heq]
    split_ifs <;> omega

theorem round53_of_log2 {n : ℕ} (h : n.log2 ≤ 52) : round53 n = n := by
  simp [round53, Nat.sub_eq_zero_of_le h, nearest, Nat.mod_one]

theorem round53_le (n : ℕ) : round53 n ≤ 2 ^ (n.log2 + 1) := by
  rcases Nat.lt_or_ge n.log2 52 with hsmall | hlarge
  · rw [round53_of_log2 hsmall.le]
    exact Nat.lt_log2_self.le
  · obtain ⟨-, hhigh⟩ := significand_bounds hlarge
    have hle := nearest_le n (n.log2 - 52)
    calc round53 n ≤ 2 ^ 53 * 2 ^ (n.log2 - 52) := Nat.mul_le_mul_right _ (by omega)
      _ = 2 ^ (n.log2 + 1) := by rw [← pow_add]; congr 1; omega

theorem le_round53 {n : ℕ} (h : 52 ≤ n.log2) : 2 ^ n.log2 ≤ round53 n := by
  obtain ⟨hlow, -⟩ := significand_bounds h
  calc 2 ^ n.log2 = 2 ^ 52 * 2 ^ (n.log2 - 52) := by rw [← pow_add, Nat.add_sub_cancel' h]
    _ ≤ round53 n := Nat.mul_le_mul_right _ (hlow.trans (le_nearest n _))

theorem log2_mono {n m : ℕ} (h : n ≤ m) : n.log2 ≤ m.log2 := by
  rcases Nat.eq_zero_or_pos n with rfl | hn
  · simp
  · exact (Nat.le_log2 (by omega)).2 ((Nat.log2_self_le hn.ne').trans h)

theorem round53_mono {n m : ℕ} (h : n ≤ m) : round53 n ≤ round53 m := by
  rcases (log2_mono h).lt_or_eq with hlt | heq
  · rcases Nat.lt_or_ge 52 m.log2 with hlarge | hsmall
    · calc round53 n ≤ 2 ^ (n.log2 + 1) := round53_le n
        _ ≤ 2 ^ m.log2 := Nat.pow_le_pow_right (by decide) hlt
        _ ≤ round53 m := le_round53 hlarge.le
    · rwa [round53_of_log2 hsmall, round53_of_log2 (by omega)]
  · unfold round53
    rw [heq]
    exact Nat.mul_le_mul_right _ (nearest_mono _ h)

theorem nearestInt_mono {a b : ℤ} (h : a ≤ b) : nearestInt a ≤ nearestInt b := by
  unfold nearestInt
  split_ifs with ha hb
  · exact Int.neg_le_neg (Int.ofNat_le.2 (round53_mono (by omega)))
  · omega
  · omega
  · exact Int.ofNat_le.2 (round53_mono (by omega))

/-- Up to 53 bits nothing is rounded. -/
theorem nearestInt_of_le {n : ℤ} (h : n.natAbs ≤ 2 ^ 53) : nearestInt n = n := by
  have hround : round53 n.natAbs = n.natAbs := by
    rcases h.lt_or_eq with hlt | heq
    · refine round53_of_log2 ?_
      rcases Nat.eq_zero_or_pos n.natAbs with hzero | hpos
      · simp [hzero]
      · have := (Nat.log2_lt hpos.ne').2 hlt
        omega
    · rw [heq]
      decide
  unfold nearestInt
  split_ifs <;> omega

/-! ## Integers read back -/

/-- An integer is read back rounded. -/
theorem IsRounded.toInt {n : ℕ} {s : Sign} {x : UnpackedFloat} (h : IsRounded n s x) (low high : ℤ) :
    x.toInt low high = s.apply (round53 n) := by
  obtain ⟨m, e, hm, rfl, -, -, hmin, -, hvalue⟩ := h.finite
  change UnpackedFloat.roundToInt s m e = _
  rcases lt_or_ge e 0 with hneg | hpos
  · obtain ⟨k, rfl⟩ : ∃ k : ℕ, e = -((k : ℤ) + 1) := ⟨(-e - 1).toNat, by omega⟩
    have hm' : m = round53 n * 2 ^ (k + 1) := by
      obtain ⟨j, hj⟩ : ∃ j, (-((k : ℤ) + 1) + 52).toNat = j := ⟨_, rfl⟩
      have hpow : 2 ^ 52 = 2 ^ (k + 1) * 2 ^ j := by
        rw [← pow_add]
        congr 1
        omega
      rw [hj, hpow, ← mul_assoc] at hvalue
      exact Nat.eq_of_mul_eq_mul_right (by positivity) hvalue
    have hdecrease : decreaseExponent m (-((k : ℤ) + 1)) 0 = (m, -((k : ℤ) + 1)) := by
      have hamount : (-((k : ℤ) + 1) - 0).toNat = 0 := by omega
      rw [decreaseExponent, hamount]
      simp
    have hamount : (0 - -((k : ℤ) + 1)).toNat = k + 1 := by omega
    simp only [UnpackedFloat.roundToInt, hdecrease, shiftToExponent, hamount, shift_exact]
    rw [hm', Nat.mul_div_cancel _ (by positivity)]
  · obtain ⟨k, rfl⟩ := Int.eq_ofNat_of_zero_le hpos
    have hm' : m * 2 ^ k = round53 n := by
      have hexp : ((k : ℤ) + 52).toNat = k + 52 := by omega
      rw [hexp, pow_add, ← mul_assoc] at hvalue
      exact Nat.eq_of_mul_eq_mul_right (by positivity) hvalue
    have hdecrease : decreaseExponent m (k : ℤ) 0 = (round53 n, 0) := by
      have hamount : ((k : ℤ) - 0).toNat = k := by omega
      rw [decreaseExponent, hamount, Nat.shiftLeft_eq, hm']
      simp
    have hamount : ((0 : ℤ) - 0).toNat = 0 := by omega
    simp only [UnpackedFloat.roundToInt, hdecrease, shiftToExponent, hamount]
    rfl

theorem toInt_ofInt {n : ℤ} (hmax : n.natAbs.log2 ≤ 900) (low high : ℤ) :
    (UnpackedFloat.ofInt Format.binary64 n).toInt low high = nearestInt n := by
  rcases lt_trichotomy n 0 with hlt | rfl | hgt
  · rw [(ofInt_neg hlt hmax).toInt, nearestInt, if_pos hlt]
    rfl
  · rfl
  · rw [(ofInt_pos hgt hmax).toInt, nearestInt, if_neg hgt.not_gt]
    rfl

/-! ## Integers as bit patterns -/

/-- A rounded integer of more than 53 bits: its significand is the nearest one, or the carry
made it a power of two. -/
theorem IsRounded.bits {n : ℕ} {s : Sign} {x : UnpackedFloat} (h : IsRounded n s x) (hlog : 52 < n.log2)
    (hmax : n.log2 ≤ 900) :
    (nearest n (n.log2 - 52) < 2 ^ 53 ∧
      (UnpackedFloat.pack Format.binary64 x).toNat =
        signBits s + (n.log2 + 1022) * 2 ^ 52 + nearest n (n.log2 - 52)) ∨
    (nearest n (n.log2 - 52) = 2 ^ 53 ∧
      (UnpackedFloat.pack Format.binary64 x).toNat = signBits s + (n.log2 + 1023) * 2 ^ 52 + 2 ^ 52) := by
  obtain ⟨m, e, hm, rfl, hlow, hhigh, hmin, hle, hvalue⟩ := h.finite
  obtain ⟨k, hk⟩ : ∃ k, n.log2 - 52 = k := ⟨_, rfl⟩
  obtain ⟨E, hE⟩ : ∃ E, (e + 52).toNat = E := ⟨_, rfl⟩
  have hlog2 : n.log2 = k + 52 := by omega
  obtain ⟨hqlow, hqhigh⟩ := significand_bounds (n := n) (by omega)
  have hnear := nearest_le n k
  have hnear' := le_nearest n k
  rw [round53, hk, hE] at hvalue
  rw [hk] at hqlow hqhigh ⊢
  rw [pack_toNat s hm hlow hhigh (by omega) (by omega)]
  generalize nearest n k = q at *
  have hexp : E = k + 52 ∨ E = k + 53 := by
    by_contra hne
    rcases (by omega : E < k + 52 ∨ k + 53 < E) with hsmall | hbig
    · have hpow : 2 ^ E ≤ 2 ^ (k + 51) := Nat.pow_le_pow_right (by decide) (by omega)
      have hlt : m * 2 ^ E < 2 ^ 53 * 2 ^ (k + 51) :=
        lt_of_le_of_lt (Nat.mul_le_mul_left m hpow) (Nat.mul_lt_mul_of_pos_right hhigh (by positivity))
      have hge : 2 ^ 52 * (2 ^ k * 2 ^ 52) ≤ q * 2 ^ k * 2 ^ 52 := by
        rw [mul_assoc]
        exact Nat.mul_le_mul_right _ (by omega)
      have hsame : 2 ^ 53 * 2 ^ (k + 51) = 2 ^ 52 * (2 ^ k * 2 ^ 52) := by ring
      omega
    · have hpow : 2 ^ (k + 54) ≤ 2 ^ E := Nat.pow_le_pow_right (by decide) (by omega)
      have hge : 2 ^ 52 * 2 ^ (k + 54) ≤ m * 2 ^ E := Nat.mul_le_mul hlow hpow
      have hle' : q * 2 ^ k * 2 ^ 52 ≤ 2 ^ 53 * (2 ^ k * 2 ^ 52) := by
        rw [mul_assoc]
        exact Nat.mul_le_mul_right _ (by omega)
      have hsame : 2 ^ 52 * 2 ^ (k + 54) = 2 * (2 ^ 53 * (2 ^ k * 2 ^ 52)) := by ring
      have hpos : 0 < 2 ^ 53 * (2 ^ k * 2 ^ 52) := by positivity
      omega
  have hscale : q * 2 ^ k * 2 ^ 52 = q * 2 ^ (k + 52) := by ring
  rw [hscale] at hvalue
  rcases hexp with rfl | rfl
  · have hmq : m = q := Nat.eq_of_mul_eq_mul_right (by positivity) hvalue
    subst hmq
    exact .inl ⟨hhigh, by omega⟩
  · have hmq : m * 2 = q := by
      refine Nat.eq_of_mul_eq_mul_right (show 0 < 2 ^ (k + 52) by positivity) ?_
      rw [← hvalue]
      ring
    exact .inr ⟨by omega, by omega⟩

theorem nearest_bounds (n k : ℕ) : 2 * (nearest n k * 2 ^ k) ≤ 2 * n + 2 ^ k ∧ 2 * n ≤ 2 * (nearest n k * 2 ^ k) + 2 ^ k := by
  have hdiv := Nat.div_add_mod n (2 ^ k)
  have hlt := Nat.mod_lt n (show 0 < 2 ^ k by positivity)
  have hmul : (n / 2 ^ k + 1) * 2 ^ k = 2 ^ k * (n / 2 ^ k) + 2 ^ k := by ring
  have hmul' : n / 2 ^ k * 2 ^ k = 2 ^ k * (n / 2 ^ k) := by ring
  rw [nearest]
  split
  · omega
  · split
    · omega
    · rcases Nat.mod_two_eq_zero_or_one (n / 2 ^ k) with h | h <;> rw [h]
      · rw [Nat.add_zero]
        omega
      · omega

/-- The exponent a number needs to be as large as its bits. -/
theorem log2_of_bits {n : ℕ} {s : Sign} {x : UnpackedFloat} (h : IsRounded n s x) (hmax : n.log2 ≤ 63) :
    signBits s + 1023 * 2 ^ 52 ≤ (UnpackedFloat.pack Format.binary64 x).toNat ∧
      (UnpackedFloat.pack Format.binary64 x).toNat < signBits s + (n.log2 + 1076) * 2 ^ 52 := by
  obtain ⟨m, e, hm, rfl, hlow, hhigh, hmin, hle, -⟩ := h.finite
  rw [pack_toNat s hm hlow hhigh (by omega) (by omega)]
  omega

theorem log2_bounds {n : ℕ} (hn : 0 < n) {a : ℕ} : (2 ^ a ≤ n → a ≤ n.log2) ∧ (n < 2 ^ a → n.log2 < a) :=
  ⟨fun h => (Nat.le_log2 hn.ne').2 h, fun h => (Nat.log2_lt hn.ne').2 h⟩

theorem bits_pos {n : ℕ} {x : UnpackedFloat} (h : IsRounded n .positive x) (hn : 0 < n) (hhigh : n < 2 ^ 63)
    (hbits : (UnpackedFloat.pack Format.binary64 x).toNat = n) : n = 0x43d0f43d0f43d0f4 := by
  have hlog63 := (log2_bounds hn (a := 63)).2 hhigh
  obtain ⟨hge, -⟩ := log2_of_bits h (by omega)
  have hlog61 := (log2_bounds hn (a := 61)).1 (by simp only [signBits] at hge; omega)
  have hcases := h.bits (by omega) (by omega)
  rw [hbits] at hcases
  rcases (by omega : n.log2 = 61 ∨ n.log2 = 62) with hlog | hlog <;> rw [hlog] at hcases
  · have hlt : n < 2 ^ 62 := by
      have := Nat.lt_log2_self (n := n)
      rwa [hlog] at this
    simp only [signBits] at hcases
    omega
  · have hnear := nearest_bounds n (62 - 52)
    simp only [signBits] at hcases
    omega

theorem bits_neg {n : ℕ} {x : UnpackedFloat} (h : IsRounded n .negative x) (hn : 0 < n) (hhigh : n ≤ 2 ^ 63)
    (hbits : (UnpackedFloat.pack Format.binary64 x).toNat = 2 ^ 64 - n) : n = 2 ^ 64 - 0xc3ce18f3863ce18f := by
  have hlog64 := (log2_bounds hn (a := 64)).2 (by omega)
  obtain ⟨hge, hlt⟩ := log2_of_bits h (by omega)
  simp only [signBits] at hge hlt
  have hlog63 := (log2_bounds hn (a := 63)).2 (by omega)
  have hlog60 := (log2_bounds hn (a := 60)).1 (by omega)
  have hcases := h.bits (by omega) (by omega)
  rw [hbits] at hcases
  simp only [signBits] at hcases
  rcases (by omega : n.log2 = 60 ∨ n.log2 = 61 ∨ n.log2 = 62) with hlog | hlog | hlog <;> rw [hlog] at hcases
  · have hsmall : n < 2 ^ 61 := by
      have := Nat.lt_log2_self (n := n)
      rwa [hlog] at this
    omega
  · have hnear := nearest_bounds n (61 - 52)
    omega
  · have hlarge : 2 ^ 62 ≤ n := hlog ▸ Nat.log2_self_le hn.ne'
    have hnear := nearest_bounds n (62 - 52)
    omega

/-- **An integer is its own bit pattern as a number** at three places only. -/
theorem bits_ofInt {n : ℤ} (hlow : -2 ^ 63 ≤ n) (hhigh : n < 2 ^ 63) :
    (UnpackedFloat.pack Format.binary64 (UnpackedFloat.ofInt Format.binary64 n)).toNat = (n % 2 ^ 64).toNat ↔
      n = 0 ∨ n = 0x43d0f43d0f43d0f4 ∨ n = 0xc3ce18f3863ce18f - 2 ^ 64 := by
  have hmax : n.natAbs.log2 ≤ 900 := by
    rcases Nat.eq_zero_or_pos n.natAbs with h | h
    · rw [h]
      decide
    · have := (log2_bounds h (a := 64)).2 (by omega)
      omega
  constructor
  · intro hbits
    rcases lt_trichotomy n 0 with hn | rfl | hn
    · have := bits_neg (ofInt_neg hn hmax) (by omega) (by omega) (by omega)
      omega
    · exact .inl rfl
    · have := bits_pos (ofInt_pos hn hmax) (by omega) (by omega) (by omega)
      omega
  · rintro (rfl | rfl | rfl) <;> decide +kernel

end Binary64
