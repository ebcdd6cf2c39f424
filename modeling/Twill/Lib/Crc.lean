/-
Cyclic redundancy checks as shift registers over bit strings.

A reflected register of width `n` moves right, and adds its polynomial when a one falls out at
the bottom; a bit of the message is added at the bottom before the move. When the polynomial's
top bit is set nothing is lost: the move is injective, so two registers that meet were equal
before. As many bits as the register is wide may be added at once and moved in together, so two
such strings that leave equal registers are equal: the check tells apart any two messages that
differ in a burst no longer than the register (`feed_burst`).
-/
import Mathlib

namespace Crc

variable {n : ℕ} (p : BitVec n)

/-! ## The register -/

/-- One move of the register. -/
def shift (c : BitVec n) : BitVec n := (c >>> 1) ^^^ (if c.getLsbD 0 then p else 0#n)

/-- Takes one bit of the message. -/
def feedBit (c : BitVec n) (b : Bool) : BitVec n := shift p (c ^^^ BitVec.setWidth n (BitVec.ofBool b))

def feed (c : BitVec n) (bits : List Bool) : BitVec n := bits.foldl (feedBit p) c

/-- The bits in a register, the first at the bottom. -/
def vec (n : ℕ) (bits : List Bool) : BitVec n := BitVec.ofFnLE fun i => bits.getD i false

theorem getLsbD_vec {bits : List Bool} {i : ℕ} (hi : i < n) : (vec n bits).getLsbD i = bits.getD i false := by
  rw [vec, BitVec.getLsbD_ofFnLE, dif_pos hi]

theorem shift_xor (c d : BitVec n) : shift p (c ^^^ d) = shift p c ^^^ shift p d := by
  have hcarry : (if (c ^^^ d).getLsbD 0 then p else 0#n) = (if c.getLsbD 0 then p else 0#n) ^^^ (if d.getLsbD 0 then p else 0#n) := by
    rw [BitVec.getLsbD_xor]
    cases c.getLsbD 0 <;> cases d.getLsbD 0 <;> simp
  unfold shift
  rw [hcarry, BitVec.ushiftRight_xor_distrib]
  ac_rfl

theorem shift_eq_zero (hp : p.getLsbD (n - 1) = true) {c : BitVec n} (h : shift p c = 0#n) : c = 0#n := by
  have hzero (i : ℕ) : (shift p c).getLsbD i = false := by rw [h, BitVec.getLsbD_zero]
  -- the top bit of what the move leaves is the bit that fell out
  have hlow : c.getLsbD 0 = false := by
    by_contra hlow
    have htop := hzero (n - 1)
    rw [shift, if_pos (by simpa using hlow), BitVec.getLsbD_xor, hp, BitVec.getLsbD_ushiftRight] at htop
    have hover : c.getLsbD (1 + (n - 1)) = false := BitVec.getLsbD_of_ge c _ (by omega)
    rw [hover] at htop
    exact absurd htop (by decide)
  apply BitVec.eq_of_getLsbD_eq
  intro i hi
  rw [BitVec.getLsbD_zero]
  cases i with
  | zero => exact hlow
  | succ i =>
    have hbit := hzero i
    rw [shift, hlow, BitVec.getLsbD_xor, BitVec.getLsbD_ushiftRight, Nat.add_comm] at hbit
    simpa using hbit

theorem shift_injective (hp : p.getLsbD (n - 1) = true) : Function.Injective (shift p) := by
  intro c d h
  have hzero : shift p (c ^^^ d) = 0#n := by rw [shift_xor, h, BitVec.xor_self]
  have hxor := shift_eq_zero p hp hzero
  exact BitVec.xor_eq_zero_iff.mp hxor

theorem shift_iterate_xor (k : ℕ) (c d : BitVec n) : (shift p)^[k] (c ^^^ d) = (shift p)^[k] c ^^^ (shift p)^[k] d := by
  induction k generalizing c d with
  | zero => rfl
  | succ k ih => rw [Function.iterate_succ_apply, Function.iterate_succ_apply, Function.iterate_succ_apply, shift_xor, ih]

/-- While zeros fall out the register only moves. -/
theorem shift_iterate_low {k : ℕ} {c : BitVec n} (h : ∀ i < k, c.getLsbD i = false) : (shift p)^[k] c = c >>> k := by
  induction k with
  | zero => simp
  | succ k ih =>
    have hlow : (c >>> k).getLsbD 0 = false := by simpa using h k (Nat.lt_succ_self k)
    rw [Function.iterate_succ_apply', ih fun i hi => h i (Nat.lt_succ_of_lt hi), shift, hlow]
    simp [BitVec.shiftRight_add]

/-! ## Messages -/

theorem feed_append (c : BitVec n) (xs ys : List Bool) : feed p c (xs ++ ys) = feed p (feed p c xs) ys := List.foldl_append

theorem feedBit_injective (hp : p.getLsbD (n - 1) = true) (b : Bool) : Function.Injective (feedBit p · b) := by
  intro c d h
  exact (BitVec.xor_left_inj _).mp (shift_injective p hp h)

/-- Registers that meet after the same bits were equal before them. -/
theorem feed_injective (hp : p.getLsbD (n - 1) = true) (bits : List Bool) : Function.Injective (feed p · bits) := by
  induction bits with
  | nil => exact fun c d h => h
  | cons b bits ih => exact fun c d h => feedBit_injective p hp b (ih h)

/-- As many bits as the register holds are added at once and moved in together. -/
theorem feed_eq_iterate {bits : List Bool} (hlength : bits.length ≤ n) (c : BitVec n) :
    feed p c bits = (shift p)^[bits.length] (c ^^^ vec n bits) := by
  induction bits generalizing c with
  | nil =>
    have hvec : vec n [] = 0#n := BitVec.eq_of_getLsbD_eq fun i hi => by rw [getLsbD_vec hi, BitVec.getLsbD_zero]; rfl
    rw [hvec]
    simp [feed]
  | cons b bits ih =>
    have hshort : bits.length < n := hlength
    -- the bits after the first, one place up, come down again with the first move
    have hsplit : vec n (b :: bits) = BitVec.setWidth n (BitVec.ofBool b) ^^^ (vec n bits <<< 1) := by
      apply BitVec.eq_of_getLsbD_eq
      intro i hi
      rw [getLsbD_vec hi, BitVec.getLsbD_xor, BitVec.getLsbD_shiftLeft, BitVec.getLsbD_setWidth]
      cases i with
      | zero => simp [hi]
      | succ i =>
        have hbit : (vec n bits).getLsbD i = bits.getD i false := getLsbD_vec (Nat.lt_of_succ_lt hi)
        simp [hi, hbit]
    have hdown : shift p (vec n bits <<< 1) = vec n bits := by
      have hlow := shift_iterate_low p (k := 1) (c := vec n bits <<< 1) fun i hi => by
        rw [BitVec.getLsbD_shiftLeft]; simp [hi]
      rw [Function.iterate_one] at hlow
      rw [hlow]
      apply BitVec.eq_of_getLsbD_eq
      intro i hi
      rw [BitVec.getLsbD_ushiftRight, BitVec.getLsbD_shiftLeft]
      by_cases htop : 1 + i < n
      · simp [htop]
      · have hout : (vec n bits).getLsbD i = false := by
          rw [getLsbD_vec hi, List.getD_eq_default]
          omega
        simp [htop, hout]
    have hcons : feed p c (b :: bits) = feed p (feedBit p c b) bits := rfl
    rw [hcons, ih hshort.le, List.length_cons, Function.iterate_succ_apply, hsplit, ← BitVec.xor_assoc, shift_xor, hdown]
    rfl

theorem vec_injective {xs ys : List Bool} (hlength : ys.length = xs.length) (hn : xs.length ≤ n) (h : vec n xs = vec n ys) :
    xs = ys := by
  refine List.ext_getElem hlength.symm fun i hx hy => ?_
  have hbit := congrArg (·.getLsbD i) h
  rwa [getLsbD_vec (hx.trans_le hn), getLsbD_vec (hx.trans_le hn), List.getD_eq_getElem _ _ hx, List.getD_eq_getElem _ _ hy] at hbit

/-! ## Bursts -/

/-- One bit string is another with at most so many consecutive bits changed, at least one of them. -/
structure Burst (k : ℕ) (m m' : List Bool) : Prop where
  changed : m ≠ m'
  window : ∃ x w w' y, m = x ++ (w ++ y) ∧ m' = x ++ (w' ++ y) ∧ w'.length = w.length ∧ w.length ≤ k

theorem Burst.length_eq {k : ℕ} {m m' : List Bool} (h : Burst k m m') : m'.length = m.length := by
  obtain ⟨x, w, w', y, rfl, rfl, hlength, -⟩ := h.window
  simp [hlength]

/-- **No burst as short as the register goes unseen.** -/
theorem feed_burst (hp : p.getLsbD (n - 1) = true) {m m' : List Bool} (h : Burst n m m') (c : BitVec n) :
    feed p c m ≠ feed p c m' := by
  obtain ⟨x, w, w', y, rfl, rfl, hlength, hn⟩ := h.window
  intro heq
  rw [feed_append, feed_append, feed_append, feed_append] at heq
  have hwindow := feed_injective p hp y heq
  rw [feed_eq_iterate p hn, feed_eq_iterate p (hlength.trans_le hn), hlength] at hwindow
  have hvec := (BitVec.xor_right_inj _).mp ((shift_injective p hp).iterate w.length hwindow)
  exact h.changed (by rw [vec_injective hlength hn hvec])

end Crc
