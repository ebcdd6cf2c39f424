/-
Big-endian numbers as lists of bytes: a number of `k` bytes and its bytes determine
each other.
-/
import Mathlib

namespace Bytes

def toBe : ℕ → ℕ → List UInt8
  | 0, _ => []
  | k + 1, n => toBe k (n / 256) ++ [UInt8.ofNat n]

def fromBe (bytes : List UInt8) : ℕ := bytes.foldl (fun n b => n * 256 + b.toNat) 0

@[simp] theorem length_toBe (k n : ℕ) : (toBe k n).length = k := by
  induction k generalizing n with
  | zero => rfl
  | succ k ih => rw [toBe, List.length_append, ih, List.length_singleton]

theorem fromBe_append (l : List UInt8) (b : UInt8) : fromBe (l ++ [b]) = fromBe l * 256 + b.toNat := by
  rw [fromBe, List.foldl_append]
  rfl

theorem fromBe_toBe (k n : ℕ) : fromBe (toBe k n) = n % 256 ^ k := by
  induction k generalizing n with
  | zero => simp [toBe, fromBe, Nat.mod_one]
  | succ k ih =>
    have hbyte : (UInt8.ofNat n).toNat = n % 256 := by simp
    rw [toBe, fromBe_append, ih, hbyte, pow_succ, mul_comm (256 ^ k), Nat.mod_mul]
    ring

theorem fromBe_lt (l : List UInt8) : fromBe l < 256 ^ l.length := by
  induction l using List.reverseRecOn with
  | nil => decide
  | append_singleton l b ih =>
    have hb : b.toNat < 256 := b.toNat_lt
    rw [fromBe_append, List.length_append, List.length_singleton, pow_succ]
    omega

theorem toBe_fromBe (l : List UInt8) : toBe l.length (fromBe l) = l := by
  induction l using List.reverseRecOn with
  | nil => rfl
  | append_singleton l b ih =>
    have hb : b.toNat < 256 := b.toNat_lt
    have hhead : (fromBe l * 256 + b.toNat) / 256 = fromBe l := by omega
    have hlast : UInt8.ofNat (fromBe l * 256 + b.toNat) = b := by
      apply UInt8.toNat_inj.1
      rw [UInt8.toNat_ofNat']
      omega
    rw [List.length_append, List.length_singleton, toBe, fromBe_append, hhead, hlast, ih]

end Bytes
