/-
Decimal numerals and what `str::parse::<i64>` reads from them: digits with
or without leading zeros, and the numeral that `to_string` writes.
-/
import Mathlib
import Twill.Value

namespace Twill

/-- A number in decimal, padded with zeros. -/
def padded (width : Nat) (n : Int) : String :=
  let digits := (Nat.toDigits 10 n.natAbs).leftpad (if n < 0 then width - 1 else width) '0'
  String.ofList (if n < 0 then '-' :: digits else digits)

theorem foldl_toDigits (n : ℕ) : (Nat.toDigits 10 n).foldl (fun m c => m * 10 + (c.toNat - 48)) 0 = n := by
  have h := Nat.ofDigitChars_ten_toDigits (n := n)
  rw [Nat.ofDigitChars_eq_foldl] at h
  simp only [Nat.mul_comm] at h
  exact h

theorem all_isDigit_toDigits (n : ℕ) : (Nat.toDigits 10 n).all Char.isDigit = true :=
  List.all_eq_true.2 fun _ hc => Nat.isDigit_of_mem_toDigits (by decide) (by decide) hc

/-- Digits, in range, with or without a minus. -/
theorem parseI64_digits {s : String} {c : Char} {cs : List Char} {n : ℕ} (hall : (c :: cs).all Char.isDigit = true)
    (hfold : (c :: cs).foldl (fun m d => m * 10 + (d.toNat - 48)) 0 = n) :
    (s.toList = c :: cs → n < 2 ^ 63 → parseI64 s = some (Int64.ofInt n)) ∧
    (s.toList = '-' :: c :: cs → n ≤ 2 ^ 63 → parseI64 s = some (Int64.ofInt (-n))) := by
  have hc : c.isDigit = true := List.all_eq_true.1 hall c List.mem_cons_self
  constructor
  · intro hs hn
    unfold parseI64
    simp only [hs]
    split
    · rename_i i heq
      split at heq
      · rename_i hminus
        cases hminus
        simp at hc
      · rename_i hplus
        cases hplus
        simp at hc
      · rw [hall, hfold] at heq
        obtain rfl : (n : Int) = i := by simpa using heq
        rw [if_pos (by omega)]
    · rename_i heq
      split at heq
      · rename_i hminus
        cases hminus
        simp at hc
      · rename_i hplus
        cases hplus
        simp at hc
      · rw [hall, hfold] at heq
        cases heq
  · intro hs hn
    unfold parseI64
    simp only [hs]
    rw [hall, hfold]
    have hrange : -(2 : Int) ^ 63 ≤ -(n : Int) ∧ -(n : Int) < 2 ^ 63 := by omega
    exact if_pos hrange

/-- The numeral of an integer reads as it. -/
theorem parseI64_toString (i : Int64) : parseI64 (toString i) = some i := by
  have hle := i.le_toInt
  have hlt := i.toInt_lt
  have hback : Int64.ofInt i.toInt = i := Int64.ofInt_toInt i
  have htext : toString i = i.toInt.repr := rfl
  rw [htext]
  generalize i.toInt = n at hle hlt hback
  cases n with
  | ofNat n =>
    rw [Int.ofNat_eq_natCast] at hlt
    obtain ⟨c, cs, hdigits⟩ := List.exists_cons_of_ne_nil (Nat.toDigits_ne_nil (n := n) (b := 10))
    have hlist : (Int.repr (Int.ofNat n)).toList = c :: cs := by rw [Int.repr, Nat.toList_repr, hdigits]
    rw [(parseI64_digits (hdigits ▸ all_isDigit_toDigits n) (hdigits ▸ foldl_toDigits n)).1 hlist (by omega)]
    exact congrArg some hback
  | negSucc n =>
    obtain ⟨c, cs, hdigits⟩ := List.exists_cons_of_ne_nil (Nat.toDigits_ne_nil (n := n + 1) (b := 10))
    have hlist : (Int.repr (Int.negSucc n)).toList = '-' :: c :: cs := by
      rw [Int.repr, String.toList_append, Nat.toList_repr, hdigits]
      rfl
    rw [(parseI64_digits (hdigits ▸ all_isDigit_toDigits (n + 1)) (hdigits ▸ foldl_toDigits (n + 1))).2 hlist (by omega)]
    exact congrArg some hback

/-! ## Zero-padded numerals -/

theorem foldl_zeros (k : ℕ) (cs : List Char) :
    (List.replicate k '0' ++ cs).foldl (fun m c => m * 10 + (c.toNat - 48)) 0 =
      cs.foldl (fun m c => m * 10 + (c.toNat - 48)) 0 := by
  induction k with
  | zero => rfl
  | succ k ih => exact ih

theorem padded_toList (width n : ℕ) :
    (padded width n).toList = List.replicate (width - (Nat.toDigits 10 n).length) '0' ++ Nat.toDigits 10 n := by
  have hneg : ¬ (n : Int) < 0 := by omega
  unfold padded
  dsimp only
  rw [if_neg hneg, if_neg hneg, String.toList_ofList, Int.natAbs_natCast]
  rfl

theorem padded_isDigit (width n : ℕ) : ∀ c ∈ (padded width n).toList, c.isDigit = true := by
  rw [padded_toList]
  intro c hc
  rcases List.mem_append.1 hc with hzero | hdigit
  · rw [(List.mem_replicate.1 hzero).2]
    rfl
  · exact List.all_eq_true.1 (all_isDigit_toDigits n) c hdigit

theorem padded_ne_nil (width n : ℕ) : (padded width n).toList ≠ [] := by
  rw [padded_toList]
  exact List.append_ne_nil_of_right_ne_nil _ Nat.toDigits_ne_nil

/-- A zero-padded numeral reads as its number. -/
theorem parseI64_padded (width : ℕ) {n : ℕ} (hn : n < 2 ^ 63) :
    parseI64 (padded width n) = some (Int64.ofInt n) := by
  obtain ⟨c, cs, hlist⟩ := List.exists_cons_of_ne_nil (padded_ne_nil width n)
  have hall : (c :: cs).all Char.isDigit = true := by
    rw [← hlist]
    exact List.all_eq_true.2 (padded_isDigit width n)
  have hfold : (c :: cs).foldl (fun m d => m * 10 + (d.toNat - 48)) 0 = n := by
    rw [← hlist, padded_toList, foldl_zeros, foldl_toDigits]
  exact (parseI64_digits hall hfold).1 hlist hn

end Twill
