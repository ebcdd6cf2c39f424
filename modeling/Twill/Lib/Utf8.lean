/-
Reading UTF-8 with replacement characters (`String::from_utf8_lossy`).

A sequence that breaks off is one replacement character, and reading goes on at the
byte that broke it.
-/
import Mathlib

namespace Utf8

/-- U+FFFD. -/
def replacement : Char := Char.ofNat 0xFFFD

/-- The ranges of the bytes that follow a lead byte; none follow a byte that leads nothing. -/
def following (lead : ℕ) : List (ℕ × ℕ) :=
  if 0xC2 ≤ lead ∧ lead ≤ 0xDF then [(0x80, 0xBF)]
  else if lead = 0xE0 then [(0xA0, 0xBF), (0x80, 0xBF)]
  else if lead = 0xED then [(0x80, 0x9F), (0x80, 0xBF)]
  else if 0xE1 ≤ lead ∧ lead ≤ 0xEF then [(0x80, 0xBF), (0x80, 0xBF)]
  else if lead = 0xF0 then [(0x90, 0xBF), (0x80, 0xBF), (0x80, 0xBF)]
  else if 0xF1 ≤ lead ∧ lead ≤ 0xF3 then [(0x80, 0xBF), (0x80, 0xBF), (0x80, 0xBF)]
  else if lead = 0xF4 then [(0x80, 0x8F), (0x80, 0xBF), (0x80, 0xBF)]
  else []

/-- What the lead byte has of the scalar value. -/
def leadValue (lead : ℕ) : ℕ :=
  if lead < 0xE0 then lead % 32 else if lead < 0xF0 then lead % 16 else lead % 8

/-- The character whose value so far is `n`, if the bytes that are due follow. -/
def follow : List (ℕ × ℕ) → ℕ → List UInt8 → Char × List UInt8
  | [], n, bytes => (Char.ofNat n, bytes)
  | _ :: _, _, [] => (replacement, [])
  | (low, high) :: due, n, b :: bytes =>
    if low ≤ b.toNat ∧ b.toNat ≤ high then follow due (n * 64 + b.toNat % 64) bytes
    else (replacement, b :: bytes)

/-- The next character. -/
def next (b : UInt8) (bytes : List UInt8) : Char × List UInt8 :=
  if b.toNat < 0x80 then (Char.ofNat b.toNat, bytes)
  else
    match following b.toNat with
    | [] => (replacement, bytes)
    | due => follow due (leadValue b.toNat) bytes

/-- At most so many characters. -/
def lossyWithin : ℕ → List UInt8 → List Char
  | 0, _ => []
  | _, [] => []
  | fuel + 1, b :: bytes => (next b bytes).1 :: lossyWithin fuel (next b bytes).2

/-- Each character takes a byte or more. -/
def lossy (bytes : List UInt8) : List Char := lossyWithin bytes.length bytes

/-! ## What was written comes back -/

theorem follow_cons {low high n v : ℕ} (hv : low ≤ v ∧ v ≤ high) (hbyte : high < 256) (due : List (ℕ × ℕ))
    (bytes : List UInt8) :
    follow ((low, high) :: due) n (UInt8.ofNat v :: bytes) = follow due (n * 64 + v % 64) bytes := by
  have htoNat : (UInt8.ofNat v).toNat = v := by
    rw [UInt8.toNat_ofNat']
    omega
  rw [follow, htoNat, if_pos hv]

theorem next_lead {lead : ℕ} {due : List (ℕ × ℕ)} (h : following lead = due) (hne : due ≠ []) (hbyte : lead < 256)
    (hlead : 0x80 ≤ lead) (bytes : List UInt8) :
    next (UInt8.ofNat lead) bytes = follow due (leadValue lead) bytes := by
  have htoNat : (UInt8.ofNat lead).toNat = lead := by
    rw [UInt8.toNat_ofNat']
    omega
  rw [next, htoNat, if_neg (by omega), h]
  cases due with
  | nil => exact absurd rfl hne
  | cons range due => rfl

/-- The next character of an encoded one is that one. -/
theorem next_encoded (c : Char) (rest : List UInt8) :
    ∃ b bytes, String.utf8EncodeChar c ++ rest = b :: bytes ∧ next b bytes = (c, rest) := by
  have hchar : Char.ofNat c.val.toNat = c := Char.ofNat_toNat c
  have hvalid : c.val.toNat < 0xd800 ∨ 0xdfff < c.val.toNat ∧ c.val.toNat < 0x110000 := c.valid
  generalize hv : c.val.toNat = v at hchar hvalid
  unfold String.utf8EncodeChar
  rw [hv]
  dsimp only
  by_cases h1 : v ≤ 0x7f
  · refine ⟨_, _, by rw [if_pos h1, List.cons_append, List.nil_append], ?_⟩
    have htoNat : (UInt8.ofNat v).toNat = v := by
      rw [UInt8.toNat_ofNat']
      omega
    rw [next, htoNat, if_pos (by omega), hchar]
  by_cases h2 : v ≤ 0x7ff
  · refine ⟨_, _, by rw [if_neg h1, if_pos h2, List.cons_append, List.cons_append, List.nil_append], ?_⟩
    have hdue : following (v / 64 % 32 + 192) = [(0x80, 0xBF)] := by
      rw [following, if_pos (by omega)]
    have hvalue : leadValue (v / 64 % 32 + 192) * 64 + (v % 64 + 128) % 64 = v := by
      rw [leadValue, if_pos (by omega)]
      omega
    rw [next_lead hdue (by simp) (by omega) (by omega), follow_cons (by omega) (by omega), follow, hvalue, hchar]
  by_cases h3 : v ≤ 0xffff
  · refine ⟨_, _, by rw [if_neg h1, if_neg h2, if_pos h3, List.cons_append, List.cons_append, List.cons_append,
      List.nil_append], ?_⟩
    have hvalue : (leadValue (v / 4096 % 16 + 224) * 64 + (v / 64 % 64 + 128) % 64) * 64 + (v % 64 + 128) % 64 = v := by
      rw [leadValue, if_neg (by omega), if_pos (by omega)]
      omega
    have hdue : ∃ low high, following (v / 4096 % 16 + 224) = [(low, high), (0x80, 0xBF)] ∧
        (low ≤ v / 64 % 64 + 128 ∧ v / 64 % 64 + 128 ≤ high) ∧ high < 256 := by
      rw [following, if_neg (by omega)]
      by_cases h4 : v / 4096 = 0
      · exact ⟨0xA0, 0xBF, by rw [if_pos (by omega)], by omega, by omega⟩
      by_cases h5 : v / 4096 = 13
      · exact ⟨0x80, 0x9F, by rw [if_neg (by omega), if_pos (by omega)], by omega, by omega⟩
      · exact ⟨0x80, 0xBF, by rw [if_neg (by omega), if_neg (by omega), if_pos (by omega)], by omega, by omega⟩
    obtain ⟨low, high, hdue, hrange, hhigh⟩ := hdue
    rw [next_lead hdue (by simp) (by omega) (by omega), follow_cons hrange hhigh, follow_cons (by omega) (by omega),
      follow, hvalue, hchar]
  · refine ⟨_, _, by rw [if_neg h1, if_neg h2, if_neg h3, List.cons_append, List.cons_append, List.cons_append,
      List.cons_append, List.nil_append], ?_⟩
    have hvalue : ((leadValue (v / 262144 % 8 + 240) * 64 + (v / 4096 % 64 + 128) % 64) * 64 +
        (v / 64 % 64 + 128) % 64) * 64 + (v % 64 + 128) % 64 = v := by
      rw [leadValue, if_neg (by omega), if_neg (by omega)]
      omega
    have hdue : ∃ low high, following (v / 262144 % 8 + 240) = [(low, high), (0x80, 0xBF), (0x80, 0xBF)] ∧
        (low ≤ v / 4096 % 64 + 128 ∧ v / 4096 % 64 + 128 ≤ high) ∧ high < 256 := by
      rw [following, if_neg (by omega), if_neg (by omega), if_neg (by omega), if_neg (by omega)]
      by_cases h4 : v / 262144 = 0
      · exact ⟨0x90, 0xBF, by rw [if_pos (by omega)], by omega, by omega⟩
      by_cases h5 : v / 262144 = 4
      · exact ⟨0x80, 0x8F, by rw [if_neg (by omega), if_neg (by omega), if_pos (by omega)], by omega, by omega⟩
      · exact ⟨0x80, 0xBF, by rw [if_neg (by omega), if_pos (by omega)], by omega, by omega⟩
    obtain ⟨low, high, hdue, hrange, hhigh⟩ := hdue
    rw [next_lead hdue (by simp) (by omega) (by omega), follow_cons hrange hhigh, follow_cons (by omega) (by omega),
      follow_cons (by omega) (by omega), follow, hvalue, hchar]

theorem lossyWithin_encoded (s : List Char) : ∀ fuel, (s.flatMap String.utf8EncodeChar).length ≤ fuel →
    lossyWithin fuel (s.flatMap String.utf8EncodeChar) = s := by
  induction s with
  | nil => intro fuel _; cases fuel <;> rfl
  | cons c s ih =>
    intro fuel hfuel
    obtain ⟨b, bytes, hbytes, hnext⟩ := next_encoded c (s.flatMap String.utf8EncodeChar)
    have hlen : 1 ≤ (String.utf8EncodeChar c).length := by
      rw [String.length_utf8EncodeChar]
      exact Char.utf8Size_pos c
    rw [List.flatMap_cons, List.length_append] at hfuel
    obtain ⟨fuel, rfl⟩ : ∃ less, fuel = less + 1 := ⟨fuel - 1, by omega⟩
    rw [List.flatMap_cons, hbytes, lossyWithin, hnext]
    exact congrArg (c :: ·) (ih fuel (by omega))

/-- A text's bytes are read as the text. -/
theorem lossy_encoded (s : List Char) : lossy (s.flatMap String.utf8EncodeChar) = s := lossyWithin_encoded s _ le_rfl

/-- Only NUL is encoded with a zero byte. -/
theorem zero_not_mem {s : List Char} (h : '\x00' ∉ s) : 0 ∉ s.flatMap String.utf8EncodeChar := by
  intro hmem
  obtain ⟨c, hc, hzero⟩ := List.mem_flatMap.1 hmem
  have hbyte : ∀ v : ℕ, v ≠ 0 → v < 256 → UInt8.ofNat v ≠ 0 := by
    intro v hne hlt heq
    have htoNat := congrArg UInt8.toNat heq
    rw [UInt8.toNat_ofNat'] at htoNat
    exact hne (by rw [Nat.mod_eq_of_lt (by omega)] at htoNat; exact htoNat)
  have hval : c.val.toNat ≠ 0 := fun heq => h (by rwa [← Char.ofNat_toNat c, show c.toNat = 0 from heq] at hc)
  unfold String.utf8EncodeChar at hzero
  dsimp only at hzero
  generalize c.val.toNat = v at hval hzero
  split at hzero
  · rw [List.mem_singleton] at hzero
    exact hbyte v hval (by omega) hzero.symm
  · split at hzero
    · simp only [List.mem_cons, List.not_mem_nil, or_false] at hzero
      rcases hzero with hzero | hzero <;> exact hbyte _ (by omega) (by omega) hzero.symm
    · split at hzero
      · simp only [List.mem_cons, List.not_mem_nil, or_false] at hzero
        rcases hzero with hzero | hzero | hzero <;> exact hbyte _ (by omega) (by omega) hzero.symm
      · simp only [List.mem_cons, List.not_mem_nil, or_false] at hzero
        rcases hzero with hzero | hzero | hzero | hzero <;> exact hbyte _ (by omega) (by omega) hzero.symm

end Utf8
