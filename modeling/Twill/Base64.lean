/-
Base64 (`value.rs`, `datapath.rs`, `ffi.rs`): the engine's encoder and decoder, the server's
encoder, and the binding of a blob.
-/
import Twill.RowKeys
import Twill.StringLiterals
import Twill.Server.JsonBody

namespace Twill

/-- `u8::is_ascii_whitespace`. -/
def isAsciiSpace (b : UInt8) : Bool := b == 32 || b == 9 || b == 10 || b == 12 || b == 13

/-- `val`: the six bits of a byte of the alphabet. -/
def base64Value (c : UInt8) : Option UInt32 :=
  if 65 ≤ c ∧ c ≤ 90 then some (c - 65).toUInt32
  else if 97 ≤ c ∧ c ≤ 122 then some (c - 97 + 26).toUInt32
  else if 48 ≤ c ∧ c ≤ 57 then some (c - 48 + 52).toUInt32
  else if c = 43 then some 62
  else if c = 47 then some 63
  else none

/-- One turn over a chunk: the bits read so far and the padding seen. -/
def base64Step (acc : UInt32 × Nat) (c : UInt8) : Option (UInt32 × Nat) :=
  if c = 61 then some (acc.1 <<< 6, acc.2 + 1)
  else (base64Value c).map fun v => (acc.1 <<< 6 ||| v, acc.2)

/-- The bytes of a chunk of four. -/
def base64Quad (chunk : List UInt8) : Option (List UInt8) := do
  let (n, pad) ← chunk.foldlM base64Step (0, 0)
  return (n >>> 16).toUInt8 :: ((if pad < 2 then [(n >>> 8).toUInt8] else []) ++ if pad < 1 then [n.toUInt8] else [])

/-- The chunks of `base64_decode`; a last one of fewer than four bytes is refused, whatever it
holds. -/
def base64Quads : List UInt8 → Option (List UInt8)
  | [] => some []
  | a :: b :: c :: d :: rest => do return (← base64Quad [a, b, c, d]) ++ (← base64Quads rest)
  | _ => none

/-- `base64_decode`, from the bytes of the text. -/
def base64Decode (s : String) : Option (List UInt8) :=
  base64Quads ((s.toList.flatMap String.utf8EncodeChar).filter fun b => !isAsciiSpace b)

/-- `decode_param`: the typed encoding of a parameter; its first character is the type. -/
def decodeParam (P : Prims) (s : String) : Value := match s.toList with
  | 'i' :: rest => .int ((parseI64 (trimText (String.ofList rest))).getD 0)
  | 'f' :: rest => .real ((P.parseF64 (trimText (String.ofList rest))).getD 0)
  | 's' :: rest => .text (String.ofList rest)
  | 'b' :: rest => .blob ((base64Decode (String.ofList rest)).getD [])
  | 'n' :: _ => .null
  | 'v' :: rest => match parseVector P (String.ofList rest) with
    | some v => .vector v
    | none => .text (String.ofList rest)
  | _ => .text s

/-! ## The alphabet -/

/-- The byte of a digit. -/
def base64Byte (n : Nat) : UInt8 := (b64Char n).val.toUInt8

theorem b64Char_mod (n : Nat) : b64Char n = b64Char (n % 64) := by
  rw [b64Char, b64Char, Nat.mod_mod]

/-- A digit is one byte, no padding and no space, and stands for its six bits. -/
theorem base64_digit : ∀ n < 64, String.utf8EncodeChar (b64Char n) = [base64Byte n] ∧ base64Byte n ≠ 61 ∧
    isAsciiSpace (base64Byte n) = false ∧ base64Value (base64Byte n) = some (UInt32.ofNat n) := by
  decide +kernel

/-! ## A chunk read back -/

/-- Six more bits. -/
theorem toNat_shift_or {m : UInt32} {n : Nat} (hm : m.toNat < 2 ^ 18) (hn : n < 64) :
    (m <<< 6 ||| UInt32.ofNat n).toNat = m.toNat * 64 + n := by
  have hshift : (m <<< 6).toNat = m.toNat * 64 := by
    rw [UInt32.toNat_shiftLeft]
    change m.toNat <<< 6 % 2 ^ 32 = _
    rw [Nat.shiftLeft_eq]
    omega
  rw [UInt32.toNat_or, hshift, UInt32.toNat_ofNat']
  have hmod : n % 2 ^ 32 = n := Nat.mod_eq_of_lt (by omega)
  rw [hmod, show m.toNat * 64 = m.toNat <<< 6 by rw [Nat.shiftLeft_eq], ← Nat.shiftLeft_add_eq_or_of_lt (by omega)]

/-- A digit is six bits. -/
theorem base64Step_digit {m : UInt32} (hm : m.toNat < 2 ^ 18) (pad n : Nat) :
    ∃ m', base64Step (m, pad) (base64Byte n) = some (m', pad) ∧ m'.toNat = m.toNat * 64 + n % 64 := by
  have hn : n % 64 < 64 := Nat.mod_lt n (by decide)
  have hbyte : base64Byte n = base64Byte (n % 64) := by rw [base64Byte, b64Char_mod, base64Byte]
  obtain ⟨-, hpad, -, hvalue⟩ := base64_digit (n % 64) hn
  refine ⟨_, ?_, toNat_shift_or hm hn⟩
  rw [hbyte, base64Step, if_neg hpad, hvalue]
  rfl

/-- Padding is six zero bits. -/
theorem base64Step_pad {m : UInt32} (hm : m.toNat < 2 ^ 18) (pad : Nat) :
    ∃ m', base64Step (m, pad) 61 = some (m', pad + 1) ∧ m'.toNat = m.toNat * 64 := by
  refine ⟨m <<< 6, rfl, ?_⟩
  have h := toNat_shift_or hm (n := 0) (by decide)
  have hzero : m <<< 6 ||| UInt32.ofNat 0 = m <<< 6 := UInt32.or_zero
  rw [hzero] at h
  exact h

theorem bytes_of_toNat {n : UInt32} {x y z : UInt8} (h : n.toNat = x.toNat * 2 ^ 16 + y.toNat * 2 ^ 8 + z.toNat) :
    (n >>> 16).toUInt8 = x ∧ (n >>> 8).toUInt8 = y ∧ n.toUInt8 = z := by
  have hx := x.toNat_lt
  have hy := y.toNat_lt
  have hz := z.toNat_lt
  have h16 : (n >>> 16).toNat = n.toNat / 2 ^ 16 := by
    rw [UInt32.toNat_shiftRight]
    exact Nat.shiftRight_eq_div_pow _ _
  have h8 : (n >>> 8).toNat = n.toNat / 2 ^ 8 := by
    rw [UInt32.toNat_shiftRight]
    exact Nat.shiftRight_eq_div_pow _ _
  refine ⟨?_, ?_, ?_⟩ <;> rw [← UInt8.toNat_inj, UInt32.toNat_toUInt8]
  · rw [h16]
    omega
  · rw [h8]
    omega
  · omega

/-- The bytes of a chunk whose bits and padding are known. -/
theorem base64Quad_of_fold {chunk : List UInt8} {n : UInt32} {pad : Nat} {x y z : UInt8}
    (hfold : chunk.foldlM base64Step (0, 0) = some (n, pad))
    (h : n.toNat = x.toNat * 2 ^ 16 + y.toNat * 2 ^ 8 + z.toNat) :
    base64Quad chunk = some (x :: ((if pad < 2 then [y] else []) ++ if pad < 1 then [z] else [])) := by
  obtain ⟨hx, hy, hz⟩ := bytes_of_toNat h
  unfold base64Quad
  rw [hfold, ← hx, ← hy, ← hz]
  rfl

theorem foldlM_four {f : UInt32 × Nat → UInt8 → Option (UInt32 × Nat)} {s₀ s₁ s₂ s₃ s₄ : UInt32 × Nat} {a b c d : UInt8}
    (h₁ : f s₀ a = some s₁) (h₂ : f s₁ b = some s₂) (h₃ : f s₂ c = some s₃) (h₄ : f s₃ d = some s₄) :
    [a, b, c, d].foldlM f s₀ = some s₄ := by
  simp [h₁, h₂, h₃, h₄]

/-- A chunk of one byte. -/
theorem base64Quad_one (a : UInt8) : base64Quad [base64Byte (a.toNat * 2 ^ 16 / 2 ^ 18),
    base64Byte (a.toNat * 2 ^ 16 / 2 ^ 12), 61, 61] = some [a] := by
  have ha := a.toNat_lt
  obtain ⟨n₁, h₁, hn₁⟩ := base64Step_digit (m := 0) (by decide) 0 (a.toNat * 2 ^ 16 / 2 ^ 18)
  rw [UInt32.toNat_zero] at hn₁
  obtain ⟨n₂, h₂, hn₂⟩ := base64Step_digit (m := n₁) (by omega) 0 (a.toNat * 2 ^ 16 / 2 ^ 12)
  obtain ⟨n₃, h₃, hn₃⟩ := base64Step_pad (m := n₂) (by omega) 0
  obtain ⟨n₄, h₄, hn₄⟩ := base64Step_pad (m := n₃) (by omega) 1
  refine base64Quad_of_fold (y := 0) (z := 0) (foldlM_four h₁ h₂ h₃ h₄) ?_
  rw [UInt8.toNat_zero]
  omega

/-- A chunk of two bytes. -/
theorem base64Quad_two (a b : UInt8) :
    let n := a.toNat * 2 ^ 16 + b.toNat * 2 ^ 8
    base64Quad [base64Byte (n / 2 ^ 18), base64Byte (n / 2 ^ 12), base64Byte (n / 2 ^ 6), 61] = some [a, b] := by
  intro n
  have hn : n = a.toNat * 2 ^ 16 + b.toNat * 2 ^ 8 := rfl
  have ha := a.toNat_lt
  have hb := b.toNat_lt
  obtain ⟨n₁, h₁, hn₁⟩ := base64Step_digit (m := 0) (by decide) 0 (n / 2 ^ 18)
  rw [UInt32.toNat_zero] at hn₁
  obtain ⟨n₂, h₂, hn₂⟩ := base64Step_digit (m := n₁) (by omega) 0 (n / 2 ^ 12)
  obtain ⟨n₃, h₃, hn₃⟩ := base64Step_digit (m := n₂) (by omega) 0 (n / 2 ^ 6)
  obtain ⟨n₄, h₄, hn₄⟩ := base64Step_pad (m := n₃) (by omega) 0
  refine base64Quad_of_fold (z := 0) (foldlM_four h₁ h₂ h₃ h₄) ?_
  rw [UInt8.toNat_zero]
  omega

/-- A chunk of three bytes. -/
theorem base64Quad_three (a b c : UInt8) :
    let n := a.toNat * 2 ^ 16 + b.toNat * 2 ^ 8 + c.toNat
    base64Quad [base64Byte (n / 2 ^ 18), base64Byte (n / 2 ^ 12), base64Byte (n / 2 ^ 6), base64Byte n] =
      some [a, b, c] := by
  intro n
  have hn : n = a.toNat * 2 ^ 16 + b.toNat * 2 ^ 8 + c.toNat := rfl
  have ha := a.toNat_lt
  have hb := b.toNat_lt
  have hc := c.toNat_lt
  obtain ⟨n₁, h₁, hn₁⟩ := base64Step_digit (m := 0) (by decide) 0 (n / 2 ^ 18)
  rw [UInt32.toNat_zero] at hn₁
  obtain ⟨n₂, h₂, hn₂⟩ := base64Step_digit (m := n₁) (by omega) 0 (n / 2 ^ 12)
  obtain ⟨n₃, h₃, hn₃⟩ := base64Step_digit (m := n₂) (by omega) 0 (n / 2 ^ 6)
  obtain ⟨n₄, h₄, hn₄⟩ := base64Step_digit (m := n₃) (by omega) 0 n
  refine base64Quad_of_fold (foldlM_four h₁ h₂ h₃ h₄) ?_
  omega

/-! ## Texts -/

/-- The bytes of a text. -/
def utf8Of (s : List Char) : List UInt8 := s.flatMap String.utf8EncodeChar

theorem utf8_digit (n : Nat) : String.utf8EncodeChar (b64Char n) = [base64Byte n] := by
  rw [base64Byte, b64Char_mod]
  exact (base64_digit (n % 64) (Nat.mod_lt n (by decide))).1

theorem base64Quads_chars (b : List UInt8) : base64Quads (utf8Of (base64Chars b)) = some b := by
  have hpad : String.utf8EncodeChar '=' = [61] := by decide
  induction b using base64Chars.induct with
  | case1 => rfl
  | case2 a =>
    simp only [base64Chars, utf8Of, List.flatMap_cons, List.flatMap_nil, utf8_digit, hpad, List.cons_append,
      List.nil_append, base64Quads, base64Quad_one]
    rfl
  | case3 a b =>
    simp only [base64Chars, utf8Of, List.flatMap_cons, List.flatMap_nil, utf8_digit, hpad, List.cons_append,
      List.nil_append, base64Quads, base64Quad_two]
    rfl
  | case4 a b c rest ih =>
    simp only [base64Chars, utf8Of, List.flatMap_cons, utf8_digit, List.cons_append, List.nil_append, base64Quads,
      base64Quad_three]
    rw [show base64Quads (List.flatMap String.utf8EncodeChar (base64Chars rest)) = some rest from ih]
    rfl

/-- White space in a text is white space in its bytes. -/
theorem filter_utf8 (c : Char) : (String.utf8EncodeChar c).filter (fun b => !isAsciiSpace b) =
    if isAsciiWhitespace c then [] else String.utf8EncodeChar c := by
  by_cases hc : c.toNat < 128
  · have hall : ∀ n < 128, (String.utf8EncodeChar (Char.ofNat n)).filter (fun b => !isAsciiSpace b) =
        if isAsciiWhitespace (Char.ofNat n) then [] else String.utf8EncodeChar (Char.ofNat n) := by
      decide +kernel
    have := hall c.toNat hc
    rwa [Char.ofNat_toNat] at this
  · have hhigh : ∀ b ∈ String.utf8EncodeChar c, 128 ≤ b.toNat := by
      intro b hb
      have hmem : Char.ofNat b.toNat ∈ byteChar c := List.mem_map.2 ⟨b, hb, rfl⟩
      have hle := le_of_mem_byteChar (by omega) hmem
      have hvalid : b.toNat.isValidChar := .inl (by have := b.toNat_lt; omega)
      rw [Char.ofNat, dif_pos hvalid] at hle
      exact hle
    have hspace : isAsciiWhitespace c = false := by
      simp only [isAsciiWhitespace, Bool.or_eq_false_iff, beq_eq_false_iff_ne]
      refine ⟨⟨⟨⟨?_, ?_⟩, ?_⟩, ?_⟩, ?_⟩ <;> rintro rfl <;> exact hc (by decide)
    rw [hspace, if_neg (by simp), List.filter_eq_self]
    intro b hb
    have hle := hhigh b hb
    simp only [isAsciiSpace, Bool.not_eq_true', Bool.or_eq_false_iff, beq_eq_false_iff_ne]
    refine ⟨⟨⟨⟨?_, ?_⟩, ?_⟩, ?_⟩, ?_⟩ <;> rintro rfl <;> exact absurd hle (by decide)

theorem filter_utf8Of (s : List Char) : (utf8Of s).filter (fun b => !isAsciiSpace b) =
    utf8Of (s.filter fun c => !isAsciiWhitespace c) := by
  induction s with
  | nil => rfl
  | cons c s ih =>
    have hcons : utf8Of (c :: s) = String.utf8EncodeChar c ++ utf8Of s := rfl
    rw [hcons, List.filter_append, ih, filter_utf8, List.filter_cons]
    cases isAsciiWhitespace c <;> rfl

theorem b64Char_not_space (n : Nat) : isAsciiWhitespace (b64Char n) = false := by
  have hall : ∀ n < 64, isAsciiWhitespace (b64Char n) = false := by decide +kernel
  rw [b64Char_mod]
  exact hall _ (Nat.mod_lt n (by decide))

theorem filter_base64Chars (b : List UInt8) : (base64Chars b).filter (fun c => !isAsciiWhitespace c) = base64Chars b := by
  have hpad : isAsciiWhitespace '=' = false := by decide
  induction b using base64Chars.induct with
  | case1 => rfl
  | case2 a => simp [base64Chars, b64Char_not_space, hpad]
  | case3 a b => simp [base64Chars, b64Char_not_space, hpad]
  | case4 a b c rest ih => simpa [base64Chars, b64Char_not_space] using ih

/-- The decoder does not see white space. -/
theorem base64Decode_filter (s : String) :
    base64Decode s = base64Decode (String.ofList (s.toList.filter fun c => !isAsciiWhitespace c)) := by
  unfold base64Decode
  rw [String.toList_ofList]
  change base64Quads ((utf8Of _).filter _) = base64Quads ((utf8Of _).filter _)
  rw [filter_utf8Of, filter_utf8Of, List.filter_filter]
  simp

theorem base64Decode_encode (b : List UInt8) : base64Decode (base64Encode b) = some b := by
  unfold base64Decode base64Encode
  rw [String.toList_ofList]
  change base64Quads ((utf8Of _).filter _) = _
  rw [filter_utf8Of, filter_base64Chars, base64Quads_chars]

theorem length_base64Chars (b : List UInt8) : (base64Chars b).length = 4 * ((b.length + 2) / 3) := by
  induction b using base64Chars.induct with
  | case1 => rfl
  | case2 a => simp [base64Chars]
  | case3 a b => simp [base64Chars]
  | case4 a b c rest ih =>
    simp only [base64Chars, List.length_cons, ih]
    omega

/-! ## The server's encoder -/

/-- Three bytes side by side. -/
theorem toNat_packed (a b c : UInt8) : (a.toUInt32 <<< 16 ||| b.toUInt32 <<< 8 ||| c.toUInt32).toNat =
    a.toNat * 2 ^ 16 + b.toNat * 2 ^ 8 + c.toNat := by
  have ha := a.toNat_lt
  have hb := b.toNat_lt
  have hc := c.toNat_lt
  have h16 : (a.toUInt32 <<< 16).toNat = a.toNat <<< 16 := by
    rw [UInt32.toNat_shiftLeft, UInt8.toNat_toUInt32]
    change a.toNat <<< 16 % 2 ^ 32 = _
    rw [Nat.shiftLeft_eq]
    omega
  have h8 : (b.toUInt32 <<< 8).toNat = b.toNat * 2 ^ 8 := by
    rw [UInt32.toNat_shiftLeft, UInt8.toNat_toUInt32]
    change b.toNat <<< 8 % 2 ^ 32 = _
    rw [Nat.shiftLeft_eq]
    omega
  have hhigh : a.toNat <<< 16 + b.toNat * 2 ^ 8 = (a.toNat * 2 ^ 8 + b.toNat) <<< 8 := by
    rw [Nat.shiftLeft_eq, Nat.shiftLeft_eq]
    omega
  rw [UInt32.toNat_or, UInt32.toNat_or, h16, h8, UInt8.toNat_toUInt32, ← Nat.shiftLeft_add_eq_or_of_lt (by omega), hhigh,
    ← Nat.shiftLeft_add_eq_or_of_lt (by omega), Nat.shiftLeft_eq]
  omega

/-- A digit of the table. -/
theorem getD_shifted (n k : UInt32) (hk : k.toNat < 32) :
    b64Alphabet.getD (n >>> k &&& 63).toNat '=' = b64Char (n.toNat / 2 ^ k.toNat) := by
  have hand : (n >>> k &&& 63).toNat = n.toNat / 2 ^ k.toNat % 64 := by
    rw [UInt32.toNat_and, UInt32.toNat_shiftRight, Nat.mod_eq_of_lt hk, Nat.shiftRight_eq_div_pow]
    exact Nat.and_two_pow_sub_one_eq_mod _ 6
  rw [hand, b64Char]

/-- The digits of three bytes side by side. -/
theorem getD_packed (a b c : UInt8) :
    let packed := a.toUInt32 <<< 16 ||| b.toUInt32 <<< 8 ||| c.toUInt32
    let n := a.toNat * 2 ^ 16 + b.toNat * 2 ^ 8 + c.toNat
    b64Alphabet.getD (packed >>> 18 &&& 63).toNat '=' = b64Char (n / 2 ^ 18) ∧
      b64Alphabet.getD (packed >>> 12 &&& 63).toNat '=' = b64Char (n / 2 ^ 12) ∧
      b64Alphabet.getD (packed >>> 6 &&& 63).toNat '=' = b64Char (n / 2 ^ 6) ∧
      b64Alphabet.getD (packed &&& 63).toNat '=' = b64Char n := by
  intro packed n
  have hn : packed.toNat = n := toNat_packed a b c
  rw [← hn]
  refine ⟨getD_shifted packed 18 (by decide), getD_shifted packed 12 (by decide), getD_shifted packed 6 (by decide), ?_⟩
  have h := getD_shifted packed 0 (by decide)
  rwa [UInt32.shiftRight_zero, UInt32.toNat_zero, Nat.pow_zero, Nat.div_one] at h

/-- The two encoders write the same. -/
theorem server_base64_eq (b : List UInt8) : Server.JsonBody.base64 b = base64Chars b := by
  induction b using base64Chars.induct with
  | case1 => rfl
  | case2 a =>
    obtain ⟨h18, h12, -, -⟩ := getD_packed a 0 0
    change [_, _, '=', '='] = _
    rw [base64Chars]
    simp only [UInt8.toNat_zero, Nat.zero_mul, Nat.add_zero] at h18 h12
    exact congrArg₂ (fun x y => [x, y, '=', '=']) h18 h12
  | case3 a b =>
    obtain ⟨h18, h12, h6, -⟩ := getD_packed a b 0
    change [_, _, _, '='] = _
    rw [base64Chars]
    simp only [UInt8.toNat_zero, Nat.add_zero] at h18 h12 h6
    rw [← h18, ← h12, ← h6]
    rfl
  | case4 a b c rest ih =>
    obtain ⟨h18, h12, h6, h0⟩ := getD_packed a b c
    rw [Server.JsonBody.base64, base64Chars, ih, ← h18, ← h12, ← h6, ← h0]
    rfl

/-! ## The codec -/

/-- **Base64.** What the engine encodes it decodes, also with white space put anywhere into it; the
length is four for every three bytes; the server writes the same text; and a blob bound by its
rendering is that blob. -/
theorem base64_codec (P : Prims) (b : List UInt8) :
    base64Decode (base64Encode b) = some b ∧
    (base64Encode b).length = 4 * ((b.length + 2) / 3) ∧
    String.ofList (Server.JsonBody.base64 b) = base64Encode b ∧
    (∀ s : String, (s.toList.filter fun c => !isAsciiWhitespace c) = (base64Encode b).toList → base64Decode s = some b) ∧
    decodeParam P ("b" ++ textOf P (.blob b)) = .blob b := by
  refine ⟨base64Decode_encode b, ?_, ?_, fun s hs => ?_, ?_⟩
  · rw [base64Encode, String.length_ofList, length_base64Chars]
  · rw [server_base64_eq, base64Encode]
  · rw [base64Decode_filter, hs, String.ofList_toList, base64Decode_encode]
  · have htext : ("b" ++ textOf P (.blob b)).toList = 'b' :: (base64Encode b).toList := by
      rw [String.toList_append]
      rfl
    unfold decodeParam
    rw [htext]
    change Value.blob ((base64Decode (String.ofList (base64Encode b).toList)).getD []) = _
    rw [String.ofList_toList, base64Decode_encode]
    rfl

end Twill
