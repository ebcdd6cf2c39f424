/-
String literals in SQL text (`lex_string`). The lexer takes a literal byte by
byte and makes a character of each, so a literal carries the bytes of its text
spelled as characters (`byteText`): the text itself exactly when every
character is a single byte.
-/
import Twill.Lib.Except
import Twill.Lex

namespace Twill

/-- A character inside a literal: a quote is written twice. -/
def literalChar (c : Char) : List Char := if c = '\'' then ['\'', '\''] else [c]

/-- A text between quotes. -/
def literal (s : List Char) : List Char := '\'' :: (s.flatMap literalChar ++ ['\''])

/-- The bytes of a character, each as a character. -/
def byteChar (c : Char) : List Char := (String.utf8EncodeChar c).map fun b => Char.ofNat b.toNat

def byteText (s : List Char) : List Char := s.flatMap byteChar

/-! ## What a literal is read as -/

theorem lexString_cons {c : Char} (hc : c ≠ '\'') (r : List Char) :
    lexString (c :: r) = (lexString r).map fun s => (byteChar c ++ s.1, s.2) := by
  rw [lexString]
  · rfl
  · rintro _ rfl
    exact absurd rfl hc
  · exact hc

/-- The literal of a text, up to what follows it: not another quote. -/
theorem lexString_literal (s : List Char) {rest : List Char} (hrest : rest.head? ≠ some '\'') :
    lexString (s.flatMap literalChar ++ '\'' :: rest) = some (byteText s, rest) := by
  induction s with
  | nil =>
    cases rest with
    | nil => rfl
    | cons d rest =>
      have hd : d ≠ '\'' := fun h => hrest (by rw [h]; rfl)
      rw [List.flatMap_nil, List.nil_append, lexString]
      · rfl
      · rintro _ ⟨⟩
        exact hd rfl
  | cons c s ih =>
    rw [List.flatMap_cons, List.append_assoc, byteText, List.flatMap_cons]
    by_cases hc : c = '\''
    · subst hc
      have hstep : lexString ('\'' :: '\'' :: (s.flatMap literalChar ++ '\'' :: rest)) =
          (lexString (s.flatMap literalChar ++ '\'' :: rest)).map fun s => ('\'' :: s.1, s.2) := by
        rw [lexString]
      change lexString ('\'' :: '\'' :: (s.flatMap literalChar ++ '\'' :: rest)) = _
      rw [hstep, ih]
      rfl
    · rw [literalChar, if_neg hc, List.singleton_append, lexString_cons hc, ih]
      rfl

/-- A literal in a longer text: one token, and the rest is read on. -/
theorem lexOne_literal (s rest : List Char) (hrest : rest.head? ≠ some '\'') :
    lexOne '\'' (s.flatMap literalChar ++ '\'' :: rest) = .ok (some (.str (String.ofList (byteText s))), rest) := by
  have hlonger : lexLonger '\'' (s.flatMap literalChar ++ '\'' :: rest) =
      .ok (.str (String.ofList (byteText s)), rest) := by
    simp only [lexLonger, Char.reduceEq, if_false, if_true, lexString_literal s hrest]
  simp [lexOne, isAsciiWhitespace, simpleToken, hlonger, Except.map]

theorem lexLoop_nil (fuel : ℕ) : lexLoop fuel [] = .ok [.eof] := by
  cases fuel <;> rfl

theorem lex_literal (s : List Char) : lex (literal s) = .ok [.str (String.ofList (byteText s)), .eof] := by
  have hlen : (literal s).length = (s.flatMap literalChar ++ ['\'']).length + 1 := rfl
  have hone := lexOne_literal s [] (by simp)
  unfold lex
  rw [hlen, literal, lexLoop, hone]
  change (lexLoop (s.flatMap literalChar ++ ['\'']).length [] >>= fun toks => _) = _
  rw [lexLoop_nil]
  rfl

/-! ## The text itself -/

theorem byteChar_ascii {c : Char} (h : c.toNat < 128) : byteChar c = [c] := by
  have hsize : c.utf8Size = 1 := Char.utf8Size_eq_one_iff.2 (by
    rw [UInt32.le_iff_toNat_le]
    exact Nat.le_of_lt_succ h)
  have hval : c.val.toNat < 256 := by
    change c.val.toNat < 128 at h
    omega
  have hbyte : c.val.toUInt8.toNat = c.toNat := Nat.mod_eq_of_lt hval
  unfold byteChar
  rw [String.utf8EncodeChar_eq_singleton hsize, List.map_singleton, hbyte, Char.ofNat_toNat]

/-- No byte of a longer character is one of ASCII. -/
theorem le_of_mem_byteChar {c d : Char} (hc : 128 ≤ c.toNat) (hd : d ∈ byteChar c) : 128 ≤ d.toNat := by
  obtain ⟨b, hb, rfl⟩ := List.mem_map.1 hd
  have htoNat : (Char.ofNat b.toNat).toNat = b.toNat := by
    have hvalid : b.toNat.isValidChar := .inl (by have := b.toNat_lt; omega)
    rw [Char.ofNat, dif_pos hvalid]
    rfl
  have hbyte : ∀ v : ℕ, 128 ≤ v → v < 256 → b = UInt8.ofNat v → 128 ≤ b.toNat := by
    rintro v hge hlt rfl
    rw [UInt8.toNat_ofNat']
    omega
  rw [htoNat]
  change 128 ≤ c.val.toNat at hc
  have hmax : c.val.toNat < 1114112 := by
    have hvalid : c.val.toNat < 0xd800 ∨ 0xdfff < c.val.toNat ∧ c.val.toNat < 0x110000 := c.valid
    omega
  unfold String.utf8EncodeChar at hb
  dsimp only at hb
  generalize c.val.toNat = v at hc hb hmax
  split at hb
  · omega
  · split at hb
    · simp only [List.mem_cons, List.not_mem_nil, or_false] at hb
      rcases hb with hb | hb <;> exact hbyte _ (by omega) (by omega) hb
    · split at hb
      · simp only [List.mem_cons, List.not_mem_nil, or_false] at hb
        rcases hb with hb | hb | hb <;> exact hbyte _ (by omega) (by omega) hb
      · simp only [List.mem_cons, List.not_mem_nil, or_false] at hb
        rcases hb with hb | hb | hb | hb <;> exact hbyte _ (by omega) (by omega) hb

theorem length_byteChar (c : Char) : (byteChar c).length = c.utf8Size := by
  simp [byteChar]

theorem length_le_byteText (s : List Char) : s.length ≤ (byteText s).length := by
  induction s with
  | nil => exact Nat.le_refl _
  | cons c s ih =>
    rw [byteText, List.flatMap_cons, List.length_append, length_byteChar]
    have hpos := Char.utf8Size_pos c
    change s.length ≤ (s.flatMap byteChar).length at ih
    rw [List.length_cons]
    omega

/-- A text is the characters of its bytes exactly when each of its characters is one byte. -/
theorem byteText_eq_self {s : List Char} : byteText s = s ↔ ∀ c ∈ s, c.toNat < 128 := by
  constructor
  · intro h
    have hlen : (byteText s).length = s.length := congrArg List.length h
    clear h
    induction s with
    | nil => simp
    | cons c s ih =>
      rw [byteText, List.flatMap_cons, List.length_append, length_byteChar, List.length_cons] at hlen
      have hpos := Char.utf8Size_pos c
      have hle := length_le_byteText s
      change _ + (byteText s).length = _ at hlen
      have hone : c.utf8Size = 1 := by omega
      have hval := UInt32.le_iff_toNat_le.1 (Char.utf8Size_eq_one_iff.1 hone)
      intro d hd
      rcases List.mem_cons.1 hd with rfl | hd
      · exact Nat.lt_succ_of_le hval
      · exact ih (by omega) d hd
  · intro h
    induction s with
    | nil => rfl
    | cons c s ih =>
      rw [byteText, List.flatMap_cons, byteChar_ascii (h c List.mem_cons_self)]
      exact congrArg (c :: ·) (ih fun d hd => h d (List.mem_cons_of_mem c hd))

theorem ofList_byteText_eq {s : String} :
    String.ofList (byteText s.toList) = s ↔ ∀ c ∈ s.toList, c.toNat < 128 := by
  rw [← byteText_eq_self]
  constructor
  · intro h
    have := congrArg String.toList h
    rwa [String.toList_ofList] at this
  · intro h
    rw [h, String.ofList_toList]

end Twill
