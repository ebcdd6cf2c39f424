/-
What JSON bodies are read as (`datapath.rs`: `json_rows`), over every text that RFC 8259 allows.

A text of a document is read as the document (`Reads`), one rule for each form of it and by
induction for all. So what a body yields is a question about single literals: an integer goes
through binary64, an escape is a character of its own, a nested value is dropped.
-/
import Twill.JsonText
import Twill.Server.JsonBody

namespace Twill.Server.JsonBody

open Json (ws isNumberChar parseF64 shortEscape hexDigit charOrReplacement quoteChar nearestDecimal splitSign digitsValue
  exponent Piece HexDigit codeUnit denote)

/-! ## Strings -/

theorem stringRest_quote (cs : List Char) : stringRest ('"' :: cs) = .ok ([], cs) := by
  rw [stringRest.eq_def]
  exact if_pos rfl

theorem stringRest_short {e d : Char} (h : shortEscape e = some d) (cs : List Char) :
    stringRest ('\\' :: e :: cs) = (stringRest cs).map fun (s, cs) => (d :: s, cs) := by
  rw [stringRest.eq_def]
  simp [h]

theorem stringRest_unicode {a b c d : Char} {code : ℕ} (h : fromStrRadix16 [a, b, c, d] = some code) (cs : List Char) :
    stringRest ('\\' :: 'u' :: a :: b :: c :: d :: cs) =
      (stringRest cs).map fun (s, cs) => (charOrReplacement code :: s, cs) := by
  have hu : shortEscape 'u' = none := by decide
  rw [stringRest.eq_def]
  simp [hu, h]

theorem stringRest_plain {c : Char} (hquote : c ≠ '"') (hslash : c ≠ '\\') (cs : List Char) :
    stringRest (c :: cs) = (stringRest cs).map fun (s, cs) => (c :: s, cs) := by
  rw [stringRest.eq_def]
  dsimp only
  rw [if_neg hquote, if_neg hslash]

theorem fromStrRadix16_digits {a b c d : Char} {i j k l : ℕ} (ha : hexDigit a = some i) (hb : hexDigit b = some j)
    (hc : hexDigit c = some k) (hd : hexDigit d = some l) :
    fromStrRadix16 [a, b, c, d] = some (((i * 16 + j) * 16 + k) * 16 + l) := by
  have hsign : a ≠ '+' := by
    rintro rfl
    have hplus : hexDigit '+' = none := by decide
    rw [hplus] at ha
    cases ha
  have hdigits : dropPlus [a, b, c, d] = [a, b, c, d] := by
    unfold dropPlus
    split
    · next heq => exact absurd (List.cons.inj heq).1 hsign
    · rfl
  rw [fromStrRadix16, hdigits]
  simp [List.foldlM, ha, hb, hc, hd]

/-- Each piece of a literal is one step of the reader. -/
theorem stringRest_piece (p : Piece) (cs : List Char) :
    stringRest (p.text ++ cs) = (stringRest cs).map fun (s, cs) => (p.read :: s, cs) := by
  cases p with
  | plain c h => exact stringRest_plain h.2.1 h.2.2 cs
  | short e d h => exact stringRest_short (Json.shortEscape_of_mem h) cs
  | unicode h₁ h₂ h₃ h₄ =>
    exact stringRest_unicode (fromStrRadix16_digits (Json.hexDigit_char h₁) (Json.hexDigit_char h₂)
      (Json.hexDigit_char h₃) (Json.hexDigit_char h₄)) cs

theorem stringRest_pieces (ps : List Piece) (rest : List Char) :
    stringRest (ps.flatMap Piece.text ++ '"' :: rest) = .ok (ps.map Piece.read, rest) := by
  induction ps with
  | nil => exact stringRest_quote rest
  | cons p ps ih =>
    rw [List.flatMap_cons, List.append_assoc, stringRest_piece, ih]
    rfl

/-- The string that the reader makes of a literal. -/
def readPieces (ps : List Piece) : String := String.ofList (ps.map Piece.read)

/-- The literal of these pieces. -/
def quoted (ps : List Piece) : List Char := '"' :: (ps.flatMap Piece.text ++ ['"'])

theorem string_quoted (ps : List Piece) (rest : List Char) :
    string (quoted ps ++ rest) = .ok (readPieces ps, rest) := by
  have hlist : quoted ps ++ rest = '"' :: (ps.flatMap Piece.text ++ '"' :: rest) := by simp [quoted]
  rw [hlist]
  change (stringRest (ps.flatMap Piece.text ++ '"' :: rest)).map _ = _
  rw [stringRest_pieces]
  rfl

/-- The pieces that the writer makes of a character: one, read as that character. -/
theorem exists_piece (c : Char) : ∃ p : Piece, p.text = quoteChar c ∧ p.read = c := by
  by_cases hcontrol : c.toNat < 0x20
  · have hall : ∀ n < 0x20, ∃ p : Piece, p.text = quoteChar (Char.ofNat n) ∧ p.read = Char.ofNat n := by
      intro n hn
      by_cases hshort : n = 9 ∨ n = 10 ∨ n = 13
      · rcases hshort with rfl | rfl | rfl
        · exact ⟨.short 't' '\t' (by decide), by decide, by decide⟩
        · exact ⟨.short 'n' '\n' (by decide), by decide, by decide⟩
        · exact ⟨.short 'r' '\r' (by decide), by decide, by decide⟩
      · refine ⟨.unicode ⟨0, false⟩ ⟨0, false⟩ ⟨Fin.ofNat 16 (n / 16), false⟩ ⟨Fin.ofNat 16 (n % 16), false⟩, ?_, ?_⟩
        · interval_cases n <;> first | (exfalso; omega) | decide
        · interval_cases n <;> decide
    have hc := hall c.toNat hcontrol
    rwa [Char.ofNat_toNat] at hc
  · by_cases hquote : c = '"'
    · subst hquote
      exact ⟨.short '"' '"' (by decide), by decide, rfl⟩
    by_cases hslash : c = '\\'
    · subst hslash
      exact ⟨.short '\\' '\\' (by decide), by decide, rfl⟩
    refine ⟨.plain c ⟨by omega, hquote, hslash⟩, ?_, rfl⟩
    have hnot {d : Char} (hd : d.toNat < 0x20) : c ≠ d := by
      rintro rfl
      exact hcontrol hd
    unfold quoteChar
    rw [if_neg hquote, if_neg hslash, if_neg (hnot (by decide)), if_neg (hnot (by decide)), if_neg (hnot (by decide)),
      if_neg hcontrol]
    rfl

/-- What the writer writes of a string is a literal that is read as the string. -/
theorem exists_pieces (s : List Char) : ∃ ps, quoted ps = jsonString s ∧ ps.map Piece.read = s := by
  induction s with
  | nil => exact ⟨[], rfl, rfl⟩
  | cons c s ih =>
    obtain ⟨ps, htext, hread⟩ := ih
    obtain ⟨p, hp, hc⟩ := exists_piece c
    refine ⟨p :: ps, ?_, by rw [List.map_cons, hc, hread]⟩
    have hrest : ps.flatMap Piece.text = s.flatMap quoteChar := by
      simpa [quoted, jsonString] using htext
    rw [quoted, jsonString, List.flatMap_cons, List.flatMap_cons, hp, hrest]
    rfl

/-! ## Integers -/

theorem asF64_lt_iff (a b : Int64) : asF64 a < asF64 b ↔ Binary64.nearestInt a.toInt < Binary64.nearestInt b.toInt := by
  rw [Binary64.lt_iff, Binary64.compare_eq_rank (asF64_ne_nan a) (asF64_ne_nan b), unpack_asF64, unpack_asF64,
    Binary64.compare_rank_ofInt (log2_int64 a) (log2_int64 b), Option.some_inj, compare_lt_iff_lt]

theorem asF64_beq_iff (a b : Int64) :
    (asF64 a == asF64 b) = true ↔ Binary64.nearestInt a.toInt = Binary64.nearestInt b.toInt := by
  rw [Binary64.beq_iff, Binary64.compare_eq_rank (asF64_ne_nan a) (asF64_ne_nan b), unpack_asF64, unpack_asF64,
    Binary64.compare_rank_ofInt (log2_int64 a) (log2_int64 b), Option.some_inj, compare_eq_iff_eq]

theorem asI64_asF64 (i : Int64) : asI64 (asF64 i) = Int64.ofIntClamp (Binary64.nearestInt i.toInt) := by
  change Int64.ofIntClamp ((asF64 i).toModel.unpack.toInt _ _) = _
  rw [unpack_asF64, Binary64.toInt_ofInt (log2_int64 i)]

/-- The integer goes through binary64 unchanged, below the bound where it would stay a number. -/
def Kept (i : Int64) : Prop := i.toInt.natAbs < 9 * 10 ^ 18 ∧ Binary64.nearestInt i.toInt = i.toInt

instance (i : Int64) : Decidable (Kept i) := inferInstanceAs (Decidable (_ ∧ _))

/-- **An integer comes back exactly when it is kept.** -/
theorem toValue_integer (i : Int64) : toValue (.num (asF64 i).toBits) = .int i ↔ Kept i := by
  have hlow : (-9000000000000000000 : Int64).toInt = -9000000000000000000 := by decide
  have hhigh : (9000000000000000000 : Int64).toInt = 9000000000000000000 := by decide
  have hnear : Binary64.nearestInt 9000000000000000000 = 9000000000000000000 := by decide
  have hnear' : Binary64.nearestInt (-9000000000000000000) = -9000000000000000000 := by decide
  have hvalue : toValue (.num (asF64 i).toBits) =
      if isIntegral (asF64 i) then .int (asI64 (asF64 i)) else .real (asF64 i).toBits := by
    rw [toValue, Json.ofBits_toBits]
  rw [hvalue]
  unfold isIntegral
  constructor
  · intro h
    split at h
    · next hint =>
      simp only [Bool.and_eq_true, decide_eq_true_eq] at hint
      obtain ⟨⟨habove, hbelow⟩, -⟩ := hint
      rw [asF64_lt_iff, hlow, hnear'] at habove
      rw [asF64_lt_iff, hhigh, hnear] at hbelow
      have hi : asI64 (asF64 i) = i := Value.int.inj h
      rw [asI64_asF64] at hi
      have hkept : Binary64.nearestInt i.toInt = i.toInt := by
        have hclamp := congrArg Int64.toInt hi
        have hmin : Int64.minValue.toInt = -9223372036854775808 := by decide
        have hmax : Int64.maxValue.toInt = 9223372036854775807 := by decide
        rwa [Int64.toInt_ofIntClamp (by omega) (by omega)] at hclamp
      exact ⟨by omega, hkept⟩
    · cases h
  · rintro ⟨hbound, hkept⟩
    have hi : asI64 (asF64 i) = i := by rw [asI64_asF64, hkept, Int64.ofIntClamp_toInt]
    have hint : (asF64 (-9000000000000000000) < asF64 i && asF64 i < asF64 9000000000000000000 &&
        asF64 i == asF64 (asI64 (asF64 i))) = true := by
      simp only [Bool.and_eq_true, decide_eq_true_eq]
      refine ⟨⟨?_, ?_⟩, ?_⟩
      · rw [asF64_lt_iff, hlow, hnear', hkept]
        omega
      · rw [asF64_lt_iff, hhigh, hnear, hkept]
        omega
      · rw [hi]
        exact Json.asF64_beq i
    rw [if_pos hint, hi]

/-! ## Documents -/

/-- White space only. -/
def Blank (b : List Char) : Prop := b.all Json.isAsciiWhitespace = true

theorem ws_blank {b : List Char} (h : Blank b) (rest : List Char) : ws (b ++ rest) = ws rest := by
  induction b with
  | nil => rfl
  | cons c b ih =>
    obtain ⟨hc, hb⟩ := Bool.and_eq_true_iff.1 (h : (_ && _) = true)
    rw [List.cons_append, ws, List.dropWhile_cons, if_pos hc]
    exact ih hb

theorem ws_cons {c : Char} (hc : Json.isAsciiWhitespace c = false) (rest : List Char) : ws (c :: rest) = c :: rest := by
  rw [ws, List.dropWhile_cons, hc]
  rfl

/-- What may follow a document without going on with a number. -/
def Ends (rest : List Char) : Prop := ∀ c ∈ rest.head?, isNumberChar c = false

theorem ends_cons {c : Char} (hc : isNumberChar c = false) (rest : List Char) : Ends (c :: rest) := by
  intro d hd
  obtain rfl : c = d := by simpa using hd
  exact hc

theorem ends_blank {b : List Char} (h : Blank b) {rest : List Char} (hrest : Ends rest) : Ends (b ++ rest) := by
  cases b with
  | nil => exact hrest
  | cons c b =>
    obtain ⟨hc, -⟩ := Bool.and_eq_true_iff.1 (h : (_ && _) = true)
    refine ends_cons ?_ (b ++ rest)
    simp only [Json.isAsciiWhitespace, Bool.or_eq_true, beq_iff_eq] at hc
    rcases hc with (((rfl | rfl) | rfl) | rfl) | rfl <;> rfl

/-- The text, whatever follows it, is read as the document, up to white space. -/
def Reads (j : Json) (t : List Char) : Prop := ∀ fuel rest, 2 * t.length ≤ fuel → Ends rest →
  ∃ b, Blank b ∧ value fuel (t ++ rest) = .ok (j, b ++ rest)

/-- A document with white space around it, from what it is read as without. -/
theorem reads_of_core {j : Json} {a k b : List Char} {c : Char} (ha : Blank a) (hb : Blank b)
    (hread : ∀ fuel rest, 2 * (c :: k).length ≤ fuel → Ends rest →
      value fuel (c :: (k ++ rest)) = .ok (j, rest)) : Reads j (a ++ c :: k ++ b) := by
  intro fuel rest hfuel hrest
  refine ⟨b, hb, ?_⟩
  have hlist : a ++ c :: k ++ b ++ rest = a ++ (c :: (k ++ (b ++ rest))) := by simp
  have hlen : 2 * (c :: k).length ≤ fuel := by
    simp only [List.length_append] at hfuel
    omega
  have hcore := hread fuel (b ++ rest) hlen (ends_blank hb hrest)
  rw [hlist, ← hcore]
  obtain ⟨less, rfl⟩ : ∃ less, fuel = less + 1 := ⟨fuel - 1, by simp only [List.length_cons] at hlen; omega⟩
  rw [value.eq_def, value.eq_def]
  dsimp only
  rw [ws_blank ha]

theorem literal_append (word : String) (j : Json) (rest : List Char) :
    literal word j (word.toList ++ rest) = .ok (j, rest) := by
  have hprefix : word.toList.isPrefixOf (word.toList ++ rest) = true :=
    List.isPrefixOf_iff_prefix.2 (List.prefix_append _ _)
  rw [literal, if_pos hprefix, ← String.length_toList, List.drop_left]

theorem reads_null {a b : List Char} (ha : Blank a) (hb : Blank b) : Reads .null (a ++ "null".toList ++ b) := by
  refine reads_of_core ha hb (c := 'n') (k := "ull".toList) fun fuel rest hfuel _ => ?_
  obtain ⟨less, rfl⟩ : ∃ less, fuel = less + 1 := ⟨fuel - 1, by simp at hfuel; omega⟩
  rw [value, ws_cons rfl]
  dsimp only
  rw [if_neg (by decide), if_neg (by decide), if_neg (by decide), if_neg (by decide), if_neg (by decide), if_pos rfl]
  exact literal_append "null" .null rest

theorem reads_true {a b : List Char} (ha : Blank a) (hb : Blank b) : Reads (.bool true) (a ++ "true".toList ++ b) := by
  refine reads_of_core ha hb (c := 't') (k := "rue".toList) fun fuel rest hfuel _ => ?_
  obtain ⟨less, rfl⟩ : ∃ less, fuel = less + 1 := ⟨fuel - 1, by simp at hfuel; omega⟩
  rw [value, ws_cons rfl]
  dsimp only
  rw [if_neg (by decide), if_neg (by decide), if_neg (by decide), if_pos rfl]
  exact literal_append "true" (.bool true) rest

theorem reads_false {a b : List Char} (ha : Blank a) (hb : Blank b) : Reads (.bool false) (a ++ "false".toList ++ b) := by
  refine reads_of_core ha hb (c := 'f') (k := "alse".toList) fun fuel rest hfuel _ => ?_
  obtain ⟨less, rfl⟩ : ∃ less, fuel = less + 1 := ⟨fuel - 1, by simp at hfuel; omega⟩
  rw [value, ws_cons rfl]
  dsimp only
  rw [if_neg (by decide), if_neg (by decide), if_neg (by decide), if_neg (by decide), if_pos rfl]
  exact literal_append "false" (.bool false) rest

theorem reads_str {a b : List Char} (ha : Blank a) (hb : Blank b) (ps : List Piece) :
    Reads (.str (readPieces ps)) (a ++ quoted ps ++ b) := by
  refine reads_of_core ha hb (c := '"') (k := ps.flatMap Piece.text ++ ['"']) fun fuel rest hfuel _ => ?_
  obtain ⟨less, rfl⟩ : ∃ less, fuel = less + 1 := ⟨fuel - 1, by simp at hfuel; omega⟩
  rw [value, ws_cons rfl]
  dsimp only
  rw [if_neg (by decide), if_neg (by decide), if_pos rfl]
  have hstring := string_quoted ps rest
  change string ('"' :: (ps.flatMap Piece.text ++ ['"'] ++ rest)) = _ at hstring
  rw [hstring]
  rfl

/-- Number characters are read as the number they parse to. -/
theorem reads_num {a b t : List Char} (ha : Blank a) (hb : Blank b) {n : Float} (hparse : parseF64 t = some n)
    (hchars : ∀ c ∈ t, isNumberChar c = true) {c : Char} {core : List Char} (ht : t = c :: core)
    (hfirst : c = '-' ∨ c.isDigit = true) : Reads (.num n.toBits) (a ++ t ++ b) := by
  subst ht
  obtain ⟨⟨hspace, -, -⟩, hbrace, hbracket, hquote, htrue, hfalse, hnull⟩ := Json.opens_numeral hfirst
  refine reads_of_core ha hb fun fuel rest hfuel hrest => ?_
  obtain ⟨less, rfl⟩ : ∃ less, fuel = less + 1 := ⟨fuel - 1, by simp at hfuel; omega⟩
  rw [value, ws_cons hspace]
  dsimp only
  rw [if_neg hbrace, if_neg hbracket, if_neg hquote, if_neg htrue, if_neg hfalse, if_neg hnull]
  have hstop : rest.takeWhile isNumberChar = [] ∧ rest.dropWhile isNumberChar = rest := by
    cases rest with
    | nil => exact ⟨rfl, rfl⟩
    | cons d rest =>
      have hd := hrest d rfl
      exact ⟨by rw [List.takeWhile_cons, hd]; rfl, by rw [List.dropWhile_cons, hd]; rfl⟩
  have htake : (c :: core ++ rest).takeWhile isNumberChar = c :: core := by
    rw [List.takeWhile_append_of_pos hchars, hstop.1, List.append_nil]
  have hdrop : (c :: core ++ rest).dropWhile isNumberChar = rest := by
    rw [List.dropWhile_append_of_pos hchars, hstop.2]
  change number (c :: core ++ rest) = _
  unfold number
  dsimp only
  rw [htake, hdrop, hparse]

/-- The texts of an array or an object, with the commas between them. -/
def commas (ts : List (List Char)) : List Char := [','].intercalate ts

theorem commas_cons (t u : List Char) (ts : List (List Char)) : commas (t :: u :: ts) = t ++ ',' :: commas (u :: ts) := by
  simp [commas, List.intercalate]

theorem items_last {fuel : ℕ} {cs after rest : List Char} {v : Json} (hv : value fuel cs = .ok (v, after))
    (hclose : ws after = ']' :: rest) : items (fuel + 1) cs = .ok ([v], rest) := by
  simp [items, hv, hclose, pure, Except.pure]

theorem items_more {fuel : ℕ} {cs after rest rest' : List Char} {v : Json} {vs : List Json}
    (hv : value fuel cs = .ok (v, after)) (hcomma : ws after = ',' :: rest) (hvs : items fuel rest = .ok (vs, rest')) :
    items (fuel + 1) cs = .ok (v :: vs, rest') := by
  simp [items, hv, hcomma, hvs, pure, Except.pure]

theorem members_last {fuel : ℕ} {cs named after closed rest : List Char} {k : String} {v : Json}
    (hk : string (ws cs) = .ok (k, named)) (hcolon : ws named = ':' :: after) (hv : value fuel after = .ok (v, closed))
    (hclose : ws closed = '\x7d' :: rest) : members (fuel + 1) cs = .ok ([(k, v)], rest) := by
  simp [members, hk, hcolon, hv, hclose, pure, Except.pure]

theorem members_more {fuel : ℕ} {cs named after closed rest rest' : List Char} {k : String} {v : Json}
    {ms : List (String × Json)} (hk : string (ws cs) = .ok (k, named)) (hcolon : ws named = ':' :: after)
    (hv : value fuel after = .ok (v, closed)) (hcomma : ws closed = ',' :: rest)
    (hms : members fuel rest = .ok (ms, rest')) : members (fuel + 1) cs = .ok ((k, v) :: ms, rest') := by
  simp [members, hk, hcolon, hv, hcomma, hms, pure, Except.pure]

/-- The loop of an array reads its items. -/
theorem items_commas {ps : List (Json × List Char)} (h : ∀ p ∈ ps, Reads p.1 p.2) (hne : ps ≠ []) (fuel : ℕ)
    (rest : List Char) (hfuel : 2 * (commas (ps.map (·.2))).length + 1 ≤ fuel) :
    items fuel (commas (ps.map (·.2)) ++ ']' :: rest) = .ok (ps.map (·.1), rest) := by
  induction ps generalizing fuel with
  | nil => exact absurd rfl hne
  | cons p ps ih =>
    obtain ⟨less, rfl⟩ : ∃ less, fuel = less + 1 := ⟨fuel - 1, by omega⟩
    have hp := h p List.mem_cons_self
    cases ps with
    | nil =>
      have htext : commas ([p].map (·.2)) = p.2 := by simp [commas]
      rw [htext] at hfuel ⊢
      obtain ⟨b, hb, hread⟩ := hp less (']' :: rest) (by omega) (ends_cons rfl rest)
      exact items_last hread ((ws_blank hb _).trans (ws_cons rfl rest))
    | cons q ps =>
      have htext : commas ((p :: q :: ps).map (·.2)) = p.2 ++ ',' :: commas ((q :: ps).map (·.2)) := commas_cons _ _ _
      rw [htext] at hfuel ⊢
      simp only [List.length_append, List.length_cons] at hfuel
      rw [List.append_assoc, List.cons_append]
      obtain ⟨b, hb, hread⟩ := hp less (',' :: (commas ((q :: ps).map (·.2)) ++ ']' :: rest)) (by omega)
        (ends_cons rfl _)
      refine items_more hread ((ws_blank hb _).trans (ws_cons rfl _)) ?_
      exact ih (fun r hr => h r (List.mem_cons_of_mem _ hr)) (by simp) less (by omega)

/-- A field of an object: its name and value as read, and its text. -/
def ReadsField (f : String × Json) (t : List Char) : Prop :=
  ∃ before ps between u, Blank before ∧ Blank between ∧ readPieces ps = f.1 ∧ Reads f.2 u ∧
    t = before ++ quoted ps ++ between ++ ':' :: u

/-- Name, colon and value of a field, as the loop of an object comes by them. -/
theorem ReadsField.parts {f : String × Json} {t : List Char} (h : ReadsField f t) (after : List Char) (fuel : ℕ)
    (hfuel : 2 * t.length ≤ fuel + 1) (hafter : Ends after) :
    ∃ named colon b, string (ws (t ++ after)) = .ok (f.1, named) ∧ ws named = ':' :: colon ∧ Blank b ∧
      value fuel colon = .ok (f.2, b ++ after) := by
  obtain ⟨before, ps, between, u, hbefore, hbetween, hk, hj, rfl⟩ := h
  have hlist : before ++ quoted ps ++ between ++ ':' :: u ++ after =
      before ++ (quoted ps ++ (between ++ ':' :: (u ++ after))) := by simp
  obtain ⟨b, hb, hread⟩ := hj fuel after (by simp at hfuel; omega) hafter
  refine ⟨between ++ ':' :: (u ++ after), u ++ after, b, ?_, (ws_blank hbetween _).trans (ws_cons rfl _), hb, hread⟩
  rw [hlist, ws_blank hbefore]
  change string (ws ('"' :: _)) = _
  rw [ws_cons rfl, ← hk]
  exact string_quoted ps _

/-- The loop of an object reads its fields. -/
theorem members_commas {ps : List ((String × Json) × List Char)} (h : ∀ p ∈ ps, ReadsField p.1 p.2) (hne : ps ≠ [])
    (fuel : ℕ) (rest : List Char) (hfuel : 2 * (commas (ps.map (·.2))).length + 1 ≤ fuel) :
    members fuel (commas (ps.map (·.2)) ++ '\x7d' :: rest) = .ok (ps.map (·.1), rest) := by
  induction ps generalizing fuel with
  | nil => exact absurd rfl hne
  | cons p ps ih =>
    obtain ⟨less, rfl⟩ : ∃ less, fuel = less + 1 := ⟨fuel - 1, by omega⟩
    have hp := h p List.mem_cons_self
    cases ps with
    | nil =>
      have htext : commas ([p].map (·.2)) = p.2 := by simp [commas]
      rw [htext] at hfuel ⊢
      obtain ⟨named, colon, b, hk, hcolon, hb, hv⟩ := hp.parts ('\x7d' :: rest) less (by omega) (ends_cons rfl rest)
      exact members_last hk hcolon hv ((ws_blank hb _).trans (ws_cons rfl rest))
    | cons q ps =>
      have htext : commas ((p :: q :: ps).map (·.2)) = p.2 ++ ',' :: commas ((q :: ps).map (·.2)) := commas_cons _ _ _
      rw [htext] at hfuel ⊢
      simp only [List.length_append, List.length_cons] at hfuel
      rw [List.append_assoc, List.cons_append]
      obtain ⟨named, colon, b, hk, hcolon, hb, hv⟩ :=
        hp.parts (',' :: (commas ((q :: ps).map (·.2)) ++ '\x7d' :: rest)) less (by omega) (ends_cons rfl _)
      refine members_more hk hcolon hv ((ws_blank hb _).trans (ws_cons rfl _)) ?_
      exact ih (fun r hr => h r (List.mem_cons_of_mem _ hr)) (by simp) less (by omega)

/-- No document begins with a closing bracket. -/
theorem ws_ne_bracket {fuel : ℕ} {cs : List Char} {r : Json × List Char} (h : value fuel cs = .ok r) (rest : List Char) :
    ws cs ≠ ']' :: rest := by
  intro hws
  cases fuel with
  | zero => cases h
  | succ fuel =>
    rw [value, hws] at h
    dsimp only at h
    rw [if_neg (by decide), if_neg (by decide), if_neg (by decide), if_neg (by decide), if_neg (by decide),
      if_neg (by decide)] at h
    have hnone : parseF64 [] = none := rfl
    have htake : (']' :: rest).takeWhile isNumberChar = [] := rfl
    unfold number at h
    dsimp only at h
    rw [htake, hnone] at h
    cases h

theorem reads_arr_nil {a w b : List Char} (ha : Blank a) (hw : Blank w) (hb : Blank b) :
    Reads (.arr []) (a ++ '[' :: (w ++ [']']) ++ b) := by
  refine reads_of_core ha hb fun fuel rest hfuel _ => ?_
  obtain ⟨less, rfl⟩ : ∃ less, fuel = less + 1 := ⟨fuel - 1, by simp at hfuel; omega⟩
  rw [value, ws_cons rfl]
  dsimp only
  rw [if_neg (by decide), if_pos rfl, List.append_assoc, ws_blank hw]
  rfl

theorem reads_obj_nil {a w b : List Char} (ha : Blank a) (hw : Blank w) (hb : Blank b) :
    Reads (.obj []) (a ++ '\x7b' :: (w ++ ['\x7d']) ++ b) := by
  refine reads_of_core ha hb fun fuel rest hfuel _ => ?_
  obtain ⟨less, rfl⟩ : ∃ less, fuel = less + 1 := ⟨fuel - 1, by simp at hfuel; omega⟩
  rw [value, ws_cons rfl]
  dsimp only
  rw [if_pos rfl, List.append_assoc, ws_blank hw]
  rfl

theorem reads_arr {a b : List Char} (ha : Blank a) (hb : Blank b) {ps : List (Json × List Char)}
    (h : ∀ p ∈ ps, Reads p.1 p.2) (hne : ps ≠ []) :
    Reads (.arr (ps.map (·.1))) (a ++ '[' :: (commas (ps.map (·.2)) ++ [']']) ++ b) := by
  refine reads_of_core ha hb fun fuel rest hfuel _ => ?_
  obtain ⟨less, rfl⟩ : ∃ less, fuel = less + 1 := ⟨fuel - 1, by simp at hfuel; omega⟩
  have hitems := items_commas h hne less rest (by simp at hfuel; omega)
  have hopen : ∀ tail, ws (commas (ps.map (·.2)) ++ ']' :: rest) ≠ ']' :: tail := by
    intro tail hws
    obtain ⟨further, rfl⟩ : ∃ further, less = further + 1 := ⟨less - 1, by simp at hfuel; omega⟩
    rw [items] at hitems
    obtain ⟨r, hread, -⟩ := Except.bind_eq_ok.1 hitems
    exact ws_ne_bracket hread tail hws
  rw [value, ws_cons rfl]
  dsimp only
  rw [if_neg (by decide), if_pos rfl, List.append_assoc, List.singleton_append]
  split
  · next tail hws => exact absurd hws (hopen tail)
  · rw [hitems]
    rfl

theorem reads_obj {a b : List Char} (ha : Blank a) (hb : Blank b) {ps : List ((String × Json) × List Char)}
    (h : ∀ p ∈ ps, ReadsField p.1 p.2) (hne : ps ≠ []) :
    Reads (.obj (ps.map (·.1))) (a ++ '\x7b' :: (commas (ps.map (·.2)) ++ ['\x7d']) ++ b) := by
  refine reads_of_core ha hb fun fuel rest hfuel _ => ?_
  obtain ⟨less, rfl⟩ : ∃ less, fuel = less + 1 := ⟨fuel - 1, by simp at hfuel; omega⟩
  have hmembers := members_commas h hne less rest (by simp at hfuel; omega)
  have hopen : ∀ tail, ws (commas (List.map Prod.snd ps) ++ '\x7d' :: rest) ≠ '\x7d' :: tail := by
    intro tail hws
    obtain ⟨further, rfl⟩ : ∃ further, less = further + 1 := ⟨less - 1, by simp at hfuel; omega⟩
    rw [members, hws] at hmembers
    cases hmembers
  rw [value, ws_cons rfl]
  dsimp only
  rw [if_pos rfl, List.append_assoc, List.singleton_append]
  split
  · next tail hws => exact absurd hws (hopen tail)
  · rw [hmembers]
    rfl

/-- A whole body. -/
theorem parse_of_reads {j : Json} {t : List Char} (h : Reads j t) : parse t = .ok j := by
  obtain ⟨b, hb, hread⟩ := h (2 * t.length + 1) [] (by omega) (fun c hc => by cases hc)
  rw [List.append_nil, List.append_nil] at hread
  have hrest : ws b = [] := by
    have hws := ws_blank hb []
    rwa [List.append_nil] at hws
  simp [parse, hread, hrest, pure, Except.pure]

/-! ## The grammar of RFC 8259 -/

structure Exponent where
  marker : Char
  sign : List Char
  digits : List Char
  hmarker : marker = 'e' ∨ marker = 'E'
  hsign : sign = [] ∨ sign = ['+'] ∨ sign = ['-']
  hdigits : digits ≠ [] ∧ digits.all Char.isDigit = true

/-- A number: no leading zero, a digit on both sides of its point. -/
structure Number where
  minus : Bool
  whole : List Char
  fraction : List Char
  exponent : Option Exponent
  hwhole : whole ≠ [] ∧ whole.all Char.isDigit = true ∧ (whole.head? = some '0' → whole = ['0'])
  hfraction : fraction.all Char.isDigit = true

def Exponent.text (e : Exponent) : List Char := e.marker :: (e.sign ++ e.digits)

/-- The point with its digits, and the exponent. -/
def Number.tail (n : Number) : List Char :=
  (if n.fraction = [] then [] else '.' :: n.fraction) ++ n.exponent.elim [] Exponent.text

def Number.text (n : Number) : List Char := (if n.minus then ['-'] else []) ++ (n.whole ++ n.tail)

def Number.sign (n : Number) : Float.Model.UnpackedFloat.Sign := if n.minus then .negative else .positive

/-- The integer that a number without point and exponent spells. -/
def Number.integer (n : Number) : Option ℤ :=
  if n.fraction = [] ∧ n.exponent.isNone then some (n.sign.apply (digitsValue n.whole)) else none

theorem takeWhile_digits {ds tail : List Char} (hds : ds.all Char.isDigit = true) (htail : ∀ c ∈ tail.head?, c.isDigit = false) :
    (ds ++ tail).takeWhile Char.isDigit = ds ∧ (ds ++ tail).dropWhile Char.isDigit = tail := by
  have hall : ∀ c ∈ ds, c.isDigit = true := List.all_eq_true.1 hds
  have hstop : tail.takeWhile Char.isDigit = [] ∧ tail.dropWhile Char.isDigit = tail := by
    cases tail with
    | nil => exact ⟨rfl, rfl⟩
    | cons c tail =>
      have hc := htail c rfl
      exact ⟨by rw [List.takeWhile_cons, hc]; rfl, by rw [List.dropWhile_cons, hc]; rfl⟩
  exact ⟨by rw [List.takeWhile_append_of_pos hall, hstop.1, List.append_nil],
    by rw [List.dropWhile_append_of_pos hall, hstop.2]⟩

theorem exponent_text (e : Option Exponent) : (exponent (e.elim [] Exponent.text)).isSome = true ∧
    ∀ c ∈ (e.elim [] Exponent.text).head?, c.isDigit = false ∧ c ≠ '.' := by
  cases e with
  | none => exact ⟨rfl, fun c hc => by cases hc⟩
  | some e =>
    obtain ⟨marker, sign, digits, hmarker, hsign, hne, hall⟩ := e
    refine ⟨?_, ?_⟩
    · have hsplit : (splitSign (sign ++ digits)).2 = digits := by
        rcases hsign with rfl | rfl | rfl
        · obtain ⟨d, ds, rfl⟩ := List.exists_cons_of_ne_nil hne
          rw [List.nil_append, Json.splitSign_digits (List.all_eq_true.1 hall d List.mem_cons_self)]
        · rfl
        · rfl
      change (exponent (marker :: (sign ++ digits))).isSome = true
      simp [exponent, hsplit, hmarker, hne, hall]
    · intro c hc
      obtain rfl : marker = c := by simpa [Exponent.text] using hc
      rcases hmarker with rfl | rfl <;> decide

/-- A number of the grammar has a value. -/
theorem parseF64_text (n : Number) : ∃ x, parseF64 n.text = some x := by
  obtain ⟨hexp, hhead⟩ := exponent_text n.exponent
  obtain ⟨e, he⟩ := Option.isSome_iff_exists.1 hexp
  obtain ⟨hne, hall, -⟩ := n.hwhole
  have hempty : n.whole.isEmpty = false := List.isEmpty_eq_false_iff.2 hne
  obtain ⟨c, cs, hcs⟩ := List.exists_cons_of_ne_nil hne
  have hsplit : splitSign n.text = (n.sign, n.whole ++ n.tail) := by
    rw [Number.text, Number.sign]
    cases n.minus with
    | true => rfl
    | false =>
      rw [hcs]
      exact Json.splitSign_digits (List.all_eq_true.1 hall c (hcs ▸ List.mem_cons_self))
  have htail : ∀ d ∈ n.tail.head?, d.isDigit = false := by
    intro d hd
    rw [Number.tail] at hd
    split at hd
    · exact (hhead d (by simpa using hd)).1
    · obtain rfl : '.' = d := by simpa using hd
      rfl
  obtain ⟨htake, hdrop⟩ := takeWhile_digits hall htail
  unfold parseF64
  simp only [hsplit, htake, hdrop, hempty, Bool.false_and, Bool.false_eq_true, if_false]
  by_cases hfraction : n.fraction = []
  · have heq : n.tail = n.exponent.elim [] Exponent.text := by rw [Number.tail, if_pos hfraction, List.nil_append]
    rw [heq]
    split
    · next hdot => exact absurd rfl (hhead '.' (by rw [hdot]; rfl)).2
    · rw [he]
      exact ⟨_, rfl⟩
  · have heq : n.tail = '.' :: (n.fraction ++ n.exponent.elim [] Exponent.text) := by
      rw [Number.tail, if_neg hfraction]
      rfl
    obtain ⟨-, hrest⟩ := takeWhile_digits n.hfraction fun d hd => (hhead d hd).1
    rw [heq]
    simp only [hrest, he]
    exact ⟨_, rfl⟩

/-- The number that the reader makes of it. -/
def Number.read (n : Number) : Float := (parseF64 n.text).getD 0

theorem Number.parse_text (n : Number) : parseF64 n.text = some n.read := by
  obtain ⟨x, hx⟩ := parseF64_text n
  rw [Number.read, hx]
  rfl

theorem Number.chars (n : Number) : ∀ c ∈ n.text, isNumberChar c = true := by
  have hdigits {ds : List Char} (h : ds.all Char.isDigit = true) : ∀ c ∈ ds, isNumberChar c = true := by
    intro c hc
    simp [isNumberChar, List.all_eq_true.1 h c hc]
  intro c hc
  simp only [Number.text, Number.tail, List.mem_append] at hc
  rcases hc with hminus | hwhole | hfraction | hexp
  · split at hminus
    · obtain rfl := List.mem_singleton.1 hminus
      rfl
    · cases hminus
  · exact hdigits n.hwhole.2.1 c hwhole
  · split at hfraction
    · cases hfraction
    · rcases List.mem_cons.1 hfraction with rfl | hfraction
      · rfl
      · exact hdigits n.hfraction c hfraction
  · cases hopt : n.exponent with
    | none =>
      rw [hopt] at hexp
      cases hexp
    | some e =>
      rw [hopt] at hexp
      have hmem : c ∈ e.marker :: (e.sign ++ e.digits) := hexp
      rcases List.mem_cons.1 hmem with rfl | hmem
      · rcases e.hmarker with h | h <;> rw [h] <;> rfl
      · rcases List.mem_append.1 hmem with hsign | hdig
        · rcases e.hsign with h | h | h <;> rw [h] at hsign <;> simp at hsign <;> subst hsign <;> rfl
        · exact hdigits e.hdigits.2 c hdig

theorem Number.first (n : Number) : ∃ c cs, n.text = c :: cs ∧ (c = '-' ∨ c.isDigit = true) := by
  obtain ⟨hne, hall, -⟩ := n.hwhole
  obtain ⟨c, cs, hcs⟩ := List.exists_cons_of_ne_nil hne
  rw [Number.text]
  cases n.minus with
  | true => exact ⟨'-', n.whole ++ n.tail, rfl, .inl rfl⟩
  | false =>
    refine ⟨c, cs ++ n.tail, by rw [hcs]; rfl, .inr (List.all_eq_true.1 hall c ?_)⟩
    rw [hcs]
    exact List.mem_cons_self

/-- **An integer literal yields its integer exactly when that is kept.** -/
theorem toValue_number {n : Number} {i : Int64} (h : n.integer = some i.toInt) :
    toValue (.num n.read.toBits) = .int i ↔ Kept i := by
  rw [Number.integer] at h
  split at h
  case isFalse => cases h
  next hplain =>
  obtain ⟨hfraction, hexp⟩ := hplain
  have hvalue : n.sign.apply (digitsValue n.whole) = i.toInt := Option.some.inj h
  obtain ⟨hne, hall, -⟩ := n.hwhole
  have htext : n.text = (if n.minus then ['-'] else []) ++ n.whole := by
    rw [Option.isNone_iff_eq_none] at hexp
    simp [Number.text, Number.tail, hfraction, hexp]
  have hsplit : splitSign n.text = (n.sign, n.whole) := by
    rw [htext, Number.sign]
    cases n.minus with
    | true => rfl
    | false =>
      obtain ⟨c, cs, hcs⟩ := List.exists_cons_of_ne_nil hne
      rw [hcs]
      exact Json.splitSign_digits (List.all_eq_true.1 hall c (hcs ▸ List.mem_cons_self))
  have hparse := Json.parseF64_digits hsplit hne hall
  rw [Number.parse_text, Option.some_inj] at hparse
  by_cases hzero : n.minus = true ∧ digitsValue n.whole = 0
  · -- the one integer with two numbers
    obtain ⟨hminus, hdigits⟩ := hzero
    have hsign : n.sign = .negative := if_pos hminus
    rw [hsign, hdigits] at hparse hvalue
    obtain rfl : i = 0 := Int64.toInt_inj.1 hvalue.symm
    rw [hparse]
    exact iff_of_true (by decide) (by decide)
  · have hread : n.read = asF64 i := by
      have hmodel : asF64 i = .ofModel (.ofInt i.toInt) := rfl
      rw [hparse, hmodel, ← hvalue, Number.sign]
      cases hminus : n.minus with
      | true =>
        have hpos : 0 < digitsValue n.whole := Nat.pos_of_ne_zero fun h => hzero ⟨hminus, h⟩
        exact Json.nearestDecimal_negative hpos
      | false => exact Json.nearestDecimal_positive _
    rw [hread]
    exact toValue_integer i

/-- A document of the grammar, without its white space. -/
inductive Doc where
  | null
  | bool (b : Bool)
  | num (n : Number)
  | str (ps : List Piece)
  | arr (items : List Doc)
  | obj (members : List (List Piece × Doc))

/-- White space of the grammar. -/
def Space (b : List Char) : Prop := ∀ c ∈ b, c = ' ' ∨ c = '\t' ∨ c = '\n' ∨ c = '\r'

theorem Space.blank {b : List Char} (h : Space b) : Blank b := by
  refine List.all_eq_true.2 fun c hc => ?_
  rcases h c hc with rfl | rfl | rfl | rfl <;> rfl

/-- A member of an object with its text. -/
structure Member where
  name : List Piece
  value : Doc
  before : List Char
  between : List Char
  text : List Char

def Member.whole (m : Member) : List Char := m.before ++ quoted m.name ++ m.between ++ ':' :: m.text

def boolText (b : Bool) : List Char := if b then "true".toList else "false".toList

/-- A text of a document: any white space around its tokens. -/
inductive Text : Doc → List Char → Prop where
  | null {a b : List Char} : Space a → Space b → Text .null (a ++ "null".toList ++ b)
  | bool {a b : List Char} (v : Bool) : Space a → Space b → Text (.bool v) (a ++ boolText v ++ b)
  | num {a b : List Char} (n : Number) : Space a → Space b → Text (.num n) (a ++ n.text ++ b)
  | str {a b : List Char} (ps : List Piece) : Space a → Space b → Text (.str ps) (a ++ quoted ps ++ b)
  | arrNil {a w b : List Char} : Space a → Space w → Space b → Text (.arr []) (a ++ '[' :: (w ++ [']']) ++ b)
  | arr {a b : List Char} {ps : List (Doc × List Char)} : Space a → Space b → (∀ p ∈ ps, Text p.1 p.2) → ps ≠ [] →
      Text (.arr (ps.map (·.1))) (a ++ '[' :: (commas (ps.map (·.2)) ++ [']']) ++ b)
  | objNil {a w b : List Char} : Space a → Space w → Space b →
      Text (.obj []) (a ++ '\x7b' :: (w ++ ['\x7d']) ++ b)
  | obj {a b : List Char} {ms : List Member} : Space a → Space b → (∀ m ∈ ms, Space m.before ∧ Space m.between) →
      (∀ m ∈ ms, Text m.value m.text) → ms ≠ [] → Text (.obj (ms.map fun m => (m.name, m.value)))
        (a ++ '\x7b' :: (commas (ms.map Member.whole) ++ ['\x7d']) ++ b)

mutual

/-- What the reader makes of a document. -/
def Doc.read : Doc → Json
  | .null => .null
  | .bool b => .bool b
  | .num n => .num n.read.toBits
  | .str ps => .str (readPieces ps)
  | .arr items => .arr (readItems items)
  | .obj members => .obj (readMembers members)

def readItems : List Doc → List Json
  | [] => []
  | v :: vs => v.read :: readItems vs

def readMembers : List (List Piece × Doc) → List (String × Json)
  | [] => []
  | (k, v) :: ms => (readPieces k, v.read) :: readMembers ms

end

theorem readItems_eq (vs : List Doc) : readItems vs = vs.map Doc.read := by
  induction vs with
  | nil => rfl
  | cons v vs ih => rw [readItems, ih, List.map_cons]

theorem readMembers_eq (ms : List (List Piece × Doc)) : readMembers ms = ms.map fun m => (readPieces m.1, m.2.read) := by
  induction ms with
  | nil => rfl
  | cons m ms ih => rw [readMembers, ih, List.map_cons]

/-- **Every text of a document is read as the document.** -/
theorem reads_of_text {v : Doc} {t : List Char} (h : Text v t) : Reads v.read t := by
  induction h with
  | null ha hb => exact reads_null ha.blank hb.blank
  | bool b ha hb =>
    cases b with
    | true => exact reads_true ha.blank hb.blank
    | false => exact reads_false ha.blank hb.blank
  | num n ha hb =>
    obtain ⟨c, cs, htext, hfirst⟩ := n.first
    exact reads_num ha.blank hb.blank n.parse_text n.chars htext hfirst
  | str ps ha hb => exact reads_str ha.blank hb.blank ps
  | arrNil ha hw hb => exact reads_arr_nil ha.blank hw.blank hb.blank
  | @arr a b ps ha hb _ hne ih =>
    have hitems : ∀ q ∈ ps.map fun p => (p.1.read, p.2), Reads q.1 q.2 := by
      intro q hq
      obtain ⟨p, hp, rfl⟩ := List.mem_map.1 hq
      exact ih p hp
    have hread := reads_arr ha.blank hb.blank hitems (by simpa using hne)
    rw [Doc.read, readItems_eq]
    simpa [List.map_map, Function.comp_def] using hread
  | objNil ha hw hb => exact reads_obj_nil ha.blank hw.blank hb.blank
  | @obj a b ms ha hb hspace _ hne ih =>
    have hfields : ∀ q ∈ ms.map fun m => ((readPieces m.name, m.value.read), m.whole), ReadsField q.1 q.2 := by
      intro q hq
      obtain ⟨m, hm, rfl⟩ := List.mem_map.1 hq
      obtain ⟨hbefore, hbetween⟩ := hspace m hm
      exact ⟨m.before, m.name, m.between, m.text, hbefore.blank, hbetween.blank, rfl, ih m hm, rfl⟩
    have hread := reads_obj ha.blank hb.blank hfields (by simpa using hne)
    rw [Doc.read, readMembers_eq]
    simpa [List.map_map, Function.comp_def] using hread

/-! ## What a body yields -/

def Doc.members : Doc → Option (List (List Piece × Doc))
  | .obj members => some members
  | _ => none

/-- The objects of a request body. -/
def Doc.objects : Doc → Option (List (List (List Piece × Doc)))
  | .obj members => some [members]
  | .arr items => items.mapM Doc.members
  | _ => none

theorem fieldsOf_read {v : Doc} {ms : List (List Piece × Doc)} (h : v.members = some ms) :
    fieldsOf v.read = .ok (readMembers ms) := by
  cases v with
  | obj members =>
    obtain rfl := Option.some.inj h
    rw [Doc.read]
    rfl
  | _ => cases h

theorem mapM_fieldsOf {vs : List Doc} {objects : List (List (List Piece × Doc))} (h : vs.mapM Doc.members = some objects) :
    (readItems vs).mapM fieldsOf = .ok (objects.map readMembers) := by
  induction vs generalizing objects with
  | nil =>
    obtain rfl : [] = objects := by simpa using h
    rfl
  | cons v vs ih =>
    rw [List.mapM_cons] at h
    obtain ⟨ms, hms, h⟩ := Option.bind_eq_some_iff.1 h
    obtain ⟨rest, hrest, h⟩ := Option.bind_eq_some_iff.1 h
    obtain rfl := Option.some.inj h
    rw [readItems, List.mapM_cons, fieldsOf_read hms, ih hrest]
    rfl

/-- A body with objects is accepted, its members as read. -/
theorem bodyObjects_text {v : Doc} {t : List Char} {objects : List (List (List Piece × Doc))} (h : Text v t)
    (hobjects : v.objects = some objects) : bodyObjects t = .ok (objects.map readMembers) := by
  have hparse := parse_of_reads (reads_of_text h)
  cases v with
  | obj members =>
    obtain rfl := Option.some.inj hobjects
    rw [bodyObjects, hparse, Doc.read]
    rfl
  | arr items =>
    rw [bodyObjects, hparse, Doc.read]
    exact mapM_fieldsOf hobjects
  | _ => cases hobjects

/-- What a literal is to yield: NULL, its integer, the string it denotes, and of a nested value
a text that is its JSON form. -/
def Yields (v : Doc) (x : Value) : Prop := match v with
  | .null => x = .null
  | .bool _ => True
  | .num n => ∀ i : Int64, n.integer = some i.toInt → x = .int i
  | .str ps => ∀ s, denote ps = some s → x = .text (String.ofList s)
  | .arr items => ∃ t, Text (.arr items) t ∧ x = .text (String.ofList t)
  | .obj members => ∃ t, Text (.obj members) t ∧ x = .text (String.ofList t)

/-- No character of the literal is spelled as a surrogate pair. -/
def Unpaired (ps : List Piece) : Prop := (denote ps).isSome → ∀ p ∈ ps, p.isSurrogate = false

/-- The literals that come through. -/
def Survives : Doc → Prop
  | .null | .bool _ => True
  | .num n => ∀ i : Int64, n.integer = some i.toInt → Kept i
  | .str ps => Unpaired ps
  | .arr _ | .obj _ => False

theorem readPieces_iff (ps : List Piece) :
    (∀ s, denote ps = some s → readPieces ps = String.ofList s) ↔ Unpaired ps := by
  cases hdenote : denote ps with
  | none => simp [Unpaired, hdenote]
  | some s =>
    have hunpaired : Unpaired ps ↔ ∀ p ∈ ps, p.isSurrogate = false := by simp [Unpaired, hdenote]
    rw [hunpaired]
    rcases Json.readOrMore hdenote with ⟨hnone, hread⟩ | ⟨⟨p, hp, hsurrogate⟩, hmore⟩
    · refine iff_of_true (fun s' hs' => ?_) hnone
      obtain rfl := Option.some.inj hs'
      rw [readPieces, hread]
    · refine iff_of_false (fun h => ?_) fun hnone => ?_
      · have hmap : ps.map Piece.read = s := String.ofList_injective (h s rfl)
        rw [← hmap, List.length_map] at hmore
        exact absurd hmore (lt_irrefl _)
      · rw [hnone p hp] at hsurrogate
        cases hsurrogate

theorem text_ne_nil {v : Doc} {t : List Char} (h : Text v t) : t ≠ [] := by
  cases h with
  | num n =>
    obtain ⟨c, cs, htext, -⟩ := n.first
    simp [htext]
  | bool b => cases b <;> simp [boolText]
  | str ps => simp [quoted]
  | _ => simp

/-- **A literal yields what it is to exactly when it comes through.** -/
theorem yields_iff (v : Doc) : Yields v (toValue v.read) ↔ Survives v := by
  have hnested {w : Doc} : ¬∃ t, Text w t ∧ Value.text "" = .text (String.ofList t) := by
    rintro ⟨t, ht, heq⟩
    have hempty : String.ofList t = "" := (Value.text.inj heq).symm
    exact text_ne_nil ht (by simpa using congrArg String.toList hempty)
  cases v with
  | null => exact iff_of_true (by rw [Doc.read]; rfl) trivial
  | bool b => exact Iff.rfl
  | num n =>
    rw [Doc.read]
    exact forall_congr' fun i => forall_congr' fun hi => toValue_number hi
  | str ps =>
    rw [Doc.read]
    refine Iff.trans ?_ (readPieces_iff ps)
    exact forall_congr' fun s => forall_congr' fun _ => ⟨Value.text.inj, congrArg Value.text⟩
  | arr items =>
    rw [Doc.read]
    exact iff_of_false hnested id
  | obj members =>
    rw [Doc.read]
    exact iff_of_false hnested id

end Twill.Server.JsonBody
